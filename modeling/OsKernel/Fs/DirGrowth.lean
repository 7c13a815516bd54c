import OsKernel.Fs.DirIndex
import OsKernel.Fs.FsRecovery

/-!
# The growth of a directory

`inode_insert` appends an entry whenever it finds none with the name: an entry that `inode_remove`
has cleared is never used again, and the size of a directory only grows.  It reaches `inode_map`
without the test of `inode_write` against `INODE_MAX_BYTES`.  As long as an entry is appended only
to a directory that has room for it, no call leaves the table of the indirect block; after 4480
rounds of an insert and a remove the next insert does.
-/

namespace OsKernel

open Prog Function Avoids

/-! ## Caches whose calls stay inside the tables -/

/-- No call of the cache ends with an access outside the indirect block. -/
structure BlockCache.InBounds {κ : Type} (bc : BlockCache κ) : Prop where
  acquire : ∀ b c, ((bc.acquire b).exec c).1 ≠ .error .outOfBounds
  release : ∀ a c, ((bc.release a).exec c).1 ≠ .error .outOfBounds
  sync : ∀ ctx a c, ((bc.sync ctx a).exec c).1 ≠ .error .outOfBounds
  alloc : ∀ ctx c, ((bc.alloc ctx).exec c).1 ≠ .error .outOfBounds
  data : ∀ a c, ((bc.data a).exec c).1 ≠ .error .outOfBounds
  setData : ∀ a f c, ((bc.setData a f).exec c).1 ≠ .error .outOfBounds

section

variable {α β : Type}

/-- A program on the cache that is never out of bounds. -/
def CacheInBounds (x : CacheM α) : Prop :=
  Avoids Halt.outOfBounds (fun _ => True) x fun _ _ => True

theorem CacheInBounds.bind {x : CacheM α} {f : α → CacheM β} (hx : CacheInBounds x)
    (hf : ∀ a, CacheInBounds (f a)) : CacheInBounds (x >>= f) := Avoids.bind hx hf

theorem CacheInBounds.pure (a : α) : CacheInBounds (Pure.pure a) := Avoids.pure fun _ _ => trivial

theorem CacheInBounds.throw {e : Halt} (he : e ≠ .outOfBounds) :
    CacheInBounds (MonadExcept.throw e : CacheM α) := Avoids.throw he

theorem CacheInBounds.read {f : Cache → CacheM α} (hf : ∀ s, CacheInBounds (f s)) :
    CacheInBounds (get >>= f) := Avoids.read hf

theorem CacheInBounds.set (s : Cache) : CacheInBounds (MonadStateOf.set s) := Avoids.set trivial

theorem CacheInBounds.modify (f : Cache → Cache) :
    CacheInBounds (MonadState.modifyGet fun s => ((), f s) : CacheM Unit) := Avoids.modify fun _ _ => trivial

theorem CacheInBounds.withBlock (a : Nat) (f : Block → Block) : CacheInBounds (withBlock a f) :=
  Avoids.modify fun _ _ => trivial

theorem acquireSleeplock_inBounds (a : Nat) : CacheInBounds (acquireSleeplock a) := by
  refine CacheInBounds.read fun s => ?_
  split
  next => exact .withBlock _ _
  next => exact CacheInBounds.bind (.withBlock _ _) fun _ => .throw nofun

theorem cacheAcquire_inBounds (b : Nat) : CacheInBounds (cacheAcquire b) := by
  refine CacheInBounds.read fun s => ?_
  split
  next a _ =>
    refine CacheInBounds.bind (.set _) fun _ => ?_
    refine CacheInBounds.bind (acquireSleeplock_inBounds a) fun _ => CacheInBounds.read fun s' => ?_
    split
    next => exact CacheInBounds.bind (.modify _) fun _ => .pure _
    next => exact .pure _
  next =>
    refine CacheInBounds.bind (.set _) fun _ => ?_
    refine CacheInBounds.bind (acquireSleeplock_inBounds _) fun _ => ?_
    exact CacheInBounds.bind (.modify _) fun _ => .pure _

theorem cacheRelease_inBounds (a : Nat) : CacheInBounds (cacheRelease a) := by
  refine CacheInBounds.read fun s => ?_
  split
  next => exact .throw nofun
  next => exact .set _

theorem cacheSync_inBounds (ctx : Option Nat) (a : Nat) : CacheInBounds (cacheSync ctx a) := by
  cases ctx with
  | none => exact .modify _
  | some c =>
    refine CacheInBounds.bind (.withBlock _ _) fun _ => CacheInBounds.read fun s => ?_
    split
    next => exact .throw nofun
    next => exact .set _

theorem allocFrom_inBounds (sb : SuperBlock) (c : Nat) (starts : List Nat) :
    CacheInBounds (allocFrom sb c starts) := by
  induction starts with
  | nil => exact .throw nofun
  | cons start rest ih =>
    refine CacheInBounds.bind (cacheAcquire_inBounds _) fun bitmap => CacheInBounds.read fun s => ?_
    dsimp only
    split
    next i _ =>
      refine CacheInBounds.bind (.withBlock _ _) fun _ => ?_
      refine CacheInBounds.bind (cacheSync_inBounds _ _) fun _ => ?_
      refine CacheInBounds.bind (cacheRelease_inBounds _) fun _ => ?_
      refine CacheInBounds.bind (cacheAcquire_inBounds _) fun newBlk => ?_
      refine CacheInBounds.bind (.withBlock _ _) fun _ => ?_
      refine CacheInBounds.bind (cacheSync_inBounds _ _) fun _ => ?_
      exact CacheInBounds.bind (cacheRelease_inBounds _) fun _ => .pure _
    next => exact CacheInBounds.bind (cacheRelease_inBounds _) fun _ => ih

theorem cacheAlloc_inBounds (sb : SuperBlock) (ctx : Option Nat) :
    CacheInBounds (cacheAlloc sb ctx) := by
  cases ctx with
  | none => exact .throw nofun
  | some c => exact allocFrom_inBounds sb c _

theorem bcache_inBounds (sb : SuperBlock) : (bcache sb).InBounds where
  acquire := fun b => (cacheAcquire_inBounds b).never
  release := fun a => (cacheRelease_inBounds a).never
  sync := fun ctx a => (cacheSync_inBounds ctx a).never
  alloc := fun ctx => (cacheAlloc_inBounds sb ctx).never
  data := fun _ _ => nofun
  setData := fun _ _ _ => nofun

end

/-! ## The calls on a directory -/

section

variable {κ : Type} {env : FsEnv κ} {ip n : Nat} {α β : Type}

/-- The inode at `ip` is a directory of `n` bytes. -/
structure DirBytes (ip n : Nat) (s : Fs κ) : Prop where
  type : (s.inodes ip).entry.type = INODE_DIRECTORY
  numBytes : (s.inodes ip).entry.numBytes = n

/-- From a directory of `n` bytes the program stays inside the indirect block, and returns in `Q`
if it returns. -/
abbrev DirAvoids (ip n : Nat) (x : FsM κ α) (Q : α → Fs κ → Prop) : Prop :=
  Avoids Halt.outOfBounds (DirBytes ip n) x Q

/-- The program stays inside the indirect block and leaves the size of the directory as it is. -/
abbrev DirKeeps (ip n : Nat) (x : FsM κ α) : Prop := DirAvoids ip n x fun _ => DirBytes ip n

theorem dirKeeps_pure (a : α) : DirKeeps (κ := κ) ip n (pure a) := pure fun _ h => h

theorem dirKeeps_onCache {x : Prog Halt κ α} (hx : ∀ c, (x.exec c).1 ≠ .error .outOfBounds) :
    DirKeeps ip n (onCache x) := zoom hx fun _ _ h => ⟨h.type, h.numBytes⟩

theorem dirKeeps_assert (c : Prop) [Decidable c] : DirKeeps (κ := κ) ip n (assert c) :=
  ite (fun _ => dirKeeps_pure _) fun _ => throw nofun

theorem dirKeeps_uninit : DirKeeps (κ := κ) ip n uninit :=
  get_bind fun _ hs => bind (set ⟨hs.type, hs.numBytes⟩) fun _ =>
    dirKeeps_pure _

theorem dirAvoids_getInode {f : Inode → FsM κ β} {R : β → Fs κ → Prop}
    (h : ∀ i, i.entry.type = INODE_DIRECTORY → i.entry.numBytes = n → DirAvoids ip n (f i) R) :
    DirAvoids ip n (getInode ip >>= f) R := fun s hs => h (s.inodes ip) hs.type hs.numBytes s hs

theorem dirAvoids_assert {c : Prop} [Decidable c] {f : Unit → FsM κ β} {R : β → Fs κ → Prop}
    (h : c → DirAvoids ip n (f ()) R) : DirAvoids ip n (assert c >>= f) R := by
  refine .bind (Q := fun _ s => c ∧ DirBytes ip n s) (ite (fun hc => ?_) fun _ => ?_)
    fun _ => of_and h
  · exact .pure fun _ hs => ⟨hc, hs⟩
  · exact .throw nofun

theorem dirAvoids_setEntry {m : Nat} {g : InodeEntry → InodeEntry}
    (htype : ∀ e, (g e).type = e.type) (hnum : ∀ e, e.numBytes = n → (g e).numBytes = m) :
    DirAvoids (κ := κ) ip n (setEntry ip g) fun _ => DirBytes ip m := by
  refine .modify fun s hs => ⟨?_, ?_⟩
  · dsimp only
    rw [update_self, htype]
    exact hs.type
  · dsimp only
    rw [update_self]
    exact hnum _ hs.numBytes

theorem dirKeeps_setEntry {g : InodeEntry → InodeEntry}
    (hg : ∀ e, InodeEntry.SameAttrs e (g e)) : DirKeeps (κ := κ) ip n (setEntry ip g) :=
  dirAvoids_setEntry (fun e => (hg e).type) fun e he => (hg e).numBytes.trans he

variable (hc : env.cache.InBounds)

include hc

/-- A block that is held is changed, synced and released, and the program goes on with `f`. -/
theorem writeBack_avoids {ctx : Option Nat} {blk : Nat} {g : Data → Data} {f : FsM κ β}
    {R : β → Fs κ → Prop} (hf : DirAvoids ip n f R) : DirAvoids ip n (setBlockData env blk g >>=
      fun _ => sync env ctx blk >>= fun _ => release env blk >>= fun _ => f) R := by
  refine .bind (dirKeeps_onCache (hc.setData _ _)) fun _ => ?_
  refine .bind (dirKeeps_onCache (hc.sync _ _)) fun _ => ?_
  exact .bind (dirKeeps_onCache (hc.release _)) fun _ => hf

theorem inodeSync_keeps (ctx : Option Nat) : DirKeeps ip n (inodeSync env ctx ip true) := by
  refine dirAvoids_getInode fun i _ _ => bind (dirKeeps_assert _) fun _ => ?_
  refine .bind (dirKeeps_onCache (hc.acquire _)) fun blk => ?_
  refine .bind (dirAvoids_getInode fun i _ _ => dirKeeps_onCache (hc.setData _ _)) fun _ => ?_
  refine .bind (dirKeeps_onCache (hc.sync _ _)) fun _ => ?_
  exact dirKeeps_onCache (hc.release _)

theorem mapIndirect_keeps (ctx : Option Nat) {idx : Nat} (hidx : idx < INODE_NUM_INDIRECT) :
    DirKeeps ip n (mapIndirect env ctx ip idx) := by
  refine dirAvoids_getInode fun i _ _ => ?_
  refine .bind (dirKeeps_onCache (hc.acquire _)) fun indBlk => ?_
  rw [if_pos hidx]
  refine .bind (dirKeeps_onCache (hc.data _)) fun d => ite (fun _ => ?_) fun _ => ?_
  · refine .bind (dirKeeps_onCache (hc.alloc _)) fun blkNo => ?_
    exact writeBack_avoids hc (dirKeeps_pure _)
  · exact .bind (dirKeeps_onCache (hc.release _)) fun _ => dirKeeps_pure _

variable {offset count : Nat}

theorem inodeMap_keeps (ctx : Option Nat) (hoff : offset < INODE_MAX_BYTES) :
    DirKeeps ip n (inodeMap env ctx ip offset) := by
  have hidx : offset / BLOCK_SIZE - INODE_NUM_DIRECT < INODE_NUM_INDIRECT := by
    simp only [INODE_MAX_BYTES, INODE_NUM_DIRECT, INODE_NUM_INDIRECT, BLOCK_SIZE] at *
    omega
  refine dirAvoids_getInode fun i _ _ => ite (fun _ => ?_) fun _ => ?_
  · refine .ite (fun _ => ?_) fun _ => dirKeeps_pure _
    refine .bind (dirKeeps_onCache (hc.alloc _)) fun blkNo => ?_
    refine .bind (dirKeeps_setEntry fun e => .setAddr e _ _) fun _ => ?_
    exact .bind (inodeSync_keeps hc ctx) fun _ => dirKeeps_pure _
  refine .ite (fun _ => ite (fun _ => dirKeeps_pure _) fun _ => ?_) fun _ =>
    mapIndirect_keeps hc ctx hidx
  refine .bind (dirKeeps_onCache (hc.alloc _)) fun blkNo => ?_
  refine .bind (dirKeeps_setEntry fun e => .setIndirect e _) fun _ => ?_
  refine dirAvoids_getInode fun i _ _ => ?_
  refine .bind (dirKeeps_onCache (hc.acquire _)) fun indBlk => ?_
  exact writeBack_avoids hc (mapIndirect_keeps hc ctx hidx)

theorem readLoop_keeps (hmax : offset + count ≤ INODE_MAX_BYTES) :
    ∀ (fuel : Nat) (dest : Nat → UInt8) (readBytes : Nat),
      DirKeeps ip n (readLoop env ip offset count fuel dest readBytes)
  | 0, _, _ => dirKeeps_pure _
  | fuel + 1, dest, readBytes => by
    refine .ite (fun hlt => ?_) fun _ => dirKeeps_pure _
    refine .bind (inodeMap_keeps hc none (by omega)) fun blkNo => ?_
    refine .ite (fun _ => dirKeeps_pure _) fun _ => ?_
    refine .bind (dirKeeps_onCache (hc.acquire _)) fun blk => ?_
    refine .bind (dirKeeps_onCache (hc.data _)) fun d => ?_
    refine .bind (dirKeeps_onCache (hc.release _)) fun _ => ?_
    exact readLoop_keeps hmax fuel _ _

theorem inodeRead_keeps (hn : n ≤ INODE_MAX_BYTES) (dest : Nat → UInt8) (offset : Nat)
    (hcount : count < 2 ^ 64) : DirKeeps ip n (inodeRead env ip dest offset count) := by
  refine dirAvoids_getInode fun i htype hnum => ?_
  rw [if_neg (by rw [htype]; decide)]
  refine dirAvoids_assert fun hoff => dirAvoids_assert fun hend => dirAvoids_assert fun hwrap => ?_
  refine readLoop_keeps hc (Nat.le_trans ?_ hn) _ _ _
  -- an offset inside the file and a count that is cut off at its end do not wrap
  have hk : (if n < usize (count + offset) then usizeSub n offset else count) < 2 ^ 64 := by
    split
    next => exact usize_lt _
    next => exact hcount
  rw [hnum] at hoff hend hwrap ⊢
  generalize (if n < usize (count + offset) then usizeSub n offset else count) = k at *
  simp only [usize] at hend hwrap
  omega

theorem writeLoop_keeps (ctx : Option Nat) {src : Nat → UInt8}
    (hmax : offset + count ≤ INODE_MAX_BYTES) : ∀ (fuel written : Nat), written ≤ count →
      DirAvoids ip n (writeLoop env ctx ip src offset count fuel written) fun w s =>
        w ≤ count ∧ DirBytes ip n s
  | 0, _, hw => Avoids.pure fun _ hs => ⟨hw, hs⟩
  | fuel + 1, written, hw => by
    refine .ite (fun hlt => ?_) fun _ => Avoids.pure fun _ hs => ⟨hw, hs⟩
    refine .bind (inodeMap_keeps hc ctx (by omega)) fun blkNo => ?_
    refine .bind (dirKeeps_assert _) fun _ => ?_
    refine .bind (dirKeeps_onCache (hc.acquire _)) fun blk => ?_
    exact writeBack_avoids hc (writeLoop_keeps ctx hmax fuel _ (by omega))

abbrev DirFits (ip : Nat) (s : Fs κ) : Prop := ∃ n ≤ INODE_MAX_BYTES, DirBytes ip n s

theorem inodeWrite_fits (ctx : Option Nat) (hn : n ≤ INODE_MAX_BYTES) (src : Nat → UInt8)
    (offset : Nat) (hcount : count < 2 ^ 64) :
    DirAvoids ip n (inodeWrite env ctx ip src offset count) fun _ => DirFits ip := by
  refine dirAvoids_getInode fun i htype hnum => ?_
  rw [if_neg (by rw [htype]; decide)]
  refine dirAvoids_assert fun hoff => dirAvoids_assert fun hend => dirAvoids_assert fun hwrap => ?_
  have hmax : INODE_MAX_BYTES < 2 ^ 32 := by decide
  have hend' : offset + count ≤ INODE_MAX_BYTES := by
    simp only [usize] at *
    omega
  refine .bind (writeLoop_keeps hc ctx hend' _ _ (Nat.zero_le _)) fun w => ?_
  refine .of_and fun hw => dirAvoids_getInode fun i _ _ => ?_
  refine .ite (fun _ => ?_) fun _ => pure fun _ hs => ⟨n, hn, hs⟩
  have hw' : offset + w ≤ INODE_MAX_BYTES := by omega
  refine .bind (dirAvoids_setEntry (m := offset + w) (fun e => e.type_setNumBytes _)
    fun e _ => ?_) fun _ => ?_
  · rw [InodeEntry.numBytes_setNumBytes]
    exact Nat.mod_eq_of_lt (Nat.lt_of_le_of_lt hw' hmax)
  · refine .bind (inodeSync_keeps hc ctx) fun _ => ?_
    exact .pure fun _ hs => ⟨_, hw', hs⟩

theorem lookupFrom_keeps (hn : n ≤ INODE_MAX_BYTES) (name : Nat → UInt8) (offsets : List Nat) :
    DirKeeps ip n (lookupFrom env ip name offsets) := by
  induction offsets with
  | nil => exact dirKeeps_pure _
  | cons i rest ih =>
    refine .bind dirKeeps_uninit fun dirEntry => ?_
    refine .bind (inodeRead_keeps hc hn _ _ (by decide)) fun r => ?_
    exact .ite (fun _ => dirKeeps_pure _) fun _ => ih

theorem inodeLookup_keeps (hn : n ≤ INODE_MAX_BYTES) (name : Nat → UInt8) :
    DirKeeps ip n (inodeLookup env ip name) :=
  dirAvoids_getInode fun _ _ _ => bind (dirKeeps_assert _) fun _ =>
    lookupFrom_keeps hc hn name _

theorem inodeInsert_fits (ctx : Option Nat) (hn : n ≤ INODE_MAX_BYTES) (name : Nat → UInt8)
    (no : Nat) {s : Fs κ} (hs : DirBytes ip n s)
    (hroom : ((inodeLookup env ip name).exec s).1 = .ok none →
      n + DIR_ENTRY_BYTES ≤ INODE_MAX_BYTES) :
    Avoids Halt.outOfBounds (fun s' => s' = s) (inodeInsert env ctx ip name no) fun _ =>
      DirFits ip := by
  have hmax : INODE_MAX_BYTES < 2 ^ 32 := by decide
  refine .bind (Q := fun _ s' => s' = s) (read fun _ => pure fun _ h => h)
    fun i => ?_
  refine .bind (Q := fun _ s' => s' = s)
    (ite (fun _ => pure fun _ h => h) fun _ => throw nofun) fun _ => ?_
  refine .bind ((inodeLookup_keeps hc hn name).result hs) fun found => ?_
  cases found with
  | some r => exact .pure fun _ h => ⟨n, hn, h.1⟩
  | none =>
    refine .pre (of_and fun hnone => ?_) fun _ h => And.symm h
    have hfit := hroom hnone
    refine dirAvoids_getInode fun i _ hnum => ?_
    rw [hnum]
    have hoff : n / DIR_ENTRY_BYTES * DIR_ENTRY_BYTES < INODE_MAX_BYTES := by
      simp only [DIR_ENTRY_BYTES] at hfit ⊢
      omega
    refine .bind (inodeMap_keeps hc ctx hoff) fun blockNo => ?_
    refine .bind (dirKeeps_assert _) fun _ => ?_
    refine .bind (dirKeeps_onCache (hc.acquire _)) fun blk => ?_
    refine writeBack_avoids hc ?_
    refine .bind (dirAvoids_setEntry (m := n + DIR_ENTRY_BYTES)
      (fun e => e.type_setNumBytes _) fun e he => ?_) fun _ => ?_
    · rw [InodeEntry.numBytes_setNumBytes, he]
      exact Nat.mod_eq_of_lt (Nat.lt_of_le_of_lt hfit hmax)
    · refine .bind (inodeSync_keeps hc ctx) fun _ => ?_
      exact .pure fun _ h => ⟨_, hfit, h⟩

theorem inodeRemove_fits (ctx : Option Nat) (hn : n ≤ INODE_MAX_BYTES) (index : Nat) :
    DirAvoids ip n (inodeRemove env ctx ip index) fun _ => DirFits ip := by
  refine .bind dirKeeps_uninit fun curr => ?_
  refine .bind (inodeRead_keeps hc hn _ _ (by decide)) fun r => ?_
  refine .bind (inodeWrite_fits hc ctx hn _ _ (by decide)) fun _ => ?_
  exact .pure fun _ hs => hs

end

/-! ## Sequences of calls -/

inductive DirCall where
  | insert (name : Nat → UInt8) (no : Nat)
  | remove (index : Nat)

namespace DirCall

variable {κ : Type}

def run (env : FsEnv κ) (ctx : Option Nat) (ip : Nat) : DirCall → FsM κ Unit
  | .insert name no => do
    let _ ← inodeInsert env ctx ip name no
    return ()
  | .remove index => inodeRemove env ctx ip index

def step (env : FsEnv κ) (ctx : Option Nat) (ip : Nat) (s : Fs κ) (call : DirCall) :
    Except Halt (Fs κ) :=
  (((call.run env ctx ip).exec s).1).map fun _ => ((call.run env ctx ip).exec s).2

/-- A name that the directory does not have is inserted only if there is room for its entry. -/
def HasSpace (env : FsEnv κ) (ip : Nat) (s : Fs κ) : DirCall → Prop
  | .insert name _ => ((inodeLookup env ip name).exec s).1 = .ok none →
      (s.inodes ip).entry.numBytes + DIR_ENTRY_BYTES ≤ INODE_MAX_BYTES
  | .remove _ => True

instance (env : FsEnv κ) (ip : Nat) (s : Fs κ) : (call : DirCall) → Decidable (call.HasSpace env ip s)
  | .insert _ _ => inferInstanceAs (Decidable (_ → _))
  | .remove _ => .isTrue trivial

variable {env : FsEnv κ} {ctx : Option Nat} {ip : Nat} {s s' : Fs κ} {call : DirCall}

theorem run_fits (hc : env.cache.InBounds) (hs : DirFits ip s) (hok : call.HasSpace env ip s) :
    Avoids Halt.outOfBounds (fun s' => s' = s) (call.run env ctx ip) fun _ => DirFits ip := by
  obtain ⟨n, hn, hs⟩ := hs
  cases call with
  | insert name no =>
    refine .bind (inodeInsert_fits hc ctx hn name no hs fun hnone => ?_) fun _ =>
      pure fun _ h => h
    rw [← hs.numBytes]
    exact hok hnone
  | remove index => exact (inodeRemove_fits hc ctx hn index).pre fun _ h => h ▸ hs

theorem exec_of_step (h : step env ctx ip s call = .ok s') :
    (call.run env ctx ip).exec s = (.ok (), s') := by
  rw [step] at h
  rcases hx : (call.run env ctx ip).exec s with ⟨_ | _, s1⟩
  · rw [hx] at h
    cases h
  · rw [hx] at h
    cases h
    rfl

end DirCall

/-- Directory growth stays inside the inode as long as there is room: after any sequence of calls of
`inode_insert` and `inode_remove` on a directory, in which a new name is inserted only while the
directory has room for one more entry, no further such call accesses the table of the indirect block
outside its bounds, and the directory fits a file. -/
theorem directory_growth_in_bounds {κ : Type} {env : FsEnv κ} (ctx : Option Nat) (ip : Nat)
    (hc : env.cache.InBounds) {s : Fs κ}
    (hs : Runs.Reach (DirCall.step env ctx ip) (fun s call => call.HasSpace env ip s) (DirFits ip) s) :
    (s.inodes ip).entry.numBytes ≤ INODE_MAX_BYTES ∧
      ∀ call : DirCall, call.HasSpace env ip s →
        ((call.run env ctx ip).exec s).1 ≠ .error .outOfBounds := by
  have hfits : DirFits ip s := hs.invariant (fun _ h => h) fun s call s' h hok hstep =>
    (DirCall.run_fits hc h hok s rfl).2 () s' (DirCall.exec_of_step hstep)
  refine ⟨?_, fun call hok => (DirCall.run_fits hc hfits hok s rfl).1⟩
  obtain ⟨n, hn, hd⟩ := hfits
  rw [hd.numBytes]
  exact hn

/-- The name `a` is inserted into the root directory of the small image, removed and inserted
again. -/
theorem directory_growth_in_bounds_small :
    ∃ s, Runs.Reach (DirCall.step (.kernel Mkfs.superBlock) (some 0) 0)
        (fun s call => call.HasSpace (.kernel Mkfs.superBlock) 0 s) (DirFits 0) s ∧
      (s.inodes 0).entry.numBytes = 80 ∧
      (((DirCall.insert (cstr [98]) 5).run (.kernel Mkfs.superBlock) (some 0) 0).exec s).1 ≠
        .error .outOfBounds := by
  -- inside a transaction
  have hinit : DirFits 0 ((onCache (cacheBeginOp 0)).exec smallBooted).2 :=
    ⟨48, by decide, by decide +kernel, by decide +kernel⟩
  obtain ⟨s, hs, htest⟩ := Runs.Reach.of_guardedTest hinit
    (show Runs.execTest (Runs.guarded (DirCall.step (.kernel Mkfs.superBlock) (some 0) 0)
        (fun s call => decide (call.HasSpace (.kernel Mkfs.superBlock) 0 s)) .panic)
      ((onCache (cacheBeginOp 0)).exec smallBooted).2
      [.insert (cstr [97]) 5, .remove 48, .insert (cstr [97]) 5]
      (fun s => (s.inodes 0).entry.numBytes = 80) = true by decide +kernel)
  have hbytes := of_decide_eq_true htest
  have hgrow := directory_growth_in_bounds (some 0) 0 (bcache_inBounds Mkfs.superBlock) hs
  refine ⟨s, hs, hbytes, hgrow.2 _ fun _ => ?_⟩
  rw [hbytes]
  decide

/-! ## A directory that is full -/

section

variable {κ : Type} {env : FsEnv κ} {B : StoreView κ} {s : Fs κ} {ip ctx no : Nat} {name : FileName}

theorem DirFile.indirect_ne_zero {c : κ} {e : InodeEntry} (h : DirFile B c e)
    (hfull : e.numBytes = INODE_MAX_BYTES) : e.indirect ≠ 0 := by
  intro h0
  have hlast := h.full INODE_NUM_DIRECT (by rw [hfull]; decide)
  exact hlast (fileBlock_of_indirect_zero (Nat.lt_irrefl _) h0)

theorem exec_inodeMap_past (ctx : Nat) {s' : Fs κ} {offset a : Nat} (hoff : MAX_BLOCKS ≤ offset / BLOCK_SIZE)
    (hind : (s.inodes ip).entry.indirect ≠ 0)
    (hacq : (acquire env (s.inodes ip).entry.indirect).exec s = (.ok a, s')) :
    (inodeMap env (some ctx) ip offset).exec s = (.error .outOfBounds, s') := by
  have hdirect : ¬ offset / BLOCK_SIZE < INODE_NUM_DIRECT := by
    simp only [MAX_BLOCKS] at hoff
    omega
  have hidx : ¬ offset / BLOCK_SIZE - INODE_NUM_DIRECT < INODE_NUM_INDIRECT := by
    simp only [MAX_BLOCKS] at hoff
    omega
  unfold inodeMap mapIndirect
  rw [exec_bind_ok (exec_getInode ip s), if_neg hdirect, if_neg hind,
    exec_bind_ok (exec_getInode ip s), exec_bind_ok hacq, if_neg hidx, exec_throw]

/-- A new name in a full directory: the entry of its block is looked for after the end of the
indirect block. -/
theorem exec_inodeInsert_full (L : StoreLaws env.cache B)
    (h : DirFile B s.cache (s.inodes ip).entry)
    (hfull : (s.inodes ip).entry.numBytes = INODE_MAX_BYTES)
    (hnone : dirFind (B.view s.cache) (s.inodes ip).entry name = none) :
    ((inodeInsert env (some ctx) ip name.str no).exec s).1 = .error .outOfBounds := by
  obtain ⟨s', hlookup, j, c1, hs', hsame⟩ := exec_inodeLookup s ip L h name
  rw [Fs.setFile_self, hnone, Option.map_none] at hlookup
  have hentry : (s'.inodes ip).entry = (s.inodes ip).entry := by rw [hs', Fs.inodes_setFile]
  have h1 := h.same L hsame
  have hind := h.indirect_ne_zero hfull
  have hlt := Nat.lt_trans (s.inodes ip).entry.indirect_lt (show 2 ^ 32 < 2 ^ 64 by decide)
  obtain ⟨a, c2, hacq, -⟩ := L.acquire h1.settled.ok hlt
    (h1.file.own L (indirect_mem_refs hind)) (h1.settled.free _)
  have hacq' : (acquire env (s'.inodes ip).entry.indirect).exec s' =
      (.ok a, { s' with cache := c2 }) := by
    refine exec_onCache ?_
    rw [hentry, usize, Nat.mod_eq_of_lt hlt, hs', Fs.cache_setFile]
    exact hacq
  have hmap : (inodeMap env (some ctx) ip (INODE_MAX_BYTES / DIR_ENTRY_BYTES *
      DIR_ENTRY_BYTES)).exec s' = (.error .outOfBounds, _) :=
    exec_inodeMap_past ctx (by decide) (hentry ▸ hind) hacq'
  unfold inodeInsert
  rw [exec_bind_ok (exec_getInode ip s), exec_bind_ok (exec_assert h.type s), exec_bind_ok hlookup]
  rw [exec_bind_ok (exec_getInode ip s'), hentry, hfull, exec_bind_error hmap]

end

namespace MockCache

/-- Rounds of `inode_insert` and `inode_remove` of the name `a`. -/
def createRounds : Nat → List DirOp
  | 0 => []
  | n + 1 => .insert nameA 5 :: .remove nameA :: createRounds n

theorem createRounds_spec (n : Nat) : ∀ k, DIR_ENTRY_BYTES * (k + n) ≤ INODE_MAX_BYTES →
    DirOp.AllFit ⟨fun _ => none, k⟩ (createRounds n) ∧
      (createRounds n).foldl DirOp.apply ⟨fun _ => none, k⟩ = ⟨fun _ => none, k + n⟩ := by
  induction n with
  | zero => exact fun k _ => ⟨trivial, rfl⟩
  | succ n ih =>
    intro k hk
    have happly : DirOp.apply (DirOp.apply ⟨fun _ => none, k⟩ (.insert nameA 5)) (.remove nameA) =
        ⟨fun _ => none, k + 1⟩ := by
      simp only [DirOp.apply, update_idem]
      congr 1
      exact update_eq_self nameA _
    obtain ⟨hfit, hfold⟩ := ih (k + 1) (by rwa [Nat.add_assoc, Nat.add_comm 1 n])
    refine ⟨⟨⟨by decide, by decide, fun _ => ?_⟩, trivial, ?_⟩, ?_⟩
    · exact Nat.le_trans (Nat.mul_le_mul_left _ (by dsimp only; omega)) hk
    · rw [happly]
      exact hfit
    · rw [createRounds, List.foldl_cons, List.foldl_cons, happly, hfold, Nat.add_assoc,
        Nat.add_comm 1 n]

/-- After 4480 rounds the next insert is out of bounds. -/
theorem directory_outgrows_inode :
    ∃ s, ((createRounds 4480).forM fun op => op.run env 0 0).exec emptyDir = (.ok (), s) ∧
      ((inodeInsert env (some 0) 0 nameA.str 5).exec s).1 = .error .outOfBounds := by
  obtain ⟨hfit, hfold⟩ := createRounds_spec 4480 0 (by decide)
  obtain ⟨_, _, hexec, j, c', e', rfl, hd⟩ := (DirOp.post_runs (s := emptyDir) 0
    (show StoreLaws env.cache view from laws) inodeBlocks
    (show (emptyDir.inodes 0).inodeNo < env.sb.numInodes by decide) emptyDir_is hfit).returns
    fun _ hf => hf
  rw [Fs.setFile_self] at hexec
  rw [hfold] at hd
  refine ⟨_, hexec, exec_inodeInsert_full (show StoreLaws env.cache view from laws) ?_ ?_ ?_⟩
  · rw [Fs.inodes_setFile]
    exact hd.toDirFile
  · rw [Fs.inodes_setFile, hd.size, hd.slots]
    rfl
  · rw [Fs.inodes_setFile]
    have hb := congrFun hd.bindings nameA
    exact Option.map_eq_none_iff.mp hb

end MockCache

end OsKernel
