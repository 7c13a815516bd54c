import OsKernel.Fs.InodeText
import OsKernel.Fs.WriteAhead

/-!
# The file system on top of the write-ahead rule

No function of the inode layer touches the device: each goes through the calls of
the cache and releases the blocks it acquires.  Only `inode_get` syncs with `NULL`,
and what it writes is on the device already if the inode block was settled when it
started (`Fs.Settled`).  Every other `cache_sync` has the context of the running
operation.  So each function returns with the invariant of the cache for the same
running operation and the same blocks held, or stops (`Stays`); the proofs follow the
text of the functions.
-/

namespace OsKernel

open Prog Cache Triple

/-- Whenever `inode_get` has loaded an inode, the cached inode block was the one on the
device. -/
def Fs.Settled (s : Fs Cache) : Prop := ∀ l ∈ s.loads, l.1.contents l.2 = l.1.disk l.2

instance (s : Fs Cache) : Decidable s.Settled :=
  inferInstanceAs (Decidable (∀ l ∈ s.loads, l.1.contents l.2 = l.1.disk l.2))

/-- The invariant of the cache under the file system, if loads have been settled. -/
def FsAt (sb : SuperBlock) (d₀ : Nat → Data) (run : Option Nat) (H : List Nat) (s : Fs Cache) : Prop :=
  s.Settled → At sb d₀ run H s.cache

/-- What is known where a function stops: the invariant of the cache, for some operation. -/
def FsStop (sb : SuperBlock) (d₀ : Nat → Data) (s : Fs Cache) : Prop := s.Settled → StopAt sb d₀ s.cache

/-- A program that returns with the same operation running and the same blocks held. -/
def Stays {α : Type} (sb : SuperBlock) (d₀ : Nat → Data) (run : Option Nat) (H : List Nat)
    (x : FsM Cache α) : Prop :=
  Triple (FsAt sb d₀ run H) x (fun _ => FsAt sb d₀ run H) (FsStop sb d₀)

section

variable {sb : SuperBlock} {d₀ : Nat → Data} {run : Option Nat} {H : List Nat} {c : Nat}
  {α β : Type}

/-- A function may stop wherever it may go on. -/
theorem FsAt.stop {s : Fs Cache} (h : FsAt sb d₀ run H s) : FsStop sb d₀ s := fun hs => (h hs).stopAt

/-- What a call of the cache does, in a state of the file system. -/
theorem onCache_triple {P : Cache → Prop} {x : CacheM α} {Q : α → Cache → Prop} {E : Cache → Prop}
    (h : Triple P x Q E) :
    Triple (fun s => s.Settled → P s.cache) (onCache x) (fun a s => s.Settled → Q a s.cache)
      (fun s => s.Settled → E s.cache) := by
  refine .assuming (fun _ hs => hs) fun s hs _ => ?_
  exact zoom (fun _ _ => rfl) h s hs

namespace Stays

variable {x : FsM Cache α} {f : α → FsM Cache β}

/-- The rules for `Stays`, one for each way to build a program. -/
theorem pure (a : α) : Stays sb d₀ run H (Pure.pure a : FsM Cache α) := Triple.pure fun _ h => h

theorem throw (e : Halt) : Stays sb d₀ run H (throw e : FsM Cache α) := Triple.throw fun _ h => h.stop

theorem bind (hx : Stays sb d₀ run H x) (hf : ∀ a, Stays sb d₀ run H (f a)) :
    Stays sb d₀ run H (x >>= f) := Triple.bind hx hf

theorem read {f : Fs Cache → FsM Cache β} (hf : ∀ s, Stays sb d₀ run H (f s)) :
    Stays sb d₀ run H (get >>= f) := Triple.read hf

theorem ite {c : Prop} [Decidable c] {y : FsM Cache α} (hx : Stays sb d₀ run H x)
    (hy : Stays sb d₀ run H y) : Stays sb d₀ run H (if c then x else y) :=
  Triple.ite (fun _ => hx) fun _ => hy

theorem modify {g : Fs Cache → Fs Cache} (hcache : ∀ s, (g s).cache = s.cache)
    (hloads : ∀ s, (g s).loads = s.loads) : Stays sb d₀ run H (modify g : FsM Cache PUnit) := by
  refine Triple.modify fun s h => ?_
  rw [FsAt, Fs.Settled, hcache, hloads]
  exact h

end Stays

/-- An acquired block is held until its release. -/
theorem acquire_triple (b : Nat) :
    Triple (FsAt sb d₀ run H) (acquire (.kernel sb) b) (fun a => FsAt sb d₀ run (a :: H)) (FsStop sb d₀) :=
  onCache_triple (cacheAcquire_triple b)

theorem release_triple {a : Nat} :
    Triple (FsAt sb d₀ run (a :: H)) (release (.kernel sb) a) (fun _ => FsAt sb d₀ run H) (FsStop sb d₀) :=
  onCache_triple cacheRelease_triple

theorem blockData_stays (a : Nat) : Stays sb d₀ run H (blockData (.kernel sb) a) := .read fun _ => .pure _

theorem getInode_stays (ip : Nat) : Stays sb d₀ run H (getInode ip) := .read fun _ => .pure _

theorem setInode_stays (ip : Nat) (f : Inode → Inode) : Stays sb d₀ run H (setInode ip f) :=
  .modify (fun _ => rfl) fun _ => rfl

theorem setEntry_stays (ip : Nat) (f : InodeEntry → InodeEntry) :
    Stays sb d₀ run H (setEntry ip f) := setInode_stays ip _

theorem assert_stays (c : Prop) [Decidable c] : Stays sb d₀ run H (assert c) :=
  .ite (.pure _) (.throw _)

theorem uninit_stays : Stays sb d₀ run H uninit := fun _ h => h

/-! ## Locks -/

/-- The sleep locks of inodes are no part of the cache. -/
theorem lockInode_stays (ip : Nat) : Stays sb d₀ run H (lockInode ip) := by
  refine (getInode_stays ip).bind fun i => ?_
  split
  · exact setInode_stays ip _
  · exact (setInode_stays ip _).bind fun _ => .throw _

theorem postInode_stays (ip : Nat) : Stays sb d₀ run H (postInode ip) := by
  refine (getInode_stays ip).bind fun i => ?_
  split
  · exact .throw _
  · exact setInode_stays ip _

theorem inodeLock_stays (ip : Nat) : Stays sb d₀ run H (inodeLock (.kernel sb) ip) := by
  refine (getInode_stays ip).bind fun _ => (assert_stays _).bind fun _ => ?_
  refine (lockInode_stays ip).bind fun _ => (getInode_stays ip).bind fun i => .ite (.pure _) ?_
  refine (acquire_triple _).bind fun block => bind (blockData_stays block) fun d => ?_
  refine .bind (setEntry_stays ip _) fun _ => release_triple.bind fun _ => ?_
  exact setInode_stays ip _

theorem inodeUnlock_stays (ip : Nat) : Stays sb d₀ run H (inodeUnlock ip) :=
  (getInode_stays ip).bind fun _ => (assert_stays _).bind fun _ => postInode_stays ip

/-! ## Inodes -/

/-- The console takes the place of a device file. -/
theorem consoleRead_stays (ip n : Nat) : Stays sb d₀ run H (consoleRead (.kernel sb) ip n) := by
  refine (inodeUnlock_stays ip).bind fun _ => .ite (.throw _) ?_
  exact (inodeLock_stays ip).bind fun _ => .pure 0

theorem consoleWrite_stays (ip n : Nat) : Stays sb d₀ run H (consoleWrite (.kernel sb) ip n) :=
  (inodeUnlock_stays ip).bind fun _ => (inodeLock_stays ip).bind fun _ => .pure n

/-- The context is that of the running operation. -/
def Running (run ctx : Option Nat) : Prop := ∃ c, ctx = some c ∧ run = some c

theorem Running.self : Running (some c) (some c) := ⟨c, rfl, rfl⟩

/-- What a text says of the contexts and of the blocks held is all that the invariant asks. -/
theorem Text.triple {x : FsM Cache α} {H' : α → List Nat}
    (h : Text (.kernel sb) (Running run) H x H') :
    Triple (FsAt sb d₀ run H) x (fun a => FsAt sb d₀ run (H' a)) (FsStop sb d₀) := by
  induction h with
  | pure a => exact .pure fun _ h => h
  | throw e => exact .throw fun _ h => h.stop
  | bind _ _ ihx ihf => exact ihx.bind ihf
  | ite _ _ ihx ihy => exact .ite ihx ihy
  | getInode ip => exact getInode_stays ip
  | setInode ip => exact setInode_stays ip _
  | uninit => exact uninit_stays
  | acquire b => exact acquire_triple b
  | release a => exact release_triple
  | blockData a => exact blockData_stays a
  | setBlockData a g => exact onCache_triple (setData_triple List.mem_cons_self g)
  | sync h a =>
    obtain ⟨c, rfl, rfl⟩ := h
    exact onCache_triple (cacheSync_triple List.mem_cons_self)
  | alloc h =>
    obtain ⟨c, rfl, rfl⟩ := h
    exact onCache_triple cacheAlloc_triple
  | free h b =>
    obtain ⟨c, rfl, rfl⟩ := h
    exact onCache_triple (cacheFree_triple b)
  | consoleRead ip n => exact consoleRead_stays ip n
  | consoleWrite ip n => exact consoleWrite_stays ip n

theorem Text.stays {x : FsM Cache α} (h : Text (.kernel sb) (Running run) H x fun _ => H) :
    Stays sb d₀ run H x := h.triple

/-! ## Loading an inode -/

/-- The inode block of `no` is settled and `ip` is the new inode for `no`. -/
def Loading (sb : SuperBlock) (d₀ : Nat → Data) (run : Option Nat) (H : List Nat) (ip no : Nat)
    (s : Fs Cache) : Prop :=
  (s.inodes ip).inodeNo = no ∧ (s.Settled → s.cache.Clean sb → OpInv sb d₀ run H s.cache ∧
    s.cache.contents (usize (sb.toBlockNo no)) = s.cache.disk (usize (sb.toBlockNo no)))

/-- Reading the entry out of the block changes no block. -/
theorem copyEntry_read_triple (P : Cache → Prop) {E : Fs Cache → Prop} (ip block : Nat) :
    Triple (fun s => s.Settled → P s.cache) (copyEntry (.kernel sb) ip block false)
      (fun _ s => s.Settled → P s.cache) E := fun _ h => h

/-- `inode_get` loads the entry with a sync that has no context. -/
theorem inodeLoad_triple (ip no : Nat) :
    Triple (Loading sb d₀ run H ip no) (inodeSync (.kernel sb) none ip false)
      (fun _ => FsAt sb d₀ run H) (FsStop sb d₀) := by
  refine .bind (Q := fun i s => i.inodeNo = no ∧ Loading sb d₀ run H ip no s)
    (fun s h => ⟨h.1, h⟩) fun i => of_and fun hno => ?_
  rw [hno]
  refine .bind (Q := fun _ => Loading sb d₀ run H ip no) ?_ fun _ => ?_
  · exact .ite (fun _ => pure fun _ h => h)
      fun _ => throw fun _ h hs hc => (h.2 hs hc).1.stopped
  · refine .bind ((onCache_triple (cacheAcquire_triple_settled _)).pre fun _ h => h.2) ?_
    intro block
    refine .bind (copyEntry_read_triple (AtSettled sb d₀ run (block :: H) block) ip block) fun _ => ?_
    exact .bind (onCache_triple (cacheSync_triple_null block)) fun _ => release_triple

/-- The only sync without a context is on a block that is already on the device. -/
theorem inodeGet_stays (no : Nat) : Stays sb d₀ run H (inodeGet (.kernel sb) no) := by
  refine (assert_stays _).bind fun _ => (assert_stays _).bind fun _ => get_bind fun s hs => ?_
  split
  next ip _ =>
    refine .pre (P := FsAt sb d₀ run H) ?_ fun s' he => he ▸ hs
    exact (setInode_stays ip _).bind fun _ => .pure ip
  next =>
    refine .bind (Q := fun _ => Loading sb d₀ run H s.inodeBrk no) ?_ fun _ =>
      (inodeLoad_triple _ no).bind fun _ => Stays.pure _
    rintro s rfl
    refine ⟨?_, fun hset hclean => ?_⟩
    · show (Function.update s.inodes s.inodeBrk _ s.inodeBrk).inodeNo = no
      rw [Function.update_self]
    · refine ⟨hs (fun l hl => hset l (List.mem_append_left _ hl)) hclean, ?_⟩
      exact hset _ (List.mem_append_right _ (List.mem_singleton_self _))

theorem initInodes_stays : Stays sb d₀ run H (initInodes (.kernel sb)) := by
  unfold initInodes
  refine .bind (.modify (fun _ => rfl) fun _ => rfl) fun _ => .ite ?_ (.pure none)
  exact (inodeGet_stays _).bind fun root => .pure (some root)

theorem inodeShare_stays (ip : Nat) : Stays sb d₀ run H (inodeShare ip) :=
  (setInode_stays ip _).bind fun _ => .pure ip

/-- A put that frees the inode does so in the operation of its caller. -/
theorem inodePut_stays (ip : Nat) : Stays sb d₀ (some c) H (inodePut (.kernel sb) (some c) ip) := by
  refine (lockInode_stays ip).bind fun _ => (setInode_stays ip _).bind fun _ => ?_
  refine (getInode_stays ip).bind fun i => .ite ?_ (postInode_stays ip)
  refine (setEntry_stays ip _).bind fun _ => (Text.inodeClear .self ip).stays.bind fun _ => ?_
  refine (Text.inodeSync .self ip true).stays.bind fun _ => ?_
  exact .bind (.modify (fun _ => rfl) fun _ => rfl) fun _ => postInode_stays ip

/-! ## Paths -/

theorem unlockPut_stays (ip : Nat) : Stays sb d₀ (some c) H (unlockPut (.kernel sb) (some c) ip) :=
  (inodeUnlock_stays ip).bind fun _ => inodePut_stays ip

/-- Every turn gets an inode, looks up a name and puts an inode back. -/
theorem namexLoop_stays (parent : Bool) (fuel : Nat) :
    ∀ (current : Nat) (cursor : List UInt8) (name : Nat → UInt8),
      Stays sb d₀ (some c) H (namexLoop (.kernel sb) (some c) parent fuel current cursor name) := by
  induction fuel with
  | zero => exact fun _ _ _ => .pure none
  | succ fuel ih =>
    intro current cursor name
    rw [namexLoop]
    split
    · exact .ite ((inodePut_stays current).bind fun _ => .pure none) (.pure _)
    refine (inodeLock_stays current).bind fun _ => (getInode_stays current).bind fun i => ?_
    have hleave : ∀ {β : Type} {x : FsM Cache β}, Stays sb d₀ (some c) H x →
        Stays sb d₀ (some c) H (do
        inodeUnlock current
        inodePut (.kernel sb) (some c) current
        x) := fun hx =>
      (inodeUnlock_stays current).bind fun _ => (inodePut_stays current).bind fun _ => hx
    refine .ite (hleave (.pure none)) (.ite ?_ ?_)
    · exact (inodeUnlock_stays current).bind fun _ => .pure _
    · refine (Text.inodeLookup current _).stays.bind fun found => ?_
      split
      · exact hleave (.pure none)
      · exact hleave ((inodeGet_stays _).bind fun next => ih next _ _)

variable (path : List UInt8)

theorem namex_stays (parent : Bool) (name : Nat → UInt8) :
    Stays sb d₀ (some c) H (namex (.kernel sb) path parent name (some c)) := by
  have hstart : Stays sb d₀ (some c) H (startInode (.kernel sb) path) :=
    .ite (inodeGet_stays _) (.read fun s => inodeShare_stays s.cwd)
  exact hstart.bind fun current => namexLoop_stays parent _ current path name

theorem namei_stays : Stays sb d₀ (some c) H (namei (.kernel sb) path (some c)) :=
  uninit_stays.bind fun name => (namex_stays path false name).bind fun _ => .pure _

/-! ## Operations -/

/-- `create` of a name that is already there. -/
theorem createExisting_stays (type parent no : Nat) :
    Stays sb d₀ (some c) H (createExisting (.kernel sb) (some c) type parent no) := by
  refine (inodeGet_stays no).bind fun existing => (unlockPut_stays parent).bind fun _ => ?_
  refine (inodeLock_stays existing).bind fun _ => (getInode_stays existing).bind fun i => ?_
  exact .ite (.pure _) ((unlockPut_stays existing).bind fun _ => .pure none)

/-- `create` of a new name. -/
theorem createNew_stays (type major minor parent : Nat) (name : Nat → UInt8) :
    Stays sb d₀ (some c) H (createNew (.kernel sb) (some c) type major minor parent name) := by
  refine (Text.inodeAlloc type).stays.bind fun no => .ite ?_ ?_
  · exact (unlockPut_stays parent).bind fun _ => .pure none
  refine (inodeGet_stays no).bind fun ip => (inodeLock_stays ip).bind fun _ => ?_
  refine (setEntry_stays ip _).bind fun _ => (Text.inodeSync .self ip true).stays.bind fun _ => ?_
  refine (Text.createDots .self type parent ip).stays.bind fun _ => (getInode_stays ip).bind fun i => ?_
  refine (Text.inodeInsert .self parent name _).stays.bind fun insertResult => .ite ?_ ?_
  · refine (Text.dropParentLink .self type parent).stays.bind fun _ => ?_
    refine (unlockPut_stays ip).bind fun _ => ?_
    exact (unlockPut_stays parent).bind fun _ => .pure none
  · exact (unlockPut_stays parent).bind fun _ => .pure _

theorem create_stays (type major minor : Nat) :
    Stays sb d₀ (some c) H (create (.kernel sb) path type major minor (some c)) := by
  refine uninit_stays.bind fun name => (namex_stays path true name).bind fun found => ?_
  split
  · exact .pure none
  · refine (inodeLock_stays _).bind fun _ => (Text.inodeLookup _ _).stays.bind fun existing => ?_
    split
    · exact createExisting_stays type _ _
    · exact createNew_stays type major minor _ _

theorem openInode_stays (creat : Bool) :
    Stays sb d₀ (some c) H (openInode (.kernel sb) path creat (some c)) := by
  refine .ite (create_stays path _ _ _) ((namei_stays path).bind fun found => ?_)
  split
  · exact .pure none
  · exact (inodeLock_stays _).bind fun _ => .pure _

/-- `unlinkat`, once the entry is found. -/
theorem unlinkEntry_stays (dp no off : Nat) :
    Stays sb d₀ (some c) H (unlinkEntry (.kernel sb) (some c) dp no off) := by
  refine (inodeGet_stays no).bind fun ip => (inodeLock_stays ip).bind fun _ => ?_
  refine (getInode_stays ip).bind fun i => (assert_stays _).bind fun _ => ?_
  refine (Text.nonemptyDir ip).stays.bind fun nonempty => .ite ?_ ?_
  · refine (unlockPut_stays ip).bind fun _ => (unlockPut_stays dp).bind fun _ => ?_
    exact .pure (-1)
  · refine (Text.inodeWrite .self dp _ off _).stays.bind fun n => (assert_stays _).bind fun _ => ?_
    refine (getInode_stays ip).bind fun i => (Text.dropParentLink .self _ dp).stays.bind fun _ => ?_
    refine (unlockPut_stays dp).bind fun _ => (setEntry_stays ip _).bind fun _ => ?_
    refine (Text.inodeSync .self ip true).stays.bind fun _ => ?_
    exact (unlockPut_stays ip).bind fun _ => .pure 0

/-- A system call between `begin_op` and `end_op`. -/
theorem transaction_stays {body : Option Nat → FsM Cache α}
    (h : Stays sb d₀ (some stackCtx) H (body (some stackCtx))) :
    Stays sb d₀ none H (transaction (.kernel sb) body) := by
  refine bind (onCache_triple (cacheBeginOp_triple)) fun _ => bind h ?_
  intro r
  exact .bind (onCache_triple (cacheEndOp_triple)) fun _ => Stays.pure r

theorem openat_stays (creat opened : Bool) :
    Stays sb d₀ none H (openat (.kernel sb) path creat opened) := by
  refine transaction_stays ((openInode_stays path creat).bind fun found => ?_)
  split
  · exact .pure none
  · exact .ite ((inodeUnlock_stays _).bind fun _ => .pure _)
      ((unlockPut_stays _).bind fun _ => .pure none)

theorem makeNode_stays (type major minor : Nat) :
    Stays sb d₀ none H (makeNode (.kernel sb) path type major minor) := by
  refine transaction_stays ((create_stays path _ _ _).bind fun ip => ?_)
  split
  · exact .pure (-1)
  · exact (unlockPut_stays _).bind fun _ => .pure 0

theorem unlinkat_stays : Stays sb d₀ none H (unlinkat (.kernel sb) path) := by
  refine transaction_stays (uninit_stays.bind fun name => ?_)
  refine (namex_stays path true name).bind fun found => ?_
  split
  · exact .pure (-1)
  refine (inodeLock_stays _).bind fun _ => .ite ?_ ?_
  · exact (unlockPut_stays _).bind fun _ => .pure (-1)
  · refine (Text.inodeLookup _ _).stays.bind fun entry => ?_
    split
    · exact (unlockPut_stays _).bind fun _ => .pure (-1)
    · exact unlinkEntry_stays _ _ _

/-- Each turn of `file_write` is an operation of its own. -/
theorem fileWriteLoop_stays (addr : Nat → UInt8) (n : Int) (fuel : Nat) :
    ∀ (f : InodeFile) (idx : Nat), Stays sb d₀ none H (fileWriteLoop (.kernel sb) addr n fuel f idx) := by
  induction fuel with
  | zero => exact fun f idx => .pure _
  | succ fuel ih =>
    intro f idx
    refine .ite ?_ (.ite (.pure _) (.throw _))
    refine .bind (transaction_stays ?_) fun written => .ite (.pure _) (ih _ _)
    refine (inodeLock_stays f.ip).bind fun _ => ?_
    refine (Text.inodeWrite .self f.ip _ f.off _).stays.bind fun written => ?_
    exact (inodeUnlock_stays f.ip).bind fun _ => .pure written

/-- Every system call on files keeps the invariant, or stops. -/
theorem FsOp.run_stays (op : FsOp) : Stays sb d₀ none H (op.run (.kernel sb)) := by
  cases op with
  | openat path creat opened => exact (openat_stays path creat opened).bind fun _ => .pure _
  | mkdirat path => exact (makeNode_stays path _ _ _).bind fun _ => .pure _
  | mknodat path major minor => exact (makeNode_stays path _ _ _).bind fun _ => .pure _
  | unlinkat path => exact (unlinkat_stays path).bind fun _ => .pure _
  | fileWrite f addr n =>
    exact .bind (.ite (fileWriteLoop_stays addr n _ f 0) (.pure _)) fun _ => .pure _
  | inodeGet no =>
    rw [FsOp.run]
    refine transaction_stays ?_
    exact (inodeGet_stays no).bind fun _ => .pure _
  | inodePut ip =>
    rw [FsOp.run]
    refine transaction_stays ?_
    exact inodePut_stays ip

end

end OsKernel
