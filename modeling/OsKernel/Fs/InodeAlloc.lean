import OsKernel.Lib.Runs
import OsKernel.Fs.CacheOps
import OsKernel.Fs.Inode

/-!
# Allocating inodes

Calls of `inode_alloc` on the block cache of the kernel, with calls of `cache_acquire`,
`cache_release`, `cache_begin_op` and `cache_end_op` for other blocks between them and
between the turns of the loop of `inode_alloc`.

`inode_alloc` marks the inode in the cached inode block and releases the block without
syncing it.  Nothing keeps that block in memory: when enough other blocks are acquired it
is evicted without being written, and the next `inode_alloc` finds the inode free again.
As long as no changed block is evicted the contents of every inode block stay
(`contents_acquired`), and no inode is allocated twice.
-/

namespace OsKernel

open Prog Cache Function List
open Runs (Stop)

/-! ## A turn of the loop -/

/-- A turn of the loop of `inode_alloc`: the inode if it was free. -/
def inodeAllocTurn {κ : Type} (env : FsEnv κ) (type no : Nat) : FsM κ (Option Nat) := do
  let block ← acquire env (env.sb.toBlockNo no)
  let d ← blockData env block
  if (InodeEntry.ofBlock d no).type = INODE_INVALID then
    setBlockData env block fun d => InodeEntry.intoBlock (InodeEntry.setType Bytes.zero type) d no
    release env block
    return some no
  else
    release env block
    return none

/-! ## Runs -/

/-- The block that `cache_acquire(b)` evicts. -/
def BlockList.victim (l : BlockList) (b : Nat) : Option Nat :=
  match l.findCachedBlock b with
  | some _ => none
  | none =>
    if l.numCachedBlocks < EVICTION_THRESHOLD then none
    else l.head.reverse.find? l.evictable

def SuperBlock.inodeBlocks (sb : SuperBlock) : List Nat :=
  (List.range sb.numInodes).map fun no => usize (sb.toBlockNo no)

/-- The file system, the `Block` held for each of the other blocks, the running
contexts, the type and the inode numbers left of the `inode_alloc` that is running, and the
inode numbers that have been returned, newest first. -/
structure AllocRun where
  fs : Fs Cache
  holds : Nat → Option Nat
  running : List Nat
  scan : Option (Nat × List Nat)
  returned : List Nat

inductive AllocCall where
  /-- `inode_alloc` up to its loop. -/
  | alloc (type : Nat)
  /-- The next turn of the loop. -/
  | turn
  | acquire (b : Nat)
  | release (b : Nat)
  | beginOp (c : Nat)
  | endOp (c : Nat)
deriving DecidableEq, Repr

namespace AllocRun

/-- Go on with the result of a call that returned. -/
def after {α : Type} (r : Except Halt α × Fs Cache) (f : α → Fs Cache → AllocRun) :
    Except Stop AllocRun :=
  match r with
  | (.ok a, s) => .ok (f a s)
  | (.error _, _) => .error .panic

def step (sb : SuperBlock) (st : AllocRun) : AllocCall → Except Stop AllocRun
  | .alloc type =>
    if st.scan = none ∧ type < 2 ^ 16 then
      if type = INODE_INVALID then .error .panic
      else .ok { st with scan := some (type, (List.range (sb.numInodes - 1)).map (· + 1)) }
    else .error .disabled
  | .turn =>
    match st.scan with
    | none => .error .disabled
    | some (_, []) => .error .panic
    | some (type, no :: rest) =>
      after ((inodeAllocTurn (.kernel sb) type no).exec st.fs) fun r s =>
        match r with
        | some no => { st with fs := s, scan := none, returned := no :: st.returned }
        | none => { st with fs := s, scan := some (type, rest) }
  | .acquire b =>
    if st.holds b = none ∧ b < 2 ^ 64 ∧ b ∉ sb.inodeBlocks then
      after ((onCache (cacheAcquire b)).exec st.fs) fun a s =>
        { st with fs := s, holds := update st.holds b (some a) }
    else .error .disabled
  | .release b =>
    match st.holds b with
    | some a =>
      after ((onCache (cacheRelease a)).exec st.fs) fun _ s =>
        { st with fs := s, holds := update st.holds b none }
    | none => .error .disabled
  | .beginOp c =>
    if c ∈ st.running then .error .disabled
    else
      after ((onCache (cacheBeginOp c)).exec st.fs) fun _ s =>
        { st with fs := s, running := c :: st.running }
  | .endOp c =>
    if c ∈ st.running then
      after ((onCache (cacheEndOp sb)).exec st.fs) fun _ s =>
        { st with fs := s, running := st.running.erase c }
    else .error .disabled

/-- A run starts after `init_bcache` on a device with an empty log. -/
def Init (sb : SuperBlock) (st : AllocRun) : Prop :=
  (∃ d, (LogHeader.ofData (d sb.logStart)).numBlocks = 0 ∧ st.fs.cache = rebooted sb (powerOn d)) ∧
  st.holds = (fun _ => none) ∧ st.scan = none ∧ st.returned = []

def acquires (sb : SuperBlock) (st : AllocRun) : AllocCall → Option Nat
  | .acquire b => some b
  | .turn =>
    match st.scan with
    | some (_, no :: _) => some (usize (sb.toBlockNo no))
    | _ => none
  | _ => none

/-- The call evicts no block that differs from the device. -/
def EvictsClean (sb : SuperBlock) (st : AllocRun) (call : AllocCall) : Prop :=
  ∀ b ∈ acquires sb st call, ∀ a ∈ st.fs.cache.victim b,
    (st.fs.cache.heap a).data = st.fs.cache.disk (st.fs.cache.heap a).blockNo

instance (sb : SuperBlock) (st : AllocRun) (call : AllocCall) : Decidable (EvictsClean sb st call) :=
  inferInstanceAs (Decidable (∀ b ∈ acquires sb st call, ∀ a ∈ st.fs.cache.victim b, _))

end AllocRun

/-! ## Contents -/

theorem head_acquireSleeplock (a : Nat) (s : Cache) :
    ((acquireSleeplock a).exec s).2.head = s.head := by
  unfold acquireSleeplock
  rw [exec_bind_ok (exec_get s)]
  split <;> rfl

theorem head_cacheAcquire {s s' : Cache} {b a : Nat}
    (hexec : (cacheAcquire b).exec s = (.ok a, s')) :
    s'.head =
      match s.findCachedBlock b with
      | some e => e :: s.head.erase e
      | none => s.brk :: s.toBlockList.makeRoom.head := by
  unfold cacheAcquire at hexec
  rw [exec_bind_ok (exec_get s)] at hexec
  cases hf : s.findCachedBlock b with
  | some e =>
    rw [hf, exec_bind_ok (exec_set _ _), exec_bind] at hexec
    have hhead := head_acquireSleeplock e { s with toBlockList := s.toBlockList.hit e }
    split at hexec
    next u s1 he =>
      rw [he] at hhead
      rw [exec_bind_ok (exec_get _)] at hexec
      split at hexec
      · rw [exec_bind_ok (exec_readBlock _ _), exec_pure] at hexec
        cases hexec
        exact hhead
      · cases hexec
        exact hhead
    next => cases hexec
  | none =>
    rw [hf, exec_bind_ok (exec_set _ _), exec_bind] at hexec
    have hhead := head_acquireSleeplock s.brk
      { s with toBlockList := s.toBlockList.insertNew s.brk b, brk := s.brk + 1 }
    split at hexec
    next u s1 he =>
      rw [he] at hhead
      rw [exec_bind_ok (exec_readBlock _ _), exec_pure] at hexec
      cases hexec
      exact hhead
    next => cases hexec

namespace Cache

variable {s s' : Cache} {pins : List Nat} {a b : Nat}

theorem mem_of_not_victim (hexec : (cacheAcquire b).exec s = (.ok a, s')) {e : Nat}
    (he : e ∈ s.head) (hv : s.victim b ≠ some e) : e ∈ s'.head := by
  have hhead := head_cacheAcquire hexec
  rw [BlockList.victim] at hv
  split at hhead
  next e' hf =>
    rw [hhead]
    exact (perm_cons_erase (BlockList.mem_of_find hf).1).mem_iff.mp he
  next hf =>
    rw [hf] at hv
    rw [hhead]
    refine mem_cons_of_mem _ ?_
    unfold BlockList.makeRoom BlockList.evictBlock
    by_cases hroom : EVICTION_THRESHOLD ≤ s.numCachedBlocks
    · have hlt := Nat.not_lt.mpr hroom
      rw [if_neg hlt] at hv
      rw [if_pos hroom, if_neg hlt]
      split
      next => exact he
      next e' hfind =>
        rw [hfind] at hv
        exact (mem_erase_of_ne fun h => hv (congrArg some h.symm)).mpr he
    · rw [if_neg hroom]
      exact he

theorem contents_acquired (h : s.WF pins) (hacq : Acquired s pins b a s')
    (hexec : (cacheAcquire b).exec s = (.ok a, s'))
    (hv : ∀ e ∈ s.victim b, (s.heap e).data = s.disk (s.heap e).blockNo) (x : Nat) :
    s'.contents x = s.contents x := by
  by_cases hst : s.Stable x
  · exact (hacq.keeps h hst).contents
  -- a block that is not stable is in memory and is not the victim
  simp only [Stable, not_forall, not_or] at hst
  obtain ⟨e, he, rfl, -, -, hdirty⟩ := hst
  have hmem : e ∈ s'.head := mem_of_not_victim hexec he fun hve => hdirty (hv e hve)
  obtain rfl | hea := eq_or_ne e a
  · have hb := hacq.hit he
    rw [hb, ← hacq.data, ← contents_of_mem hacq.wf hacq.held.1, hacq.no]
  · have hsame := (hacq.old e hmem hea).2
    rw [contents_of_mem h he, ← hsame, contents_of_mem hacq.wf hmem]

end Cache

/-- The cache after `do_checkpoint` or `cache_end_op` with an empty log. -/
structure Unlogged (sb : SuperBlock) (s s' : Cache) : Prop where
  list : s'.toBlockList = s.toBlockList
  brk : s'.brk = s.brk
  header : s'.header.numBlocks = 0
  disk : ∀ x ≠ sb.logStart, s'.disk x = s.disk x

theorem postAllOps_ok {s s' : Cache} (hexec : postAllOps.exec s = (.ok (), s')) :
    ∃ log, s' = { s with log := log } := by
  unfold postAllOps at hexec
  rw [exec_bind_ok (exec_get s)] at hexec
  split at hexec <;> cases hexec
  exact ⟨_, rfl⟩

theorem doCheckpoint_empty {sb : SuperBlock} {s s' : Cache} (h0 : s.header.numBlocks = 0)
    (hexec : (doCheckpoint sb).exec s = (.ok (), s')) : Unlogged sb s s' := by
  have hloop : ∀ (f : Nat → CacheM Unit) (t : Cache),
      ((List.range 0).forM f).exec t = (.ok (), t) := fun _ _ => rfl
  unfold doCheckpoint at hexec
  rw [exec_bind_ok (exec_modify _ _), exec_bind_ok (exec_get _)] at hexec
  rw [h0, exec_bind_ok (hloop _ _), writeHeader, exec_bind_ok (exec_modify _ _),
    exec_bind_ok (exec_get _)] at hexec
  dsimp only [deviceWrite] at hexec
  rw [h0, exec_bind_ok (hloop _ _), exec_bind_ok (exec_modify _ _),
    exec_bind_ok (exec_modify _ _), exec_bind_ok (exec_modify _ _)] at hexec
  obtain ⟨log, rfl⟩ := postAllOps_ok hexec
  refine ⟨rfl, rfl, rfl, fun x hx => ?_⟩
  simp only [update_of_ne hx]

theorem cacheEndOp_empty {sb : SuperBlock} {s s' : Cache} (h0 : s.header.numBlocks = 0)
    (hexec : (cacheEndOp sb).exec s = (.ok (), s')) : Unlogged sb s s' := by
  unfold cacheEndOp at hexec
  rw [exec_bind_ok (exec_get s)] at hexec
  dsimp only at hexec
  split at hexec
  · cases hexec
  rw [exec_bind_ok (exec_set _ _)] at hexec
  split at hexec
  · obtain ⟨hl, hb, hh, hd⟩ := doCheckpoint_empty (s := lastEnded s) h0 hexec
    exact ⟨hl, hb, hh, hd⟩
  · split at hexec <;> cases hexec
    exact ⟨rfl, rfl, h0, fun _ _ => rfl⟩

theorem Unlogged.contents {sb : SuperBlock} {s s' : Cache} (h : Unlogged sb s s') {x : Nat}
    (hx : x ≠ sb.logStart) : s'.contents x = s.contents x := by
  rw [Cache.contents, Cache.contents, h.list, h.disk x hx]

/-! ## What a turn does -/

/-- The cache has changed, but the blocks held before are still held. -/
structure Continues (s s' : Cache) : Prop where
  wf : s'.WF []
  header : s'.header = s.header
  held : ∀ a, s.Held a → s'.Held a ∧ s'.heap a = s.heap a

theorem Continues.released {s s1 s2 : Cache} {b a : Nat} (hacq : Acquired s [] b a s1)
    (hs2 : s2 = s1 ∨ ∃ d, s2 = s1.setData a d) : Continues s (s2.released a) := by
  have hwf : s2.WF [] := by
    obtain rfl | ⟨d, rfl⟩ := hs2
    · exact hacq.wf
    · exact hacq.wf.setData hacq.held.1 d
  have hhead : s2.head = s1.head := by
    obtain rfl | ⟨d, rfl⟩ := hs2 <;> rfl
  have hheader : s2.header = s1.header := by
    obtain rfl | ⟨d, rfl⟩ := hs2 <;> rfl
  refine ⟨hwf.release (hhead ▸ hacq.held.1), hheader.trans hacq.rest.header, fun a' ha' => ?_⟩
  have hne : a' ≠ a := by
    rintro rfl
    exact hacq.new ha'
  have hsame : s2.heap a' = s1.heap a' := by
    obtain rfl | ⟨d, rfl⟩ := hs2
    · rfl
    · exact heap_setData_of_ne s1 d hne
  have hheld : s2.Held a' := by
    have := hacq.held_iff.mpr (.inr ha')
    rwa [Held, hhead, hsame]
  refine ⟨held_released.mpr ⟨hne, hheld⟩, ?_⟩
  rw [heap_released_of_ne s2 hne, hsame, hacq.heap_of_held ha']

def marked (type no : Nat) (d : Data) : Data :=
  InodeEntry.intoBlock (InodeEntry.setType Bytes.zero type) d no

theorem inodeAllocTurn_ok {sb : SuperBlock} {type no : Nat} {s s' : Fs Cache} {r : Option Nat}
    (h : s.cache.WF [])
    (hv : ∀ e ∈ s.cache.victim (usize (sb.toBlockNo no)),
      (s.cache.heap e).data = s.cache.disk (s.cache.heap e).blockNo)
    (hexec : (inodeAllocTurn (.kernel sb) type no).exec s = (.ok r, s')) :
    Continues s.cache s'.cache ∧
      ((r = none ∧ ∀ x, s'.cache.contents x = s.cache.contents x) ∨ (r = some no ∧
          (InodeEntry.ofBlock (s.cache.contents (usize (sb.toBlockNo no))) no).type =
            INODE_INVALID ∧
          ∀ x, s'.cache.contents x =
            if x = usize (sb.toBlockNo no) then
              marked type no (s.cache.contents (usize (sb.toBlockNo no)))
            else s.cache.contents x)) := by
  unfold inodeAllocTurn at hexec
  rw [FsEnv.sb_kernel, acquire_kernel] at hexec
  by_cases hfree : s.cache.Free (usize (sb.toBlockNo no))
  · obtain ⟨a, s1, hexec1, hacq⟩ := cacheAcquire_free h hfree
    have hcont := contents_acquired h hacq hexec1 hv
    have hdata : (blockData (.kernel sb) a).exec { s with cache := s1 } =
        (.ok (s.cache.contents (usize (sb.toBlockNo no))), { s with cache := s1 }) := by
      rw [← hacq.data]
      rfl
    rw [exec_bind_ok (exec_onCache hexec1), exec_bind_ok hdata] at hexec
    split at hexec
    next htype =>
      have hset := exec_withBlock a (fun blk => { blk with data := marked type no blk.data }) s1
      have hheld : (s1.setData a (marked type no (s1.heap a).data)).Held a :=
        held_setData.mpr hacq.held
      have hrel := exec_cacheRelease (hacq.wf.setData hacq.held.1 _) hheld
      rw [setBlockData_kernel, exec_bind_ok (exec_onCache hset), release_kernel,
        exec_bind_ok (exec_onCache hrel), exec_pure] at hexec
      cases hexec
      refine ⟨.released hacq (.inr ⟨_, rfl⟩), .inr ⟨rfl, htype, fun x => ?_⟩⟩
      have hout : ((s1.setData a (marked type no (s1.heap a).data)).released a).contents x =
          (s1.setData a (marked type no (s1.heap a).data)).contents x :=
        contents_onBlock (hacq.wf.setData hacq.held.1 _) hacq.held.1 rfl rfl x
      rw [hout, ← hacq.no, ← hcont x]
      by_cases hx : x = (s1.heap a).blockNo
      · rw [if_pos hx, hx, ← hcont (s1.heap a).blockNo, contents_of_mem hacq.wf hacq.held.1]
        exact contents_onBlock_self hacq.wf hacq.held.1 rfl
      · rw [if_neg hx]
        exact contents_onBlock_of_ne rfl hx
    next =>
      rw [release_kernel, exec_bind_ok (exec_onCache (exec_cacheRelease hacq.wf hacq.held)),
        exec_pure] at hexec
      cases hexec
      refine ⟨.released hacq (.inl rfl), .inl ⟨rfl, fun x => ?_⟩⟩
      rw [← hcont x]
      exact contents_onBlock hacq.wf hacq.held.1 rfl rfl x
  · obtain ⟨s1, hexec1, -⟩ := cacheAcquire_held h hfree
    rw [exec_bind_error (exec_onCache hexec1)] at hexec
    cases hexec

/-! ## The invariant -/

/-- The inode blocks have numbers of type `usize` and lie outside the log header. -/
structure SuperBlock.InodesApart (sb : SuperBlock) : Prop where
  bound : ∀ no < sb.numInodes, sb.toBlockNo no < 2 ^ 64
  header : ∀ no < sb.numInodes, sb.toBlockNo no ≠ sb.logStart

namespace AllocRun

/-- The entry of an inode as the cache shows it. -/
def entryOf (sb : SuperBlock) (s : Cache) (no : Nat) : InodeEntry :=
  .ofBlock (s.contents (usize (sb.toBlockNo no))) no

structure Inv (sb : SuperBlock) (st : AllocRun) : Prop where
  wf : st.fs.cache.WF []
  header : st.fs.cache.header.numBlocks = 0
  held : ∀ b a, st.holds b = some a → st.fs.cache.Held a ∧ (st.fs.cache.heap a).blockNo = b
  scan : ∀ type nos, st.scan = some (type, nos) →
    type % 2 ^ 16 ≠ 0 ∧ ∀ no ∈ nos, no < sb.numInodes
  marks : ∀ no ∈ st.returned,
    no < sb.numInodes ∧ (entryOf sb st.fs.cache no).type ≠ INODE_INVALID
  nodup : st.returned.Nodup

variable {sb : SuperBlock} {st st' : AllocRun}

theorem Inv.init (h : Init sb st) : st.Inv sb := by
  obtain ⟨⟨d, h0, hc⟩, hh, hs, hr⟩ := h
  have h0' : st.fs.cache.header.numBlocks = 0 := by
    rw [hc]
    exact h0
  refine ⟨?_, h0', fun b a hb => ?_, fun _ _ hsc => ?_, fun no hno => ?_, ?_⟩
  · rw [hc]
    exact BlockList.WF.nil _ _
  · simp [hh] at hb
  · simp [hs] at hsc
  · simp [hr] at hno
  · simp [hr]

theorem after_eq_ok {α : Type} {r : Except Halt α × Fs Cache} {f : α → Fs Cache → AllocRun}
    (h : after r f = .ok st) : ∃ a s, r = (.ok a, s) ∧ st = f a s := by
  unfold after at h
  split at h
  next a s => exact ⟨a, s, rfl, by cases h; rfl⟩
  next => cases h

theorem mod_ne_of_ne (hsb : sb.InodesApart) {no no' : Nat} (h : no < sb.numInodes)
    (h' : no' < sb.numInodes) (hne : no' ≠ no)
    (hb : usize (sb.toBlockNo no') = usize (sb.toBlockNo no)) :
    no' % INODE_PER_BLOCK ≠ no % INODE_PER_BLOCK := by
  rw [usize, usize, Nat.mod_eq_of_lt (hsb.bound no h), Nat.mod_eq_of_lt (hsb.bound no' h')] at hb
  simp only [SuperBlock.toBlockNo, INODE_PER_BLOCK, INODE_ENTRY_BYTES, BLOCK_SIZE] at hb ⊢
  omega

theorem entryOf_marked (hsb : sb.InodesApart) {s s' : Cache} {type no no' : Nat}
    (hc : ∀ x, s'.contents x = if x = usize (sb.toBlockNo no) then
      marked type no (s.contents (usize (sb.toBlockNo no))) else s.contents x)
    (h : no < sb.numInodes) (h' : no' < sb.numInodes) (hne : no' ≠ no) :
    entryOf sb s' no' = entryOf sb s no' := by
  rw [entryOf, entryOf, hc]
  split
  next hb =>
    rw [marked, hb]
    exact InodeEntry.ofBlock_intoBlock_of_ne _ _ (mod_ne_of_ne hsb h h' hne hb)
  next => rfl

theorem Inv.turn (hsb : sb.InodesApart) (h : st.Inv sb) (hok : EvictsClean sb st .turn)
    (hs : st.step sb .turn = .ok st') : st'.Inv sb := by
  simp only [step] at hs
  split at hs
  · cases hs
  · cases hs
  next type no rest hscan =>
    obtain ⟨r, s, hexec, rfl⟩ := after_eq_ok hs
    have hv : ∀ e ∈ st.fs.cache.victim (usize (sb.toBlockNo no)),
        (st.fs.cache.heap e).data = st.fs.cache.disk (st.fs.cache.heap e).blockNo :=
      hok _ (by simp [acquires, hscan])
    obtain ⟨htype, hnos⟩ := h.scan type _ hscan
    have hno := hnos no mem_cons_self
    obtain ⟨hcont, ⟨rfl, hc⟩ | ⟨rfl, hfree, hc⟩⟩ := inodeAllocTurn_ok h.wf hv hexec
    · refine ⟨hcont.wf, hcont.header ▸ h.header, fun b a hb => ?_, fun ty nos he => ?_,
        fun no' hno' => ?_, h.nodup⟩
      · obtain ⟨hheld, hbno⟩ := h.held b a hb
        exact ⟨(hcont.held a hheld).1, (hcont.held a hheld).2 ▸ hbno⟩
      · cases he
        exact ⟨htype, fun no' hno' => hnos no' (mem_cons_of_mem _ hno')⟩
      · have := h.marks no' hno'
        rwa [entryOf, ← hc] at this
    · have hnew : no ∉ st.returned := fun hm => (h.marks no hm).2 hfree
      refine ⟨hcont.wf, hcont.header ▸ h.header, fun b a hb => ?_, nofun, fun no' hno' => ?_,
        nodup_cons.mpr ⟨hnew, h.nodup⟩⟩
      · obtain ⟨hheld, hbno⟩ := h.held b a hb
        exact ⟨(hcont.held a hheld).1, (hcont.held a hheld).2 ▸ hbno⟩
      rcases mem_cons.mp hno' with rfl | hno'
      · refine ⟨hno, ?_⟩
        rw [entryOf, hc, if_pos rfl, marked, InodeEntry.ofBlock_intoBlock,
          InodeEntry.type_setType]
        exact htype
      · have hm := h.marks no' hno'
        have hne : no' ≠ no := fun e => hnew (e ▸ hno')
        exact ⟨hm.1, by rw [entryOf_marked hsb hc hno hm.1 hne]; exact hm.2⟩

theorem Inv.traffic (h : st.Inv sb) {fs : Fs Cache} {holds : Nat → Option Nat} {running : List Nat}
    (hwf : fs.cache.WF []) (hheader : fs.cache.header.numBlocks = 0)
    (hheld : ∀ b a, holds b = some a → fs.cache.Held a ∧ (fs.cache.heap a).blockNo = b)
    (hc : ∀ no < sb.numInodes, fs.cache.contents (usize (sb.toBlockNo no)) =
        st.fs.cache.contents (usize (sb.toBlockNo no))) :
    Inv sb { st with fs := fs, holds := holds, running := running } := by
  refine ⟨hwf, hheader, hheld, h.scan, fun no hno => ?_, h.nodup⟩
  obtain ⟨hlt, hmark⟩ := h.marks no hno
  refine ⟨hlt, ?_⟩
  rw [entryOf, hc no hlt]
  exact hmark

theorem Inv.acquire (h : st.Inv sb) {b : Nat} (hok : EvictsClean sb st (.acquire b))
    (hs : st.step sb (.acquire b) = .ok st') : st'.Inv sb := by
  obtain ⟨-, hs⟩ := Runs.guard_ok hs
  obtain ⟨a, fs, hexec, rfl⟩ := after_eq_ok hs
  have hexec := exec_onCache_ok hexec
  by_cases hfree : st.fs.cache.Free b
  · obtain ⟨a', s', hexec', hacq⟩ := cacheAcquire_free h.wf hfree
    obtain ⟨rfl, rfl⟩ : a = a' ∧ fs.cache = s' := by
      rw [hexec] at hexec'
      cases hexec'
      exact ⟨rfl, rfl⟩
    have hcont := contents_acquired h.wf hacq hexec (hok b rfl)
    refine h.traffic hacq.wf (hacq.rest.header ▸ h.header) (fun b' a' hb' => ?_)
      fun no _ => hcont _
    obtain rfl | he := eq_or_ne b' b
    · rw [update_self] at hb'
      cases hb'
      exact ⟨hacq.held, hacq.no⟩
    · rw [update_of_ne he] at hb'
      obtain ⟨hheld, hno⟩ := h.held b' a' hb'
      exact ⟨hacq.held_iff.mpr (.inr hheld), by rw [hacq.heap_of_held hheld, hno]⟩
  · obtain ⟨s', hexec', -⟩ := cacheAcquire_held h.wf hfree
    rw [hexec] at hexec'
    cases hexec'

theorem Inv.release (h : st.Inv sb) {b : Nat} (hs : st.step sb (.release b) = .ok st') :
    st'.Inv sb := by
  simp only [AllocRun.step] at hs
  split at hs
  next a hb =>
    obtain ⟨hheld, hno⟩ := h.held b a hb
    obtain ⟨_, fs, hexec, rfl⟩ := after_eq_ok hs
    have hexec := exec_onCache_ok hexec
    have hcache : st.fs.cache.released a = fs.cache := by
      rw [exec_cacheRelease h.wf hheld] at hexec
      exact congrArg Prod.snd hexec
    refine h.traffic (hcache ▸ h.wf.release hheld.1) (hcache ▸ h.header) (fun b' a' hb' => ?_)
      fun no _ => hcache ▸ contents_onBlock h.wf hheld.1 rfl rfl _
    obtain rfl | he := eq_or_ne b' b
    · rw [update_self] at hb'
      cases hb'
    rw [update_of_ne he] at hb'
    obtain ⟨hheld', hno'⟩ := h.held b' a' hb'
    have hne : a' ≠ a := by
      rintro rfl
      exact he (hno'.symm.trans hno)
    rw [← hcache]
    exact ⟨held_released.mpr ⟨hne, hheld'⟩, by rw [heap_released_of_ne _ hne, hno']⟩
  next => cases hs

theorem Inv.unlogged (hsb : sb.InodesApart) (h : st.Inv sb) {fs : Fs Cache} {running : List Nat}
    (hu : Unlogged sb st.fs.cache fs.cache) :
    Inv sb { st with fs := fs, running := running } := by
  refine h.traffic ?_ hu.header (fun b a hb => ?_) fun no hno => hu.contents ?_
  · have hwf := h.wf
    rw [Cache.WF] at hwf ⊢
    rw [hu.list, hu.brk]
    exact hwf
  · obtain ⟨hheld, hno⟩ := h.held b a hb
    rw [Held] at hheld ⊢
    rw [hu.list]
    exact ⟨hheld, hno⟩
  · rw [usize, Nat.mod_eq_of_lt (hsb.bound no hno)]
    exact hsb.header no hno

theorem Inv.step (hsb : sb.InodesApart) {call : AllocCall} (h : st.Inv sb)
    (hok : EvictsClean sb st call) (hs : st.step sb call = .ok st') : st'.Inv sb := by
  cases call with
  | turn => exact h.turn hsb hok hs
  | acquire b => exact h.acquire hok hs
  | release b => exact h.release hs
  | alloc type =>
    obtain ⟨hc, hs⟩ := Runs.guard_ok hs
    split at hs <;> cases hs
    next htype =>
      refine { h with scan := fun ty nos he => ?_ }
      cases he
      refine ⟨by rwa [Nat.mod_eq_of_lt hc.2], fun no hno => ?_⟩
      obtain ⟨k, hk, rfl⟩ := mem_map.mp hno
      have := mem_range.mp hk
      omega
  | beginOp c =>
    simp only [AllocRun.step] at hs
    split at hs
    next => cases hs
    next =>
      obtain ⟨_, fs, hexec, rfl⟩ := after_eq_ok hs
      obtain ⟨-, hfs⟩ := cacheBeginOp_ok (exec_onCache_ok hexec)
      refine h.unlogged hsb ⟨?_, ?_, ?_, fun _ _ => ?_⟩ <;> rw [hfs]
      exact h.header
  | endOp c =>
    obtain ⟨-, hs⟩ := Runs.guard_ok hs
    obtain ⟨_, fs, hexec, rfl⟩ := after_eq_ok hs
    exact h.unlogged hsb (cacheEndOp_empty h.header (exec_onCache_ok hexec))

/-! ## Exclusive allocation -/

/-- If no changed block is evicted, no inode number is returned twice. -/
theorem inode_alloc_exclusive (hsb : sb.InodesApart)
    (h : Runs.Reach (AllocRun.step sb) (EvictsClean sb) (Init sb) st) : st.returned.Nodup :=
  (h.invariant (I := Inv sb) (fun _ => Inv.init) fun _ _ _ hinv => hinv.step hsb).nodup

/-- The state after `init_bcache` on the zero device. -/
def booted : AllocRun where
  fs := {
    cache := rebooted Mkfs.superBlock (powerOn fun _ => Bytes.zero)
    inodes := fun _ => initInode
    inodeHead := []
    inodeBrk := 0
    cwd := 0
    junk := fun _ _ => 0
    loads := [] }
  holds := fun _ => none
  running := []
  scan := none
  returned := []

theorem booted_init : Init Mkfs.superBlock booted :=
  ⟨⟨fun _ => Bytes.zero, LogHeader.numBlocks_ofData_zero, rfl⟩, rfl, rfl, rfl⟩

theorem inodesApart_mkfs : Mkfs.superBlock.InodesApart := by
  constructor <;> intro no hno <;>
    simp only [SuperBlock.toBlockNo, Mkfs.superBlock, Mkfs.NINODES, Mkfs.numLogBlocks, LOG_MAX_SIZE,
      USIZE_BYTES, INODE_PER_BLOCK, INODE_ENTRY_BYTES, BLOCK_SIZE] at hno ⊢ <;>
    omega

/-- Two calls, with an operation on another block between them. -/
theorem inode_alloc_exclusive_two_calls :
    ∃ st, Runs.Reach (AllocRun.step Mkfs.superBlock) (EvictsClean Mkfs.superBlock)
      (Init Mkfs.superBlock) st ∧ st.returned = [2, 1] ∧ st.returned.Nodup := by
  obtain ⟨st, hs, hr⟩ := Runs.Reach.of_execTest booted_init
    (show Runs.execTest (Runs.guarded (AllocRun.step Mkfs.superBlock)
        (fun st call => EvictsClean Mkfs.superBlock st call) .disabled) booted
      [.beginOp 0, .alloc 1, .turn, .acquire 100, .release 100, .alloc 2, .turn, .turn, .endOp 0]
      (fun st => st.returned = [2, 1]) = true by decide +kernel)
  have hreach : Runs.Reach (AllocRun.step Mkfs.superBlock) (EvictsClean Mkfs.superBlock)
      (Init Mkfs.superBlock) st :=
    Runs.Reach.of_guarded (J := fun _ => True) (fun _ _ => trivial) (fun _ _ _ => of_decide_eq_true) hs
  exact ⟨st, hreach, of_decide_eq_true hr, inode_alloc_exclusive inodesApart_mkfs hreach⟩

/-- Acquiring and releasing twenty other blocks. -/
def twentyBlocks : List AllocCall :=
  (List.range 20).flatMap fun k => [.acquire (100 + k), .release (100 + k)]

/-- The first call returns inode 1; twenty misses evict the inode block with its
mark; the second call returns inode 1 again. -/
theorem inode_alloc_twice_after_eviction :
    ∃ st, Runs.Reach (AllocRun.step Mkfs.superBlock) Runs.always (Init Mkfs.superBlock) st ∧
      st.returned = [1, 1] := by
  obtain ⟨st, hs, hr⟩ := Runs.Reach.of_execTest booted_init
    (show Runs.execTest (AllocRun.step Mkfs.superBlock) booted
      ([.alloc 1, .turn] ++ twentyBlocks ++ [.alloc 1, .turn])
      (fun st => st.returned = [1, 1]) = true by decide +kernel)
  exact ⟨st, hs, of_decide_eq_true hr⟩

end AllocRun

end OsKernel
