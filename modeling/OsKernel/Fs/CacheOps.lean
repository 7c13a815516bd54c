import OsKernel.Fs.Cache

/-!
# What each call of the cache does

A well-formed cache has at most one `Block` for a block number, the lock of each
is free exactly when it is not acquired, and the pinned ones are those with a
number in `pins`.  Outside a checkpoint `pins` are the logged blocks.  For each
call there is one lemma with its result on a well-formed cache; the callers use
these and never unfold the calls.
-/

namespace OsKernel

open Prog Function BlockList

variable {a' : Nat} {s s' : Cache} {pins : List Nat} {a b x : Nat}

namespace Cache

variable (s : Cache)

def WF (pins : List Nat) : Prop := s.toBlockList.WF s.brk pins

/-- The caller holds the `Block` at address `a`. -/
def Held (a : Nat) : Prop := a ∈ s.head ∧ (s.heap a).acquired = true

/-- The caller does not hold block `b`. -/
def Free (b : Nat) : Prop := ∀ a, s.Held a → (s.heap a).blockNo ≠ b

variable {a : Nat}

theorem Free.acquired {s : Cache} (h : s.Free b) (ha : a ∈ s.head)
    (hno : (s.heap a).blockNo = b) : (s.heap a).acquired = false :=
  Bool.eq_false_iff.mpr fun hacq => h a ⟨ha, hacq⟩ hno

/-- Block `b` has a `Block` in memory. -/
def Cached (b : Nat) : Prop := ∃ a ∈ s.head, (s.heap a).blockNo = b

/-- Apart from the list of blocks nothing has changed. -/
structure OnlyList (s s' : Cache) : Prop where
  header : s'.header = s.header
  log : s'.log = s.log
  ctxs : s'.ctxs = s.ctxs
  disk : s'.disk = s.disk
  writes : s'.writes = s.writes
  commits : s'.commits = s.commits
  syncs : s'.syncs = s.syncs

theorem OnlyList.refl : OnlyList s s := ⟨rfl, rfl, rfl, rfl, rfl, rfl, rfl⟩

theorem OnlyList.trans {s s'' : Cache} (h : OnlyList s s') (h' : OnlyList s' s'') :
    OnlyList s s'' :=
  ⟨h'.header.trans h.header, h'.log.trans h.log, h'.ctxs.trans h.ctxs, h'.disk.trans h.disk,
    h'.writes.trans h.writes, h'.commits.trans h.commits, h'.syncs.trans h.syncs⟩

theorem onlyList_onBlock (a : Nat) (f : Block → Block) : OnlyList s (s.onBlock a f) :=
  ⟨rfl, rfl, rfl, rfl, rfl, rfl, rfl⟩

@[simp] theorem heap_onBlock_self (a : Nat) (f : Block → Block) :
    (s.onBlock a f).heap a = f (s.heap a) := heap_update_self _ _ _

theorem heap_onBlock_of_ne (f : Block → Block) (h : a' ≠ a) :
    (s.onBlock a f).heap a' = s.heap a' := heap_update_of_ne _ _ h

theorem onBlock_onBlock (a : Nat) (f g : Block → Block) :
    (s.onBlock a f).onBlock a g = s.onBlock a fun blk => g (f blk) := by
  simp only [onBlock, update_update]

/-- What `cache_sync(NULL, block)` does. -/
def syncNull (a : Nat) : Cache := s.deviceWrite (s.heap a).blockNo (s.heap a).data

/-- What `cache_release` does. -/
def released (a : Nat) : Cache :=
  s.onBlock a fun blk => { blk with acquired := false, lock := ⟨1, []⟩ }

/-- `blk->pinned = 1`. -/
def pin (a : Nat) : Cache := s.onBlock a fun blk => { blk with pinned := true }

def setData (a : Nat) (d : Data) : Cache :=
  s.onBlock a fun blk => { blk with data := d }

theorem heap_setData_self (a : Nat) (d : Data) :
    (s.setData a d).heap a = { s.heap a with data := d } := heap_onBlock_self s a _

theorem heap_setData_of_ne (d : Data) (h : a' ≠ a) :
    (s.setData a d).heap a' = s.heap a' := heap_onBlock_of_ne s _ h

@[simp] theorem heap_syncNull (a : Nat) : (s.syncNull a).heap = s.heap := rfl

theorem heap_released_of_ne (h : a' ≠ a) :
    (s.released a).heap a' = s.heap a' := heap_onBlock_of_ne s _ h

section

variable {s : Cache} {pins : List Nat}

theorem contents_of_mem (h : s.WF pins) (ha : a ∈ s.head) :
    s.contents (s.heap a).blockNo = (s.heap a).data := by
  rw [contents, BlockList.WF.find_of_mem h ha]

theorem cached_onBlock {f : Block → Block}
    (hno : (f (s.heap a)).blockNo = (s.heap a).blockNo) (hx : (s.onBlock a f).Cached x) :
    s.Cached x := by
  obtain ⟨a', ha', hno'⟩ := hx
  refine ⟨a', ha', ?_⟩
  obtain rfl | he := eq_or_ne a' a
  · rwa [heap_onBlock_self, hno] at hno'
  · rwa [heap_onBlock_of_ne s f he] at hno'

theorem cached_released (hx : (s.released a).Cached x) : s.Cached x :=
  cached_onBlock rfl hx

theorem cached_setData {d : Data} (hx : (s.setData a d).Cached x) : s.Cached x :=
  cached_onBlock rfl hx

theorem contents_of_not_cached (hb : ∀ a ∈ s.head, (s.heap a).blockNo ≠ b) :
    s.contents b = s.disk b := by
  rw [contents, find_eq_none.mpr hb]

end

/-- What `cache_acquire(b)` has done when it returns `a`. -/
structure Acquired (s : Cache) (pins : List Nat) (b a : Nat) (s' : Cache) : Prop where
  wf : s'.WF pins
  held : s'.Held a
  no : (s'.heap a).blockNo = b
  data : (s'.heap a).data = s.contents b
  new : ¬ s.Held a
  keep : ∀ a' ∈ s.head, (s.heap a').acquired = true ∨ (s.heap a').pinned = true → a' ∈ s'.head
  old : ∀ a' ∈ s'.head, a' ≠ a → a' ∈ s.head ∧ s'.heap a' = s.heap a'
  hit : a ∈ s.head → (s.heap a).blockNo = b
  rest : OnlyList s s'

end Cache

open Cache

theorem exec_withBlock (a : Nat) (f : Block → Block) (s : Cache) :
    (withBlock a f).exec s = (.ok (), s.onBlock a f) := rfl

theorem exec_readBlock (a : Nat) (s : Cache) : (readBlock a).exec s =
      (.ok (), s.onBlock a fun blk => { blk with data := s.disk blk.blockNo, valid := true }) := rfl

theorem exec_acquireSleeplock (h : (s.heap a).lock = ⟨1, []⟩) :
    (acquireSleeplock a).exec s = (.ok (), s.onBlock a fun blk => { blk with lock := ⟨0, []⟩ }) := by
  unfold acquireSleeplock
  rw [exec_bind_ok (exec_get s), h]
  rfl

theorem exec_acquireSleeplock_taken (h : (s.heap a).lock = ⟨0, []⟩) :
    (acquireSleeplock a).exec s =
      (.error .blocked, s.onBlock a fun blk => { blk with lock := ⟨-1, [0]⟩ }) := by
  unfold acquireSleeplock
  rw [exec_bind_ok (exec_get s), h]
  rfl

theorem cacheAcquire_hit (h : s.WF pins) (ha : a ∈ s.head) (hfree : (s.heap a).acquired = false) :
    ∃ s', (cacheAcquire (s.heap a).blockNo).exec s = (.ok a, s') ∧
      Acquired s pins (s.heap a).blockNo a s' := by
  have hlock := BlockList.WF.lock h a ha
  have hvalid := BlockList.WF.valid h a ha
  rw [hfree] at hlock
  let l : BlockList := { s.toBlockList with head := a :: s.head.erase a }.update a
    fun blk => { blk with acquired := true, lock := ⟨0, []⟩ }
  have hl : (s.toBlockList.hit a).update a (fun blk => { blk with lock := ⟨0, []⟩ }) = l :=
    update_update _ _ _ _
  have hself : l.heap a = { s.heap a with acquired := true, lock := ⟨0, []⟩ } :=
    heap_update_self _ _ _
  have hother : ∀ {a'}, a' ≠ a → l.heap a' = s.heap a' := fun hne =>
    heap_update_of_ne _ _ hne
  have hmem : ∀ {a'}, a' ∈ l.head ↔ a' ∈ s.head := fun {a'} =>
    (List.perm_cons_erase ha).mem_iff.symm
  have hexec : (cacheAcquire (s.heap a).blockNo).exec s = (.ok a, { s with toBlockList := l }) := by
    unfold cacheAcquire
    rw [exec_bind_ok (exec_get s), BlockList.WF.find_of_mem h ha]
    rw [exec_bind_ok (exec_set _ _), exec_bind_ok (exec_acquireSleeplock ?_), exec_bind_ok (exec_get _)]
    · simp only [onBlock, hl, hself, hvalid]
      rfl
    · dsimp only
      rw [heap_hit_self]
      exact hlock
  refine ⟨_, hexec, ?_, ⟨hmem.mpr ha, by rw [hself]⟩, by rw [hself], ?_, fun hh => ?_,
    fun a' ha' _ => hmem.mpr ha', fun a' ha' hne => ⟨hmem.mp ha', hother hne⟩, fun _ => rfl,
    ⟨rfl, rfl, rfl, rfl, rfl, rfl, rfl⟩⟩
  · exact BlockList.WF.update (f := fun blk => { blk with acquired := true, lock := ⟨0, []⟩ })
      (BlockList.WF.perm h (List.perm_cons_erase ha).symm) rfl rfl hvalid
      (BlockList.WF.pinned h a ha) (fun _ _ => Iff.rfl) List.mem_cons_self
  · rw [hself, contents_of_mem h ha]
  · rw [hh.2] at hfree
    cases hfree

/-- The `Block` of a miss. -/
def newBlock (s : Cache) (b : Nat) : Block :=
  { initBlock with
    blockNo := b, acquired := true, lock := ⟨0, []⟩, data := s.disk b, valid := true }

theorem exec_cacheAcquire_miss (hb : s.findCachedBlock b = none) :
    (cacheAcquire b).exec s = (.ok s.brk, { s with
      toBlockList := s.toBlockList.makeRoom.push s.brk (newBlock s b), brk := s.brk + 1 }) := by
  unfold cacheAcquire
  rw [exec_bind_ok (exec_get s), hb]
  rw [exec_bind_ok (exec_set _ _), exec_bind_ok (exec_acquireSleeplock ?_),
    exec_bind_ok (exec_readBlock _ _), exec_pure]
  · simp only [onBlock, insertNew, update_push]
    rfl
  · exact congrArg Block.lock (heap_push_self _ _ _)

theorem cacheAcquire_miss (h : s.WF pins) (hb : ∀ a ∈ s.head, (s.heap a).blockNo ≠ b) :
    ∃ s', (cacheAcquire b).exec s = (.ok s.brk, s') ∧ Acquired s pins b s.brk s' := by
  obtain ⟨hroom, hheap, hsub, hkeep⟩ := BlockList.WF.makeRoom h
  have hne : ∀ {a}, a ∈ s.head → a ≠ s.brk := fun ha he => by
    have := BlockList.WF.fresh h _ ha
    omega
  have hexec := exec_cacheAcquire_miss (find_eq_none.mpr hb)
  refine ⟨_, hexec, ?_, ⟨List.mem_cons_self, ?_⟩, ?_, ?_, fun hh => hne hh.1 rfl,
    fun a' ha' hk => List.mem_cons_of_mem _ (hkeep a' ha' hk), fun a' ha' hna => ?_,
    fun ha => absurd rfl (hne ha), ⟨rfl, rfl, rfl, rfl, rfl, rfl, rfl⟩⟩
  · exact hroom.push (fun a ha => by rw [hheap]; exact hb a (hsub a ha)) rfl rfl rfl rfl
  · exact congrArg Block.acquired (heap_push_self _ _ _)
  · exact congrArg Block.blockNo (heap_push_self _ _ _)
  · rw [contents_of_not_cached hb]
    exact congrArg Block.data (heap_push_self _ _ _)
  · have ha := (List.mem_cons.mp ha').resolve_left hna
    exact ⟨hsub a' ha, (heap_push_of_ne _ _ hna).trans (congrFun hheap a')⟩

theorem cacheAcquire_free (h : s.WF pins) (hfree : s.Free b) :
    ∃ a s', (cacheAcquire b).exec s = (.ok a, s') ∧ Acquired s pins b a s' := by
  cases hf : s.findCachedBlock b with
  | some a =>
    obtain ⟨ha, rfl⟩ := mem_of_find hf
    exact ⟨a, cacheAcquire_hit h ha (hfree.acquired ha rfl)⟩
  | none => exact ⟨s.brk, cacheAcquire_miss h (find_eq_none.mp hf)⟩

theorem cacheAcquire_held (h : s.WF pins) (hheld : ¬ s.Free b) :
    ∃ s', (cacheAcquire b).exec s = (.error .blocked, s') ∧ OnlyList s s' := by
  simp only [Free, not_forall, not_not] at hheld
  obtain ⟨a, ⟨ha, hacq⟩, rfl⟩ := hheld
  have hlock := BlockList.WF.lock h a ha
  rw [hacq] at hlock
  let s1 : Cache := { s with toBlockList := s.toBlockList.hit a }
  refine ⟨s1.onBlock a fun blk => { blk with lock := ⟨-1, [0]⟩ }, ?_, rfl, rfl, rfl, rfl, rfl, rfl, rfl⟩
  unfold cacheAcquire
  rw [exec_bind_ok (exec_get s), BlockList.WF.find_of_mem h ha]
  rw [exec_bind_ok (exec_set _ _), exec_bind_error (exec_acquireSleeplock_taken ?_)]
  rw [heap_hit_self]
  exact hlock

theorem exec_cacheRelease (h : s.WF pins) (ha : s.Held a) :
    (cacheRelease a).exec s = (.ok (), s.released a) := by
  have hlock := BlockList.WF.lock h a ha.1
  rw [ha.2, if_pos rfl] at hlock
  unfold cacheRelease
  rw [exec_bind_ok (exec_get s), release, hlock]
  rfl

namespace Cache

section

variable {s : Cache} {pins pins' : List Nat} {a : Nat}

section

variable (h : s.WF pins) (ha : a ∈ s.head)

include h ha

theorem WF.release : (s.released a).WF pins :=
  BlockList.WF.update (f := fun blk => { blk with acquired := false, lock := ⟨1, []⟩ }) h rfl rfl
    (BlockList.WF.valid h a ha) (BlockList.WF.pinned h a ha) (fun _ _ => Iff.rfl) ha

theorem WF.setData (d : Data) : (s.setData a d).WF pins :=
  BlockList.WF.update (f := fun blk => { blk with data := d }) h rfl (BlockList.WF.lock h a ha)
    (BlockList.WF.valid h a ha) (BlockList.WF.pinned h a ha) (fun _ _ => Iff.rfl) ha

theorem WF.pin (hmem : ∀ b, b ∈ pins' ↔ b = (s.heap a).blockNo ∨ b ∈ pins) : (s.pin a).WF pins' :=
  BlockList.WF.update (f := fun blk => { blk with pinned := true }) h rfl (BlockList.WF.lock h a ha)
    (BlockList.WF.valid h a ha) (by simp [hmem]) (fun b hb => by rw [hmem, or_iff_right hb]) ha

theorem WF.unpin (hmem : ∀ b, b ∈ pins' ↔ b ≠ (s.heap a).blockNo ∧ b ∈ pins) :
    (s.onBlock a fun blk => { blk with pinned := false }).WF pins' :=
  BlockList.WF.update (f := fun blk => { blk with pinned := false }) h rfl (BlockList.WF.lock h a ha)
    (BlockList.WF.valid h a ha) (by simp [hmem]) (fun b hb => by rw [hmem, and_iff_right hb]) ha

end

end

/-! ## Contents that survive evictions -/

/-- The `Block` of block `x`, if there is one, stays in memory or agrees with the
device. -/
def Stable (s : Cache) (x : Nat) : Prop :=
  ∀ a ∈ s.head, (s.heap a).blockNo = x →
    (s.heap a).acquired = true ∨ (s.heap a).pinned = true ∨ (s.heap a).data = s.disk x

/-- A step keeps the contents of block `x`, and they survive evictions. -/
structure Keeps (s s' : Cache) (x : Nat) : Prop where
  contents : s'.contents x = s.contents x
  stable : s'.Stable x

theorem Keeps.trans {s'' : Cache} (h : Keeps s s' x) (h' : Keeps s' s'' x) :
    Keeps s s'' x := ⟨h'.contents.trans h.contents, h'.stable⟩

theorem WF.stable_of_pinned (h : s.WF pins) (hx : x ∈ pins) :
    s.Stable x := fun a ha hno => .inr (.inl ((BlockList.WF.pinned h a ha).mpr (hno ▸ hx)))

theorem Acquired.keeps (h : s.WF pins)
    (hacq : Acquired s pins b a s') (hx : s.Stable x) : Keeps s s' x := by
  obtain rfl | hxb := eq_or_ne x b
  · refine ⟨?_, fun a' ha' hno => .inl ?_⟩
    · rw [← hacq.data, ← contents_of_mem hacq.wf hacq.held.1, hacq.no]
    · rw [BlockList.WF.eq_of_blockNo hacq.wf ha' hacq.held.1 (hno.trans hacq.no.symm)]
      exact hacq.held.2
  have hne : ∀ {a'}, (s'.heap a').blockNo = x → a' ≠ a := by
    rintro a' hno rfl
    exact hxb (hno.symm.trans hacq.no)
  constructor
  · by_cases hc : ∃ a' ∈ s'.head, (s'.heap a').blockNo = x
    · obtain ⟨a', ha', hno⟩ := hc
      obtain ⟨hold, hsame⟩ := hacq.old a' ha' (hne hno)
      rw [← hno, contents_of_mem hacq.wf ha', hsame, contents_of_mem h hold]
    have hnc : ∀ a' ∈ s'.head, (s'.heap a').blockNo ≠ x := fun a' ha' hno => hc ⟨a', ha', hno⟩
    rw [contents_of_not_cached hnc, hacq.rest.disk]
    by_cases hc0 : ∃ a' ∈ s.head, (s.heap a').blockNo = x
    · -- the only `Block` of `x` was freed, so it agreed with the device
      obtain ⟨a', ha', hno⟩ := hc0
      have hgone : a' ∉ s'.head := by
        intro hm
        have hna : a' ≠ a := by
          rintro rfl
          exact hxb (hno.symm.trans (hacq.hit ha'))
        refine hnc a' hm ?_
        rw [(hacq.old a' hm hna).2, hno]
      rw [← hno, contents_of_mem h ha']
      rcases hx a' ha' hno with hk | hk | hk
      · exact absurd (hacq.keep a' ha' (.inl hk)) hgone
      · exact absurd (hacq.keep a' ha' (.inr hk)) hgone
      · rw [hk, hno]
    · rw [contents_of_not_cached fun a' ha' hno => hc0 ⟨a', ha', hno⟩]
  · intro a' ha' hno
    obtain ⟨hold, hsame⟩ := hacq.old a' ha' (hne hno)
    rw [hsame] at hno ⊢
    rw [hacq.rest.disk]
    exact hx a' hold hno

section

variable {s : Cache} {pins : List Nat} {a x : Nat} {f : Block → Block}

section

variable (hno : (f (s.heap a)).blockNo = (s.heap a).blockNo)

include hno

theorem blockNo_onBlock (a' : Nat) : ((s.onBlock a f).heap a').blockNo = (s.heap a').blockNo := by
  obtain rfl | he := eq_or_ne a' a
  · rw [heap_onBlock_self, hno]
  · rw [heap_onBlock_of_ne s f he]

theorem find_onBlock (x : Nat) : (s.onBlock a f).findCachedBlock x = s.findCachedBlock x := by
  simp only [findCachedBlock, blockNo_onBlock hno]
  rfl

theorem contents_onBlock_of_ne
    (hx : x ≠ (s.heap a).blockNo) : (s.onBlock a f).contents x = s.contents x := by
  rw [contents, contents, find_onBlock hno]
  cases hf : s.findCachedBlock x with
  | none => rfl
  | some a' =>
    have hne : a' ≠ a := by
      rintro rfl
      exact hx (mem_of_find hf).2.symm
    exact congrArg Block.data (heap_onBlock_of_ne s f hne)

end

theorem contents_onBlock_self (h : s.WF pins) (ha : a ∈ s.head)
    (hno : (f (s.heap a)).blockNo = (s.heap a).blockNo) :
    (s.onBlock a f).contents (s.heap a).blockNo = (f (s.heap a)).data := by
  rw [contents, find_onBlock hno, BlockList.WF.find_of_mem h ha]
  exact congrArg Block.data (heap_onBlock_self s a f)

theorem stable_onBlock_of_ne (hno : (f (s.heap a)).blockNo = (s.heap a).blockNo)
    (hx : x ≠ (s.heap a).blockNo) (hs : s.Stable x) : (s.onBlock a f).Stable x := by
  intro a' ha' hno'
  have hne : a' ≠ a := by
    rintro rfl
    rw [heap_onBlock_self, hno] at hno'
    exact hx hno'.symm
  rw [heap_onBlock_of_ne s f hne] at hno' ⊢
  exact hs a' ha' hno'

section

variable (h : s.WF pins) (ha : a ∈ s.head) (hno : (f (s.heap a)).blockNo = (s.heap a).blockNo)

include h ha hno

theorem contents_onBlock (hdata : (f (s.heap a)).data = (s.heap a).data) (x : Nat) :
    (s.onBlock a f).contents x = s.contents x := by
  by_cases hx : x = (s.heap a).blockNo
  · rw [hx, contents_onBlock_self h ha hno, hdata, contents_of_mem h ha]
  · exact contents_onBlock_of_ne hno hx

theorem stable_onBlock_self (hs : (f (s.heap a)).acquired = true ∨ (f (s.heap a)).pinned = true ∨
      (f (s.heap a)).data = s.disk (s.heap a).blockNo) :
    (s.onBlock a f).Stable (s.heap a).blockNo := by
  intro a' ha' hno'
  obtain rfl | he := eq_or_ne a' a
  · rw [heap_onBlock_self]
    exact hs
  · rw [heap_onBlock_of_ne s f he] at hno'
    exact absurd (BlockList.WF.eq_of_blockNo h ha' ha hno') he

end

@[simp] theorem disk_deviceWrite_self (s : Cache) (b : Nat) (d : Data) :
    (s.deviceWrite b d).disk b = d := update_self _ _ _

theorem disk_deviceWrite_of_ne (s : Cache) (d : Data) (h : x ≠ b) :
    (s.deviceWrite b d).disk x = s.disk x := update_of_ne h _ _

theorem contents_deviceWrite (ha : a ∈ s.head) (hb : (s.heap a).blockNo = b) (d : Data)
    (x : Nat) : (s.deviceWrite b d).contents x = s.contents x := by
  have hfind : (s.deviceWrite b d).findCachedBlock x = s.findCachedBlock x := rfl
  rw [contents, contents, hfind]
  cases hf : s.findCachedBlock x with
  | some a' => rfl
  | none =>
    have hne : x ≠ b := by
      rintro rfl
      exact find_eq_none.mp hf a ha hb
    exact update_of_ne hne _ _

theorem stable_deviceWrite (h : s.WF pins) (ha : a ∈ s.head) (hs : s.Stable x ∨ x = (s.heap a).blockNo) :
    (s.deviceWrite (s.heap a).blockNo (s.heap a).data).Stable x := by
  intro a' ha' hno
  by_cases hx : x = (s.heap a).blockNo
  · have he : a' = a := BlockList.WF.eq_of_blockNo h ha' ha (hno.trans hx)
    subst he
    rw [hx, disk_deviceWrite_self]
    exact .inr (.inr rfl)
  · rw [disk_deviceWrite_of_ne s _ hx]
    exact hs.resolve_right hx a' ha' hno

theorem Keeps.setData (hx : x ≠ (s.heap a).blockNo) (hs : s.Stable x) (d : Data) :
    Keeps s (s.setData a d) x :=
  ⟨contents_onBlock_of_ne rfl hx, stable_onBlock_of_ne rfl hx hs⟩

theorem Keeps.syncNull (h : s.WF pins) (ha : a ∈ s.head)
    (hs : s.Stable x ∨ x = (s.heap a).blockNo) : Keeps s (s.syncNull a) x :=
  ⟨contents_deviceWrite ha rfl _ x, stable_deviceWrite h ha hs⟩

theorem Keeps.released (h : s.WF pins) (ha : a ∈ s.head) (hs : s.Stable x)
    (hset : x = (s.heap a).blockNo →
      (s.heap a).pinned = true ∨ (s.heap a).data = s.disk (s.heap a).blockNo) :
    Keeps s (s.released a) x := by
  refine ⟨contents_onBlock h ha rfl rfl x, ?_⟩
  by_cases hx : x = (s.heap a).blockNo
  · rw [hx]
    exact stable_onBlock_self h ha rfl (.inr (hset hx))
  · exact stable_onBlock_of_ne rfl hx hs

theorem held_onBlock (hacq : (f (s.heap a)).acquired = (s.heap a).acquired) :
    (s.onBlock a f).Held a' ↔ s.Held a' := by
  refine and_congr Iff.rfl ?_
  obtain rfl | he := eq_or_ne a' a
  · rw [heap_onBlock_self, hacq]
  · rw [heap_onBlock_of_ne s f he]

theorem held_pin : (s.pin a).Held a' ↔ s.Held a' := held_onBlock rfl

theorem blockNo_pin (a' : Nat) : ((s.pin a).heap a').blockNo = (s.heap a').blockNo :=
  blockNo_onBlock rfl a'

theorem held_setData {d : Data} : (s.setData a d).Held a' ↔ s.Held a' := held_onBlock rfl

theorem held_released : (s.released a).Held a' ↔ a' ≠ a ∧ s.Held a' := by
  obtain rfl | he := eq_or_ne a' a
  · simp [Held, released]
  · simp only [Held, released, heap_onBlock_of_ne s _ he, ne_eq, he, not_false_eq_true, true_and]
    rfl

end

/-! ## Held blocks -/

/-- The caller holds the same blocks, and they are unchanged. -/
def SameHeld (s s' : Cache) : Prop :=
  ∀ a, (s'.Held a ↔ s.Held a) ∧ (s.Held a → s'.heap a = s.heap a)

theorem SameHeld.refl (s : Cache) : SameHeld s s := fun _ => ⟨Iff.rfl, fun _ => rfl⟩

theorem SameHeld.trans {s'' : Cache} (h : SameHeld s s') (h' : SameHeld s' s'') :
    SameHeld s s'' := fun a =>
  ⟨(h' a).1.trans (h a).1, fun ha => ((h' a).2 ((h a).1.mpr ha)).trans ((h a).2 ha)⟩

theorem SameHeld.symm (h : SameHeld s s') : SameHeld s' s := fun a =>
  ⟨(h a).1.symm, fun ha => ((h a).2 ((h a).1.mp ha)).symm⟩

theorem SameHeld.free (h : SameHeld s s') (hf : s.Free b) : s'.Free b := by
  intro a ha
  have ha' := (h a).1.mp ha
  rw [(h a).2 ha']
  exact hf a ha'

section

variable {s s' : Cache} {pins : List Nat} {a b : Nat}

section

variable (hacq : Acquired s pins b a s')

include hacq

theorem Acquired.held_iff : s'.Held a' ↔ a' = a ∨ s.Held a' := by
  constructor
  · rintro ⟨hm, ha⟩
    by_cases he : a' = a
    · exact .inl he
    · obtain ⟨hold, hsame⟩ := hacq.old a' hm he
      exact .inr ⟨hold, hsame ▸ ha⟩
  rintro (rfl | ⟨hm, ha⟩)
  · exact hacq.held
  · have he : a' ≠ a := by
      rintro rfl
      exact hacq.new ⟨hm, ha⟩
    have hm' := hacq.keep a' hm (.inl ha)
    exact ⟨hm', by rw [(hacq.old a' hm' he).2, ha]⟩

theorem Acquired.heap_of_held (ha : s.Held a') : s'.heap a' = s.heap a' := by
  have he : a' ≠ a := by
    rintro rfl
    exact hacq.new ha
  exact (hacq.old a' (hacq.keep a' ha.1 (.inl ha.2)) he).2

theorem Acquired.cached (hx : s'.Cached x) : x = b ∨ s.Cached x := by
  obtain ⟨a', ha', hno⟩ := hx
  by_cases he : a' = a
  · left
    rw [← hno, he, hacq.no]
  · obtain ⟨hold, hsame⟩ := hacq.old a' ha' he
    exact .inr ⟨a', hold, by rw [← hsame, hno]⟩

theorem Acquired.free_iff (hx : x ≠ b) : s'.Free x ↔ s.Free x := by
  constructor
  · intro hf a' ha'
    rw [← hacq.heap_of_held ha']
    exact hf a' (hacq.held_iff.mpr (.inr ha'))
  intro hf a' ha'
  rcases hacq.held_iff.mp ha' with rfl | ha'
  · rw [hacq.no]
    exact hx.symm
  · rw [hacq.heap_of_held ha']
    exact hf a' ha'

end

/-- A block that was free and survives evictions is pinned or agrees with the
device once acquired. -/
theorem Acquired.settled (h : s.WF pins) (hacq : Acquired s pins b a s') (hfree : s.Free b)
    (hst : s.Stable b) : (s'.heap a).pinned = true ∨ (s'.heap a).data = s.disk b := by
  by_cases hc : ∃ a' ∈ s.head, (s.heap a').blockNo = b
  · obtain ⟨a', ha', hno⟩ := hc
    rcases hst a' ha' hno with hk | hk | hk
    · rw [hfree.acquired ha' hno] at hk
      cases hk
    · left
      rw [BlockList.WF.pinned hacq.wf a hacq.held.1, hacq.no, ← hno, ← BlockList.WF.pinned h a' ha']
      exact hk
    · right
      rw [hacq.data, ← hno, contents_of_mem h ha', hk, hno]
  · right
    rw [hacq.data, contents_of_not_cached fun a' ha' hno => hc ⟨a', ha', hno⟩]

end

end Cache

/-! ## Atomic operations -/

theorem cacheSync_some {c : Nat} (h : (cacheSync (some c) a).exec s = (.ok (), s')) :
    ∃ hd ctx, syncLog s.header (s.ctxs c) (s.heap a).blockNo = some (hd, ctx) ∧
      s' = { s.pin a with
        header := hd
        ctxs := update s.ctxs c ctx
        syncs := s.syncs ++ [(s.heap a).blockNo] } := by
  unfold cacheSync at h
  rw [exec_bind_ok (exec_withBlock _ _ _), exec_bind_ok (exec_get _), heap_onBlock_self] at h
  split at h
  next => cases h
  next hd ctx hs => exact ⟨hd, ctx, hs, by cases h; rfl⟩

theorem cacheSync_some_error {c : Nat} {e : Halt}
    (h : (cacheSync (some c) a).exec s = (.error e, s')) : OnlyList s s' := by
  unfold cacheSync at h
  rw [exec_bind_ok (exec_withBlock _ _ _), exec_bind_ok (exec_get _)] at h
  split at h
  next =>
    cases h
    exact onlyList_onBlock _ _ _
  next => cases h

theorem cacheBeginOp_ok {c : Nat} (h : (cacheBeginOp c).exec s = (.ok (), s')) :
    s.log.mustWait s.header = false ∧
      s' = { s with log := s.log.beginOp.1, ctxs := update s.ctxs c s.log.beginOp.2 } := by
  unfold cacheBeginOp at h
  rw [exec_bind_ok (exec_get s)] at h
  split at h
  next => cases h
  next hw => exact ⟨Bool.eq_false_iff.mpr hw, by cases h; rfl⟩

theorem exec_cacheEndOp_other (sb : SuperBlock) (hck : s.log.checkpointing = false)
    (hsem : s.log.opSem.WF) (hops : s.log.runningOps - 1 ≠ 0) :
    ∃ sem : Semaphore, sem.WF ∧ (cacheEndOp sb).exec s =
      (.ok (), { s with log := { s.log with runningOps := s.log.runningOps - 1, opSem := sem } }) := by
  have hpost : ∃ sem w, s.log.opSem.postSem = some (sem, w) := by
    rcases Semaphore.postSem_cases hsem with ⟨-, -, he⟩ | ⟨_, _, -, -, he⟩
    · exact ⟨_, _, he⟩
    · exact ⟨_, _, he⟩
  obtain ⟨sem, w, he⟩ := hpost
  refine ⟨sem, hsem.postSem he, ?_⟩
  have hnot : ¬ s.log.checkpointing = true := by
    rw [hck]
    exact Bool.false_ne_true
  unfold cacheEndOp
  rw [exec_bind_ok (exec_get s), if_neg hnot, exec_bind_ok (exec_set _ _), if_neg hops, he]
  rfl

/-- What the last `cache_end_op` does before it calls `do_checkpoint`. -/
def lastEnded (s : Cache) : Cache :=
  { s with log := { s.log with runningOps := s.log.runningOps - 1 } }

theorem exec_cacheEndOp_last (sb : SuperBlock) (hck : s.log.checkpointing = false)
    (hops : s.log.runningOps - 1 = 0) :
    (cacheEndOp sb).exec s = (doCheckpoint sb).exec (lastEnded s) := by
  have hnot : ¬ s.log.checkpointing = true := by
    rw [hck]
    exact Bool.false_ne_true
  unfold cacheEndOp
  rw [exec_bind_ok (exec_get s), if_neg hnot, exec_bind_ok (exec_set _ _), if_pos hops]
  rfl

end OsKernel
