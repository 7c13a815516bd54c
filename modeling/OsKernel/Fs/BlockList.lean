import OsKernel.Common.Sem
import OsKernel.Fs.Defines

/-!
# The list of cached blocks

The half of the static variables of `fs/cache.c` that the spin lock `lock`
protects: the in-memory `Block`s, the list that orders them from the most to the
least recently used, and `num_cached_blocks`.  A `Block` is known by its address.
The stretches of `cache_acquire` and `cache_release` under the lock are functions
on the list, shared by the sequential cache and by the processes that compete for
blocks.
-/

namespace OsKernel

open List

structure Block where
  blockNo : Nat
  acquired : Bool
  pinned : Bool
  lock : Semaphore
  valid : Bool
  data : Data

/-- `init_block`; `init_sleeplock` gives the lock one token. -/
def initBlock : Block where
  blockNo := 0
  acquired := false
  pinned := false
  lock := .initSem 1
  valid := false
  data := Bytes.zero

structure BlockList where
  heap : Nat → Block
  head : List Nat
  numCachedBlocks : Nat

namespace BlockList

variable (l : BlockList)

def findCachedBlock (b : Nat) : Option Nat :=
  l.head.find? fun a => (l.heap a).blockNo = b

/-- A `Block` that `evict_block` may free. -/
def evictable (a : Nat) : Bool := !(l.heap a).acquired && !(l.heap a).pinned

/-- `evict_block`: free the least recently used evictable `Block`. -/
def evictBlock : BlockList :=
  if l.numCachedBlocks < EVICTION_THRESHOLD then l
  else
    match l.head.reverse.find? l.evictable with
    | none => l
    | some a => { l with head := l.head.erase a, numCachedBlocks := l.numCachedBlocks - 1 }

/-- Change the `Block` at an address. -/
def update (a : Nat) (f : Block → Block) : BlockList :=
  { l with heap := Function.update l.heap a (f (l.heap a)) }

/-- A hit: move the `Block` to the front of the list. -/
def hit (a : Nat) : BlockList :=
  { l with head := a :: l.head.erase a }.update a fun blk => { blk with acquired := true }

/-- Put a `Block` at address `a` in front. -/
def push (a : Nat) (blk : Block) : BlockList where
  heap := Function.update l.heap a blk
  head := a :: l.head
  numCachedBlocks := l.numCachedBlocks + 1

/-- `cache_acquire` makes room before it allocates. -/
def makeRoom : BlockList :=
  if EVICTION_THRESHOLD ≤ l.numCachedBlocks then l.evictBlock else l

/-- A miss: make room and put a new `Block` for block `b` at address `a`. -/
def insertNew (a b : Nat) : BlockList :=
  l.makeRoom.push a { initBlock with blockNo := b, acquired := true }

/-- `cache_release` under `lock`: the list afterwards and the process that
`post_sem` wakes. -/
def release (a : Nat) : Option (BlockList × Option Nat) :=
  match (l.heap a).lock.postSem with
  | none => none
  | some (sem, w) => some (l.update a fun blk => { blk with acquired := false, lock := sem }, w)

/-! ## Well-formed lists

`pins` are the block numbers whose `Block` must stay in memory. -/

structure WF (l : BlockList) (brk : Nat) (pins : List Nat) : Prop where
  distinct : (l.head.map fun a => (l.heap a).blockNo).Nodup
  fresh : ∀ a ∈ l.head, a < brk
  count : l.numCachedBlocks = l.head.length
  lock : ∀ a ∈ l.head, (l.heap a).lock = ⟨if (l.heap a).acquired then 0 else 1, []⟩
  valid : ∀ a ∈ l.head, (l.heap a).valid = true
  pinned : ∀ a ∈ l.head, ((l.heap a).pinned = true ↔ (l.heap a).blockNo ∈ pins)
  cached : ∀ b ∈ pins, ∃ a ∈ l.head, (l.heap a).blockNo = b

theorem WF.nil (heap : Nat → Block) (brk : Nat) : WF ⟨heap, [], 0⟩ brk [] := by
  refine ⟨nodup_nil, ?_, rfl, ?_, ?_, ?_, ?_⟩ <;> intro a ha <;> cases ha

section

variable {l : BlockList} {brk : Nat} {pins : List Nat}

variable {a a' b : Nat}

theorem WF.eq_of_blockNo (h : l.WF brk pins) (ha : a ∈ l.head) (ha' : a' ∈ l.head)
    (he : (l.heap a).blockNo = (l.heap a').blockNo) : a = a' :=
  inj_on_of_nodup_map h.distinct ha ha' he

theorem mem_of_find (hf : l.findCachedBlock b = some a) : a ∈ l.head ∧ (l.heap a).blockNo = b :=
  ⟨mem_of_find?_eq_some hf, by simpa using List.find?_some hf⟩

theorem find_eq_none : l.findCachedBlock b = none ↔ ∀ a ∈ l.head, (l.heap a).blockNo ≠ b := by
  simp [findCachedBlock]

theorem WF.find_of_mem (h : l.WF brk pins) (ha : a ∈ l.head) :
    l.findCachedBlock (l.heap a).blockNo = some a := by
  cases hf : l.findCachedBlock (l.heap a).blockNo with
  | none => exact absurd rfl (find_eq_none.mp hf a ha)
  | some a' =>
    obtain ⟨ha', hno⟩ := mem_of_find hf
    rw [h.eq_of_blockNo ha' ha hno]

section

variable (l)

@[simp] theorem heap_update_self (a : Nat) (f : Block → Block) :
    (l.update a f).heap a = f (l.heap a) := Function.update_self _ _ _

theorem heap_update_of_ne (f : Block → Block) (h : a' ≠ a) :
    (l.update a f).heap a' = l.heap a' := Function.update_of_ne h _ _

@[simp] theorem heap_push_self (a : Nat) (blk : Block) :
    (l.push a blk).heap a = blk := Function.update_self _ _ _

theorem heap_push_of_ne (blk : Block) (h : a' ≠ a) :
    (l.push a blk).heap a' = l.heap a' := Function.update_of_ne h _ _

@[simp] theorem head_push (a : Nat) (blk : Block) : (l.push a blk).head = a :: l.head := rfl

@[simp] theorem head_update (a : Nat) (f : Block → Block) : (l.update a f).head = l.head := rfl

theorem update_update (a : Nat) (f g : Block → Block) :
    (l.update a f).update a g = l.update a fun blk => g (f blk) := by
  rw [update, heap_update_self]
  simp only [update, Function.update_idem]

theorem update_push (a : Nat) (blk : Block) (f : Block → Block) :
    (l.push a blk).update a f = l.push a (f blk) := by
  rw [update, heap_push_self]
  simp only [push, Function.update_idem]

@[simp] theorem heap_hit_self (a : Nat) :
    (l.hit a).heap a = { l.heap a with acquired := true } := heap_update_self _ _ _

theorem heap_hit_of_ne (h : a' ≠ a) : (l.hit a).heap a' = l.heap a' := heap_update_of_ne _ _ h

theorem evictBlock_cases :
    l.evictBlock = l ∨ ∃ e ∈ l.head, (l.heap e).acquired = false ∧ (l.heap e).pinned = false ∧
      l.evictBlock = { l with head := l.head.erase e, numCachedBlocks := l.numCachedBlocks - 1 } := by
  unfold evictBlock
  split
  · exact Or.inl rfl
  split
  next => exact Or.inl rfl
  next e hf =>
    have hev : (l.heap e).acquired = false ∧ (l.heap e).pinned = false := by
      simpa [evictable] using List.find?_some hf
    exact Or.inr ⟨e, mem_reverse.mp (mem_of_find?_eq_some hf), hev.1, hev.2, rfl⟩

theorem makeRoom_cases :
    l.makeRoom = l ∨ ∃ e ∈ l.head, (l.heap e).acquired = false ∧ (l.heap e).pinned = false ∧
      l.makeRoom = { l with head := l.head.erase e, numCachedBlocks := l.numCachedBlocks - 1 } := by
  unfold makeRoom
  split
  · exact l.evictBlock_cases
  · exact Or.inl rfl

theorem evictable_eq_false :
    l.evictable a = false ↔ (l.heap a).acquired = true ∨ (l.heap a).pinned = true := by
  cases hacq : (l.heap a).acquired <;> simp [evictable, hacq]

/-- There is room for one more block, or all blocks are acquired or pinned, if and only if there were at
most `EVICTION_THRESHOLD` blocks or at most one that could be freed: only one is. -/
theorem makeRoom_small_iff :
    (l.makeRoom.numCachedBlocks < EVICTION_THRESHOLD ∨
      ∀ a ∈ l.makeRoom.head, (l.heap a).acquired = true ∨ (l.heap a).pinned = true) ↔
    l.numCachedBlocks ≤ EVICTION_THRESHOLD ∨ (l.head.filter l.evictable).length ≤ 1 := by
  have hpos : 0 < EVICTION_THRESHOLD := by decide
  simp only [← evictable_eq_false]
  unfold makeRoom evictBlock
  split
  next hfull =>
    rw [if_neg (Nat.not_lt.mpr hfull)]
    split
    next hnone =>
      have hbusy : ∀ a ∈ l.head, l.evictable a = false := by simpa using hnone
      refine iff_of_true (.inr hbusy) (.inr ?_)
      rw [filter_eq_nil_iff.mpr fun a ha => by simp [hbusy a ha]]
      exact Nat.zero_le 1
    next e he =>
      have hmem : e ∈ l.head := mem_reverse.mp (mem_of_find?_eq_some he)
      have hlen := ((perm_cons_erase hmem).filter l.evictable).length_eq
      rw [filter_cons_of_pos (List.find?_some he), length_cons] at hlen
      have hnil : (∀ a ∈ l.head.erase e, l.evictable a = false) ↔
          (l.head.filter l.evictable).length ≤ 1 := by
        rw [hlen, Nat.succ_le_succ_iff, Nat.le_zero, length_eq_zero_iff, filter_eq_nil_iff]
        simp only [Bool.not_eq_true]
      exact or_congr (by dsimp only; omega) hnil
  next hroom => exact iff_of_true (.inl (Nat.not_le.mp hroom)) (.inl (by omega))

theorem numCachedBlocks_makeRoom : l.numCachedBlocks ≤ l.makeRoom.numCachedBlocks + 1 := by
  rcases l.makeRoom_cases with he | ⟨e, -, -, -, he⟩ <;> rw [he]
  · exact Nat.le_succ _
  · dsimp only
    omega

@[simp] theorem heap_makeRoom : l.makeRoom.heap = l.heap := by
  rcases l.makeRoom_cases with he | ⟨e, -, -, -, he⟩ <;> rw [he]

theorem head_makeRoom_sublist : l.makeRoom.head.Sublist l.head := by
  rcases l.makeRoom_cases with he | ⟨e, -, -, -, he⟩ <;> rw [he]
  exact erase_sublist

end

theorem not_acquired_of_freed (ha : a ∈ l.head) (hn : a ∉ l.makeRoom.head) :
    (l.heap a).acquired = false := by
  rcases l.makeRoom_cases with he | ⟨e, -, hacq, -, he⟩
  · rw [he] at hn
    exact absurd ha hn
  · rw [he] at hn
    have hae : a = e := by
      by_contra hne
      exact hn ((mem_erase_of_ne hne).mpr ha)
    rw [hae, hacq]

theorem distinct_push (hd : (l.head.map fun a => (l.heap a).blockNo).Nodup) {blk : Block}
    (ha : a ∉ l.head) (hb : ∀ a' ∈ l.head, (l.heap a').blockNo ≠ blk.blockNo) :
    ((l.push a blk).head.map fun a' => ((l.push a blk).heap a').blockNo).Nodup := by
  have hold : ∀ a' ∈ l.head, (l.push a blk).heap a' = l.heap a' := by
    intro a' ha'
    refine heap_push_of_ne l blk ?_
    rintro rfl
    exact ha ha'
  rw [head_push, map_cons, nodup_cons, heap_push_self]
  constructor
  · intro hm
    obtain ⟨a', ha', he⟩ := mem_map.mp hm
    rw [hold a' ha'] at he
    exact hb a' ha' he
  · rw [map_congr_left fun a' ha' => congrArg Block.blockNo (hold a' ha')]
    exact hd

theorem distinct_insertNew (hd : (l.head.map fun a => (l.heap a).blockNo).Nodup)
    (hb : l.findCachedBlock b = none) (ha : a ∉ l.makeRoom.head) :
    ((l.insertNew a b).head.map fun a' => ((l.insertNew a b).heap a').blockNo).Nodup := by
  refine distinct_push ?_ ha fun a' ha' => ?_
  · rw [heap_makeRoom]
    exact hd.sublist (l.head_makeRoom_sublist.map _)
  · rw [heap_makeRoom]
    exact find_eq_none.mp hb a' (l.head_makeRoom_sublist.subset ha')

section

variable (h : l.WF brk pins)

include h

theorem WF.update {f : Block → Block} {pins' : List Nat}
    (hno : (f (l.heap a)).blockNo = (l.heap a).blockNo)
    (hlock : (f (l.heap a)).lock = ⟨if (f (l.heap a)).acquired then 0 else 1, []⟩)
    (hvalid : (f (l.heap a)).valid = true)
    (hpin : (f (l.heap a)).pinned = true ↔ (l.heap a).blockNo ∈ pins')
    (hpins : ∀ b, b ≠ (l.heap a).blockNo → (b ∈ pins' ↔ b ∈ pins)) (ha : a ∈ l.head) :
    (l.update a f).WF brk pins' := by
  have hnos : ∀ a', ((l.update a f).heap a').blockNo = (l.heap a').blockNo := by
    intro a'
    obtain rfl | he := eq_or_ne a' a
    · rw [heap_update_self, hno]
    · rw [heap_update_of_ne l f he]
  refine ⟨?_, h.fresh, h.count, fun a' ha' => ?_, fun a' ha' => ?_, fun a' ha' => ?_, fun b hb => ?_⟩
  · rw [head_update, funext hnos]
    exact h.distinct
  · obtain rfl | he := eq_or_ne a' a
    · rw [heap_update_self]
      exact hlock
    · rw [heap_update_of_ne l f he]
      exact h.lock a' ha'
  · obtain rfl | he := eq_or_ne a' a
    · rw [heap_update_self]
      exact hvalid
    · rw [heap_update_of_ne l f he]
      exact h.valid a' ha'
  · rw [hnos]
    obtain rfl | he := eq_or_ne a' a
    · rw [heap_update_self]
      exact hpin
    · rw [heap_update_of_ne l f he, h.pinned a' ha', hpins]
      exact fun hno' => he (h.eq_of_blockNo ha' ha hno')
  · by_cases he : b = (l.heap a).blockNo
    · exact ⟨a, ha, by rw [hnos, he]⟩
    · obtain ⟨a', ha', hno'⟩ := h.cached b ((hpins b he).mp hb)
      exact ⟨a', ha', by rw [hnos, hno']⟩

theorem WF.perm {head : List Nat} (hp : head.Perm l.head) : WF { l with head := head } brk pins :=
  ⟨(hp.map _).nodup_iff.mpr h.distinct, fun a ha => h.fresh a (hp.mem_iff.mp ha),
    h.count.trans hp.length_eq.symm, fun a ha => h.lock a (hp.mem_iff.mp ha),
    fun a ha => h.valid a (hp.mem_iff.mp ha), fun a ha => h.pinned a (hp.mem_iff.mp ha),
    fun b hb => (h.cached b hb).imp fun _ ha => ⟨hp.mem_iff.mpr ha.1, ha.2⟩⟩

theorem WF.erase (ha : a ∈ l.head) (hp : (l.heap a).pinned = false) :
    WF { l with head := l.head.erase a, numCachedBlocks := l.numCachedBlocks - 1 } brk pins := by
  have hsub : ∀ {a'}, a' ∈ l.head.erase a → a' ∈ l.head := fun ha' => mem_of_mem_erase ha'
  refine ⟨(h.distinct.sublist ((erase_sublist).map _)), fun a' ha' => h.fresh a' (hsub ha'), ?_,
    fun a' ha' => h.lock a' (hsub ha'), fun a' ha' => h.valid a' (hsub ha'),
    fun a' ha' => h.pinned a' (hsub ha'), fun b hb => ?_⟩
  · rw [length_erase_of_mem ha, h.count]
  obtain ⟨a', ha', hno⟩ := h.cached b hb
  have hne : a' ≠ a := by
    rintro rfl
    rw [(h.pinned a' ha').mpr (hno ▸ hb)] at hp
    cases hp
  exact ⟨a', (mem_erase_of_ne hne).mpr ha', hno⟩

theorem WF.makeRoom : l.makeRoom.WF brk pins ∧ l.makeRoom.heap = l.heap ∧
      (∀ a ∈ l.makeRoom.head, a ∈ l.head) ∧
      ∀ a ∈ l.head, (l.heap a).acquired = true ∨ (l.heap a).pinned = true → a ∈ l.makeRoom.head := by
  rcases l.makeRoom_cases with he | ⟨e, hmem, hacq, hpin, he⟩
  · rw [he]
    exact ⟨h, rfl, fun _ ha => ha, fun _ ha _ => ha⟩
  rw [he]
  refine ⟨h.erase hmem hpin, rfl, fun _ ha => mem_of_mem_erase ha, fun a ha hkeep => ?_⟩
  have hne : a ≠ e := by
    rintro rfl
    rw [hacq, hpin] at hkeep
    rcases hkeep with hk | hk <;> cases hk
  exact (mem_erase_of_ne hne).mpr ha

theorem WF.push {blk : Block} (hb : ∀ a ∈ l.head, (l.heap a).blockNo ≠ b)
    (hno : blk.blockNo = b) (hlock : blk.lock = ⟨if blk.acquired then 0 else 1, []⟩)
    (hvalid : blk.valid = true) (hpin : blk.pinned = false) :
    (l.push brk blk).WF (brk + 1) pins := by
  have hne : ∀ {a}, a ∈ l.head → a ≠ brk := fun ha he => by
    have := h.fresh _ ha
    omega
  have hold : ∀ {a}, a ∈ l.head → (l.push brk blk).heap a = l.heap a :=
    fun ha => heap_push_of_ne l blk (hne ha)
  have hcases : ∀ {C : Nat → Prop}, C brk → (∀ a ∈ l.head, C a) → ∀ a ∈ brk :: l.head, C a := by
    intro C h1 h2 a ha
    rcases mem_cons.mp ha with rfl | ha
    · exact h1
    · exact h2 a ha
  have hnew : ∀ b' ∈ pins, b' ≠ b := by
    rintro b' hb' rfl
    obtain ⟨a, ha, hno'⟩ := h.cached b' hb'
    exact hb a ha hno'
  refine ⟨?_, hcases (Nat.lt_succ_self brk) fun a ha => Nat.lt_succ_of_lt (h.fresh a ha), ?_,
    hcases ?_ fun a ha => ?_, hcases ?_ fun a ha => ?_, hcases ?_ fun a ha => ?_, fun b' hb' => ?_⟩
  · exact distinct_push h.distinct (fun ha => hne ha rfl) (hno.symm ▸ hb)
  · rw [head_push, length_cons, ← h.count]
    rfl
  · rwa [heap_push_self]
  · rw [hold ha]
    exact h.lock a ha
  · rwa [heap_push_self]
  · rw [hold ha]
    exact h.valid a ha
  · rw [heap_push_self, hpin, hno]
    exact ⟨fun hf => Bool.noConfusion hf, fun hm => absurd rfl (hnew b hm)⟩
  · rw [hold ha]
    exact h.pinned a ha
  · obtain ⟨a, ha, hno'⟩ := h.cached b' hb'
    exact ⟨a, mem_cons_of_mem _ ha, by rw [hold ha, hno']⟩

end

end

end BlockList

end OsKernel
