import Mathlib.Order.Interval.Finset.Nat
import OsKernel.Fs.BlockStore

/-!
# The block cache of the inode tests

`MockBlockCache` of `fs/test/mock/cache.hpp`, with which the tests of the inode layer run:
the blocks and the bitmap in memory.  It never evicts a block, and the copies on the SD card
are not read again once a block is in memory.  It is a block store on which no call stops
before its thousand data blocks are used up (`MockCache.laws`).
-/

namespace OsKernel

open Prog Function

/-- `mblk`, `mbit`, and which of the mutexes of `mblk` are locked. -/
structure MockCache where
  blocks : Nat → Data
  used : Nat → Bool
  locked : Nat → Bool

namespace MockCache

def NUM_BLOCKS : Nat := 2000

def BLOCK_START : Nat := 1000

/-- `get_sblock`. -/
def superBlock : SuperBlock where
  numBlocks := NUM_BLOCKS
  numDataBlocks := NUM_BLOCKS - BLOCK_START
  numInodes := 1000
  numLogBlocks := 50
  logStart := 2
  inodeStart := 200
  bitmapStart := 900

def checkBlockNo (i : Nat) : Prog Halt MockCache Unit :=
  if NUM_BLOCKS ≤ i then throw .panic else pure ()

/-- `mutex.lock()`, where the only caller would wait for itself. -/
def lock (i : Nat) : Prog Halt MockCache Unit := do
  let s ← get
  if s.locked i then throw .blocked
  else set { s with locked := update s.locked i true }

def unlock (i : Nat) : Prog Halt MockCache Unit :=
  modify fun s => { s with locked := update s.locked i false }

def setBlock (i : Nat) (f : Data → Data) : Prog Halt MockCache Unit :=
  modify fun s => { s with blocks := update s.blocks i (f (s.blocks i)) }

def setUsed (i : Nat) (u : Bool) : Prog Halt MockCache Unit :=
  modify fun s => { s with used := update s.used i u }

/-- The first free block from `BLOCK_START` on. -/
def firstFree (s : MockCache) : Option Nat :=
  (List.range' BLOCK_START (NUM_BLOCKS - BLOCK_START)).find? fun i => !s.used i

def alloc : Prog Halt MockCache Nat := do
  let s ← get
  match s.firstFree with
  | none => throw .panic
  | some i =>
    setUsed i true
    lock i
    setBlock i fun _ => Bytes.zero
    unlock i
    return i

def free (i : Nat) : Prog Halt MockCache Unit := do
  checkBlockNo i
  let s ← get
  if s.used i then setUsed i false else throw .panic

def acquire (i : Nat) : Prog Halt MockCache Nat := do
  checkBlockNo i
  lock i
  return i

def cache : BlockCache MockCache where
  acquire := acquire
  release := unlock
  beginOp := fun _ => pure ()
  sync := fun _ _ => pure ()
  endOp := fun _ => pure ()
  alloc := fun _ => alloc
  free := fun _ => free
  data := fun i => do
    let s ← get
    return s.blocks i
  setData := setBlock

/-! ## A block store -/

def freeBlocks (s : MockCache) : Finset Nat :=
  (Finset.Ico BLOCK_START NUM_BLOCKS).filter fun i => s.used i = false

variable {s : MockCache} {i b : Nat}

theorem mem_freeBlocks :
    i ∈ s.freeBlocks ↔ (BLOCK_START ≤ i ∧ i < NUM_BLOCKS) ∧ s.used i = false := by
  rw [freeBlocks, Finset.mem_filter, Finset.mem_Ico]

/-- Blocks below `BLOCK_START` are never given out; those from `NUM_BLOCKS` on do not exist. -/
def view : StoreView MockCache where
  Ok := fun _ => True
  view := blocks
  used := fun s i => s.used i = true ∨ i < BLOCK_START ∨ NUM_BLOCKS ≤ i
  room := fun s => s.freeBlocks.card
  held := fun s i => if s.locked i then some i else none
  synced := fun _ _ => True
  fixed := fun i => i < BLOCK_START ∨ NUM_BLOCKS ≤ i
  own := fun i => NUM_BLOCKS ≤ i
  stops := False

theorem safe (s : MockCache) (x : Nat) : view.Safe s x := .inl trivial

theorem keeps {s' : MockCache} {x : Nat} (h : s'.blocks x = s.blocks x) : view.Keeps s s' x :=
  fun _ => ⟨safe s' x, h⟩

theorem held_eq_some {a : Nat} (h : view.held s a = some b) : a = b ∧ s.locked a = true := by
  simp only [view] at h
  split at h
  next hl => exact ⟨Option.some.inj h, hl⟩
  next => cases h

theorem held_update (s : MockCache) (a : Nat) (u : Bool) :
    view.held { s with locked := update s.locked a u } =
      update (view.held s) a (if u then some a else none) := by
  funext i
  obtain rfl | hi := eq_or_ne i a
  · simp [view]
  · simp [view, update_of_ne hi]

theorem exec_lock (h : s.locked i = false) :
    (lock i).exec s = (.ok (), { s with locked := update s.locked i true }) := by
  rw [lock, exec_bind_ok (exec_get s), h]
  rfl

theorem exec_checkBlockNo (h : i < NUM_BLOCKS) : (checkBlockNo i).exec s = (.ok (), s) := by
  rw [checkBlockNo, if_neg (Nat.not_le.mpr h)]
  rfl

theorem acquired (hlt : b < NUM_BLOCKS) (hfree : view.held s b = none) :
    (acquire b).exec s = (.ok b, { s with locked := update s.locked b true }) ∧
      view.Acquired s b b { s with locked := update s.locked b true } := by
  have hl : s.locked b = false := by
    simp only [view] at hfree
    split at hfree
    next => cases hfree
    next hl => simpa using hl
  refine ⟨?_, trivial, hfree, held_update s b true, rfl, fun h => h, fun x => keeps rfl, rfl, rfl⟩
  rw [acquire, exec_bind_ok (exec_checkBlockNo hlt), exec_bind_ok (exec_lock hl)]
  rfl

theorem firstFree_eq_some (h : s.firstFree = some i) :
    s.used i = false ∧ BLOCK_START ≤ i ∧ i < NUM_BLOCKS := by
  have hu := List.find?_some h
  have hm := List.mem_range'_1.mp (List.mem_of_find?_eq_some h)
  exact ⟨by simpa using hu, hm.1, by omega⟩

theorem firstFree_eq_none (h : s.firstFree = none) : view.room s = 0 := by
  show s.freeBlocks.card = 0
  refine Finset.card_eq_zero.mpr (Finset.eq_empty_of_forall_notMem fun i hi => ?_)
  obtain ⟨hlt, hu⟩ := mem_freeBlocks.mp hi
  have := List.find?_eq_none.mp h i (List.mem_range'_1.mpr
    (by simp only [BLOCK_START, NUM_BLOCKS] at hlt ⊢; omega))
  rw [hu] at this
  exact this rfl

/-- The state after `alloc` has returned `b`. -/
def allocated (s : MockCache) (b : Nat) : MockCache where
  blocks := update s.blocks b Bytes.zero
  used := update s.used b true
  locked := s.locked

theorem exec_alloc (hf : s.firstFree = some b)
    (hl : s.locked b = false) : alloc.exec s = (.ok b, s.allocated b) := by
  have hlock : (lock b).exec { s with used := update s.used b true } =
      (.ok (), { s with used := update s.used b true,
                        locked := update s.locked b true }) := exec_lock hl
  have hunlock : update (update s.locked b true) b false = s.locked := by
    rw [update_idem, update_eq_self_iff, hl]
  rw [alloc, exec_bind_ok (exec_get s), hf]
  dsimp only
  rw [setUsed, exec_bind_ok (exec_modify _ _), exec_bind_ok hlock, setBlock,
    exec_bind_ok (exec_modify _ _), unlock, exec_bind_ok (exec_modify _ _), exec_pure]
  simp only [hunlock, allocated]

theorem allocated_spec (hu : s.used b = false) (hlo : BLOCK_START ≤ b)
    (hhi : b < NUM_BLOCKS) : view.Allocated s b (s.allocated b) := by
  have hb : b ∈ s.freeBlocks := mem_freeBlocks.mpr ⟨⟨hlo, hhi⟩, hu⟩
  have herase : (s.allocated b).freeBlocks = s.freeBlocks.erase b := by
    ext x
    rw [Finset.mem_erase, mem_freeBlocks, mem_freeBlocks]
    by_cases hx : x = b <;> simp [allocated, hx]
  refine ⟨trivial, ?_, ?_, ?_, update_self .., safe _ _, rfl,
    fun x _ hne => keeps (update_of_ne hne ..), fun x => ?_, ?_⟩
  · simp only [BLOCK_START] at hlo
    omega
  · simp only [NUM_BLOCKS] at hhi
    omega
  · simp only [view, hu, Bool.false_eq_true, false_or, not_or]
    omega
  · by_cases hx : x = b <;> simp [view, allocated, hx]
  · show (s.allocated b).freeBlocks.card + 1 = s.freeBlocks.card
    rw [herase, Finset.card_erase_add_one hb]

theorem freed_spec (hu : s.used b = true) (hlo : BLOCK_START ≤ b) (hhi : b < NUM_BLOCKS) :
    view.Freed s b { s with used := update s.used b false } := by
  have hb : b ∉ s.freeBlocks := by simp [mem_freeBlocks, hu]
  have hins : freeBlocks { s with used := update s.used b false } = insert b s.freeBlocks := by
    ext x
    rw [Finset.mem_insert, mem_freeBlocks, mem_freeBlocks]
    by_cases hx : x = b
    · simp [hx, hlo, hhi]
    · simp [hx]
  refine ⟨trivial, rfl, fun x _ => keeps rfl, fun x => ?_, ?_⟩
  · by_cases hx : x = b
    · simp [view, hx, hlo, hhi]
    · simp [view, hx]
  · show (freeBlocks { s with used := update s.used b false }).card = _
    rw [hins, Finset.card_insert_of_notMem hb]
    rfl

theorem laws : StoreLaws cache view where
  fixed_of_own := .inr
  used_of_fixed := fun _ h => .inr h
  acquire := fun {s b} _ _ hown hfree => by
    have hnone : view.held s b = none := by
      cases hh : view.held s b with
      | none => rfl
      | some x =>
        obtain ⟨rfl, -⟩ := held_eq_some hh
        exact absurd hh (hfree b)
    exact ⟨b, _, acquired (Nat.lt_of_not_le hown) hnone⟩
  data := fun _ ha => by
    obtain ⟨rfl, -⟩ := held_eq_some ha
    rfl
  setData := fun f _ ha _ => by
    obtain ⟨rfl, -⟩ := held_eq_some ha
    exact ⟨_, rfl, trivial, rfl, update_self .., fun x hne => keeps (update_of_ne hne ..), rfl, rfl⟩
  sync := fun _ _ _ _ => ⟨trivial, rfl, trivial, fun x => keeps rfl, rfl, rfl⟩
  release := fun {s a b} _ ha _ => by
    exact ⟨_, rfl, trivial, held_update s a false, fun x _ => keeps rfl, fun _ => keeps rfl, rfl, rfl⟩
  alloc := fun {s} _ _ hhold => by
    show Post _ _ (alloc.exec s)
    cases hf : s.firstFree with
    | none =>
      have hexec : alloc.exec s = (.error .panic, s) := by
        rw [alloc, exec_bind_ok (exec_get s), hf]
        rfl
      rw [hexec]
      exact .inr (firstFree_eq_none hf)
    | some b =>
      obtain ⟨hu, hlo, hhi⟩ := firstFree_eq_some hf
      have hl : s.locked b = false := by
        by_contra hl
        have hb : view.held s b = some b := by simp [view, hl]
        rcases (hhold b b hb).1 with h | h | h
        · rw [hu] at h
          cases h
        · omega
        · omega
      exact .of_ok (Q := view.Allocated s) (exec_alloc hf hl) (allocated_spec hu hlo hhi)
  free := fun {s b} _ _ _ hused hfix => by
    have hlo : BLOCK_START ≤ b := by simp only [view] at hfix; omega
    have hhi : b < NUM_BLOCKS := by simp only [view] at hfix; omega
    have hu : s.used b = true := hused.resolve_right fun h => hfix h
    have hexec : (free b).exec s = (.ok (), { s with used := update s.used b false }) := by
      rw [free, exec_bind_ok (exec_checkBlockNo hhi), exec_bind_ok (exec_get s), if_pos hu]
      rfl
    exact .of_ok (Q := fun _ => view.Freed s b) hexec (freed_spec hu hlo hhi)

/-- The arguments that the tests pass to `init_inodes`. -/
def env : FsEnv MockCache := ⟨superBlock, cache⟩

end MockCache

end OsKernel
