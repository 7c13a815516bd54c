import Mathlib.Data.Nat.Bitwise
import OsKernel.Fs.Defines

/-!
# Address translation

The constants of `aarch64/mmu.h`, `get_pte` of `kernel/pt.c` for a page table that it does not
extend, and what the hardware does with an address.

The memory is a function from the addresses of 64-bit words to their values, and a page table is the
kernel address of its first level, `0` for `NULL`.  `get_pte` follows every entry that is not zero,
the hardware only valid ones and only for addresses below `USERTOP`; they agree there on a page
for which the walk reads only entries that are valid or zero (`translate_eq`).
-/

namespace OsKernel

abbrev PAGE_SIZE : Nat := 4096

def PTE_VALID : Nat := 1

def PTE_USER : Nat := 2 ^ 6

def PTE_RO : Nat := 2 ^ 7

def KSPACE_MASK : Nat := 0xFFFF000000000000

/-- The first address above user space, `1 + ~KSPACE_MASK`. -/
def USERTOP : Nat := 0x1000000000000

def p2k (addr : Nat) : Nat := usize (addr + KSPACE_MASK)

def pteAddress (pte : Nat) : Nat := pte &&& 0x0000FFFFFFFFF000

def vaPart0 (va : Nat) : Nat := (va &&& 0xFF8000000000) >>> 39

def vaPart1 (va : Nat) : Nat := (va &&& 0x7FC0000000) >>> 30

def vaPart2 (va : Nat) : Nat := (va &&& 0x3FE00000) >>> 21

def vaPart3 (va : Nat) : Nat := (va &&& 0x1FF000) >>> 12

section

variable (mem : Nat → Nat)

/-- The address of entry `i` of a table. -/
def pteAt (pt i : Nat) : Nat := pt + 8 * i

/-- One level of `get_pte`: the table that a non-zero entry points to. -/
def nextTable (pt i : Nat) : Option Nat :=
  if mem (pteAt pt i) = 0 then none else some (p2k (pteAddress (mem (pteAt pt i))))

/-- `get_pte(pgdir, va, false)`: the address of the entry. -/
def getPte (pt va : Nat) : Option Nat :=
  if pt = 0 then none
  else
    (nextTable mem pt (vaPart0 va)).bind fun pt1 =>
    (nextTable mem pt1 (vaPart1 va)).bind fun pt2 =>
    (nextTable mem pt2 (vaPart2 va)).bind fun pt3 =>
    some (pteAt pt3 (vaPart3 va))

/-! ## The hardware -/

/-- A table descriptor that the hardware follows. -/
def validTable (pt i : Nat) : Option Nat :=
  if mem (pteAt pt i) &&& PTE_VALID = 0 then none
  else some (p2k (pteAddress (mem (pteAt pt i))))

/-- The valid entry of the page that a user address is in. -/
def translate (pt va : Nat) : Option Nat :=
  if pt = 0 ∨ USERTOP ≤ va then none
  else
    (validTable mem pt (vaPart0 va)).bind fun pt1 =>
    (validTable mem pt1 (vaPart1 va)).bind fun pt2 =>
    (validTable mem pt2 (vaPart2 va)).bind fun pt3 =>
    if mem (pteAt pt3 (vaPart3 va)) &&& PTE_VALID = 0 then none
    else some (mem (pteAt pt3 (vaPart3 va)))

/-- The user may read the byte at `va`. -/
def UserReadable (pt va : Nat) : Prop :=
  ∃ pte, translate mem pt va = some pte ∧ pte &&& PTE_USER ≠ 0

/-- The user may write the byte at `va`. -/
def UserWriteable (pt va : Nat) : Prop :=
  ∃ pte, translate mem pt va = some pte ∧ pte &&& PTE_USER ≠ 0 ∧ pte &&& PTE_RO = 0

end

/-! ## Pages -/

theorem shiftRight_and_nine (va k : Nat) : (va &&& (511 <<< k)) >>> k = va / 2 ^ k % 512 := by
  rw [Nat.shiftRight_and_distrib, Nat.shiftLeft_shiftRight, Nat.shiftRight_eq_div_pow]
  exact Nat.and_two_pow_sub_one_eq_mod _ 9

theorem vaPart0_eq (va : Nat) : vaPart0 va = va / PAGE_SIZE / 2 ^ 27 % 512 := by
  rw [Nat.div_div_eq_div_mul]
  exact shiftRight_and_nine va 39

theorem vaPart1_eq (va : Nat) : vaPart1 va = va / PAGE_SIZE / 2 ^ 18 % 512 := by
  rw [Nat.div_div_eq_div_mul]
  exact shiftRight_and_nine va 30

theorem vaPart2_eq (va : Nat) : vaPart2 va = va / PAGE_SIZE / 2 ^ 9 % 512 := by
  rw [Nat.div_div_eq_div_mul]
  exact shiftRight_and_nine va 21

theorem vaPart3_eq (va : Nat) : vaPart3 va = va / PAGE_SIZE % 512 := shiftRight_and_nine va 12

theorem getPte_congr {mem : Nat → Nat} {pt va va' : Nat} (h : va / PAGE_SIZE = va' / PAGE_SIZE) :
    getPte mem pt va = getPte mem pt va' := by
  simp only [getPte, vaPart0_eq, vaPart1_eq, vaPart2_eq, vaPart3_eq, h]

/-! ## Walks without invalid entries -/

section

variable (mem : Nat → Nat)

def EntryOk (pt i : Nat) : Prop := mem (pteAt pt i) ≠ 0 → mem (pteAt pt i) &&& PTE_VALID ≠ 0

/-- All entries that the walk for `va` reads are valid or zero. -/
def WalkOk (pt va : Nat) : Prop :=
  EntryOk mem pt (vaPart0 va) ∧
    ∀ pt1 ∈ nextTable mem pt (vaPart0 va), EntryOk mem pt1 (vaPart1 va) ∧
      ∀ pt2 ∈ nextTable mem pt1 (vaPart1 va), EntryOk mem pt2 (vaPart2 va) ∧
        ∀ pt3 ∈ nextTable mem pt2 (vaPart2 va), EntryOk mem pt3 (vaPart3 va)

variable {mem}

theorem EntryOk.valid_iff {pt i : Nat} (h : EntryOk mem pt i) :
    mem (pteAt pt i) &&& PTE_VALID = 0 ↔ mem (pteAt pt i) = 0 := by
  constructor
  · intro hv
    by_contra hne
    exact h hne hv
  · intro hz
    rw [hz, Nat.zero_and]

theorem EntryOk.validTable_eq {pt i : Nat} (h : EntryOk mem pt i) :
    validTable mem pt i = nextTable mem pt i := by
  simp only [validTable, nextTable, h.valid_iff]

/-- A table descriptor that the hardware follows is one that `get_pte` follows. -/
theorem entryOk_of_validTable {pt i next : Nat} (h : validTable mem pt i = some next) :
    EntryOk mem pt i ∧ ∀ n ∈ nextTable mem pt i, n = next := by
  rw [validTable] at h
  split at h
  next => cases h
  next hv =>
    refine ⟨fun _ => hv, fun n hn => ?_⟩
    rw [nextTable] at hn
    split at hn
    · cases hn
    · exact Option.some.inj (hn.symm.trans h)

theorem walkOk_of_translate {pt va pte : Nat} (h : translate mem pt va = some pte) :
    WalkOk mem pt va := by
  rw [translate] at h
  split at h
  · cases h
  obtain ⟨pt1, h0, h⟩ := Option.bind_eq_some_iff.mp h
  obtain ⟨pt2, h1, h⟩ := Option.bind_eq_some_iff.mp h
  obtain ⟨pt3, h2, h⟩ := Option.bind_eq_some_iff.mp h
  obtain ⟨hok0, hnext0⟩ := entryOk_of_validTable h0
  obtain ⟨hok1, hnext1⟩ := entryOk_of_validTable h1
  obtain ⟨hok2, hnext2⟩ := entryOk_of_validTable h2
  refine ⟨hok0, fun n hn => ?_⟩
  rw [hnext0 n hn]
  refine ⟨hok1, fun n hn => ?_⟩
  rw [hnext1 n hn]
  refine ⟨hok2, fun n hn => ?_⟩
  rw [hnext2 n hn]
  intro _ hv
  rw [if_pos hv] at h
  cases h

theorem translate_eq {pt va : Nat} (hpt : WalkOk mem pt va) (hva : va < USERTOP) :
    translate mem pt va =
      (getPte mem pt va).bind fun p => if mem p = 0 then none else some (mem p) := by
  obtain ⟨h0, h1⟩ := hpt
  have hlow : ¬ USERTOP ≤ va := Nat.not_le.mpr hva
  obtain hz | hz := eq_or_ne pt 0
  · simp [translate, getPte, hz]
  simp only [translate, getPte, hz, hlow, or_self, if_false, h0.validTable_eq, Option.bind_assoc]
  apply Option.bind_congr
  intro pt1 hpt1
  obtain ⟨h1, h2⟩ := h1 pt1 hpt1
  rw [h1.validTable_eq]
  apply Option.bind_congr
  intro pt2 hpt2
  obtain ⟨h2, h3⟩ := h2 pt2 hpt2
  rw [h2.validTable_eq]
  apply Option.bind_congr
  intro pt3 hpt3
  simp only [(h3 pt3 hpt3).valid_iff, Option.bind_some]

end

end OsKernel
