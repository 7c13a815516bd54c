import Mathlib.Tactic.Common
import Mathlib.Data.List.GetD

/-!
# Strings

The functions of `common/string.c` that the file system uses.  A pointer to
characters is the function that reads them.
-/

namespace OsKernel

variable {name : List UInt8} {n : Nat}

/-- What `memcpy(dest + off, src, n)` leaves in `dest`. -/
def memcpy (dest : Nat → UInt8) (off n : Nat) (src : Nat → UInt8) (i : Nat) : UInt8 :=
  if off ≤ i ∧ i < off + n then src (i - off) else dest i

/-- `strncmp(s1 + i, s2 + i, n)`. -/
def strncmpFrom (s1 s2 : Nat → UInt8) : Nat → Nat → Int
  | _, 0 => 0
  | i, n + 1 =>
    if s1 i ≠ s2 i then ((s1 i).toNat : Int) - (s2 i).toNat
    else if s1 i = 0 then 0
    else strncmpFrom s1 s2 (i + 1) n

def strncmp (s1 s2 : Nat → UInt8) (n : Nat) : Int := strncmpFrom s1 s2 0 n

/-- The characters that `strncpy` puts into its target: those of `src` up to the
first `NUL`, and `NUL`s from there on. -/
def strncpy (src : Nat → UInt8) (i : Nat) : UInt8 :=
  if (List.range i).all fun j => src j != 0 then src i else 0

/-- A string literal. -/
def cstr (s : List UInt8) (i : Nat) : UInt8 := s.getD i 0

theorem strncmpFrom_eq_zero {s1 s2 : Nat → UInt8} : ∀ {i : Nat},
    strncmpFrom s1 s2 i n = 0 ↔ ∀ j < n, (∀ k < j, s1 (i + k) ≠ 0) → s1 (i + j) = s2 (i + j) := by
  induction n with
  | zero => exact ⟨fun _ j hj => absurd hj (Nat.not_lt_zero j), fun _ => rfl⟩
  | succ n ih =>
    intro i
    rw [strncmpFrom]
    by_cases hne : s1 i = s2 i
    · rw [if_neg (not_not.mpr hne)]
      by_cases h0 : s1 i = 0
      · rw [if_pos h0]
        refine ⟨fun _ j _ hk => ?_, fun _ => rfl⟩
        rcases Nat.eq_zero_or_pos j with rfl | hj
        · exact hne
        · exact absurd h0 (hk 0 hj)
      rw [if_neg h0, ih]
      constructor
      · intro h j hj hk
        rcases j with _ | j
        · exact hne
        · have := h j (by omega) fun k hkj => by
            rw [Nat.add_assoc, Nat.add_comm 1]
            exact hk (k + 1) (by omega)
          rwa [Nat.add_assoc, Nat.add_comm 1] at this
      · intro h j hj hk
        have := h (j + 1) (by omega) fun k hkj => by
          rcases k with _ | k
          · exact h0
          · have := hk k (by omega)
            rwa [Nat.add_assoc, Nat.add_comm 1] at this
        rwa [Nat.add_assoc, Nat.add_comm 1]
    · rw [if_pos hne]
      refine ⟨fun h => ?_, fun h => ?_⟩
      · have : (s1 i).toNat = (s2 i).toNat := by omega
        exact absurd (UInt8.toNat_inj.mp this) hne
      · exact absurd (h 0 (Nat.succ_pos n) fun k hk => absurd hk (Nat.not_lt_zero k)) hne

theorem strncmpFrom_congr {s1 s1' s2 : Nat → UInt8} : ∀ {i : Nat},
    (∀ j < n, (∀ k < j, s1 (i + k) ≠ 0) → s1' (i + j) = s1 (i + j)) →
    strncmpFrom s1' s2 i n = strncmpFrom s1 s2 i n := by
  induction n with
  | zero => exact fun _ => rfl
  | succ n ih =>
    intro i h
    have h0 : s1' i = s1 i := h 0 (Nat.succ_pos n) fun k hk => absurd hk (Nat.not_lt_zero k)
    rw [strncmpFrom, strncmpFrom, h0]
    split
    · rfl
    split
    · rfl
    next hne =>
      refine ih fun j hj hk => ?_
      rw [Nat.add_assoc, Nat.add_comm 1]
      refine h (j + 1) (Nat.succ_lt_succ hj) fun k hkj => ?_
      cases k with
      | zero => exact hne
      | succ k =>
        have := hk k (Nat.lt_of_succ_lt_succ hkj)
        rwa [Nat.add_assoc, Nat.add_comm 1] at this

theorem strncmp_cstr_eq_zero {s : Nat → UInt8} (hlen : name.length < n) (hnul : ∀ c ∈ name, c ≠ 0) :
    strncmp (cstr name) s n = 0 ↔ ∀ j ≤ name.length, s j = name.getD j 0 := by
  rw [strncmp, strncmpFrom_eq_zero]
  simp only [Nat.zero_add, cstr]
  have hne : ∀ k < name.length, name.getD k 0 ≠ 0 := fun k hk => by
    rw [List.getD_eq_getElem _ _ hk]
    exact hnul _ (List.getElem_mem hk)
  constructor
  · intro h j hj
    exact (h j (by omega) fun k hk => hne k (by omega)).symm
  · intro h j _ hk
    by_cases hj : j ≤ name.length
    · exact (h j hj).symm
    · refine absurd ?_ (hk name.length (by omega))
      rw [List.getD_eq_default _ _ (Nat.le_refl _)]

theorem strncpy_cstr (hnul : ∀ c ∈ name, c ≠ 0) (i : Nat) :
    strncpy (cstr name) i = name.getD i 0 := by
  rw [strncpy]
  split
  · rfl
  next h =>
    by_cases hi : i < name.length
    · refine absurd (List.all_eq_true.mpr fun j hj => ?_) h
      have hj := List.mem_range.mp hj
      rw [cstr, List.getD_eq_getElem _ _ (Nat.lt_trans hj hi)]
      exact bne_iff_ne.mpr (hnul _ (List.getElem_mem _))
    · rw [List.getD_eq_default _ _ (Nat.le_of_not_lt hi)]

end OsKernel
