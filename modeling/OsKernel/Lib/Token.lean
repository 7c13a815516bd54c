import Mathlib.Algebra.Order.Ring.Int

/-!
# One token

A lock is a token that is available, or with one process.  `One v t` says so of a
counter `v`, positive when the token is available, and of the number `t p` of
tokens that each process has.  The rules say how the token moves.
-/

namespace Token

open Function

variable {P : Type} [DecidableEq P] {v : Int} {t : P → Nat}

/-- The token is available and nobody has it, or one process has it. -/
def One (v : Int) (t : P → Nat) : Prop :=
  (v = 1 ∧ ∀ p, t p = 0) ∨ (v ≤ 0 ∧ ∃ p, t p = 1 ∧ ∀ q, q ≠ p → t q = 0)

omit [DecidableEq P] in
/-- At the start the token is available. -/
theorem One.init : One 1 (fun _ : P => 0) := Or.inl ⟨rfl, fun _ => rfl⟩

omit [DecidableEq P] in
theorem One.le_one (h : One v t) : v ≤ 1 := by
  rcases h with ⟨rfl, -⟩ | ⟨hv, -⟩
  · exact Int.le_refl 1
  · omega

omit [DecidableEq P] in
/-- Nobody has the token twice. -/
theorem One.tokens_le (h : One v t) (p : P) : t p ≤ 1 := by
  rcases h with ⟨-, hz⟩ | ⟨-, o, ho, hz⟩
  · rw [hz p]
    exact Nat.zero_le 1
  · by_cases hp : p = o
    · rw [hp, ho]
    · rw [hz p hp]
      exact Nat.zero_le 1

omit [DecidableEq P] in
/-- Only one process has the token. -/
theorem One.unique (h : One v t) {p q : P} (hp : 0 < t p) (hq : 0 < t q) : p = q := by
  rcases h with ⟨-, hz⟩ | ⟨-, o, -, hz⟩
  · rw [hz p] at hp
    exact absurd hp (Nat.lt_irrefl 0)
  have howner : ∀ {r}, 0 < t r → r = o := by
    intro r hr
    by_contra hne
    rw [hz r hne] at hr
    exact absurd hr (Nat.lt_irrefl 0)
  rw [howner hp, howner hq]

omit [DecidableEq P] in
theorem One.nonpos (h : One v t) {p : P} (hp : 0 < t p) : v ≤ 0 := by
  rcases h with ⟨-, hz⟩ | ⟨hv, -⟩
  · rw [hz p] at hp
    exact absurd hp (Nat.lt_irrefl 0)
  · exact hv

/-- The token is taken when it is available. -/
theorem One.take (h : One v t) (hv : 0 < v) (p : P) : v = 1 ∧ t p = 0 ∧ One 0 (update t p 1) := by
  rcases h with ⟨rfl, hz⟩ | ⟨hv', -⟩
  · refine ⟨rfl, hz p, Or.inr ⟨Int.le_refl 0, p, update_self _ _ _, fun q hq => ?_⟩⟩
    rw [update_of_ne hq, hz q]
  · omega

omit [DecidableEq P] in
/-- A process that does not get the token is counted. -/
theorem One.wait (h : One v t) (hv : v ≤ 0) : One (v - 1) t := by
  rcases h with ⟨rfl, -⟩ | ⟨-, howner⟩
  · omega
  · exact Or.inr ⟨by omega, howner⟩

/-- The token is given back while nobody waits. -/
theorem One.free (h : One v t) {p : P} (hp : 0 < t p) (hv : 0 ≤ v) :
    v = 0 ∧ One 1 (update t p 0) := by
  have hv' := h.nonpos hp
  refine ⟨by omega, Or.inl ⟨rfl, fun q => ?_⟩⟩
  by_cases hq : q = p
  · rw [hq, update_self]
  · rw [update_of_ne hq]
    exact Nat.eq_zero_of_not_pos fun hpos => hq (h.unique hpos hp)

/-- The token goes to a process that waits. -/
theorem One.pass (h : One v t) {p : P} (hp : 0 < t p) (hv : v < 0) (q : P) :
    One (v + 1) (update (update t p 0) q 1) := by
  refine Or.inr ⟨by omega, q, update_self _ _ _, fun r hr => ?_⟩
  rw [update_of_ne hr]
  by_cases hrp : r = p
  · rw [hrp, update_self]
  · rw [update_of_ne hrp]
    exact Nat.eq_zero_of_not_pos fun hpos => hrp (h.unique hpos hp)

end Token
