import Mathlib.Algebra.BigOperators.Group.Finset.Piecewise
import Mathlib.Tactic.Abel
import OsKernel.Lib.Runs

/-!
# Threads over atomic actions

A program is a tree of atomic actions on a shared state (`Code`): a node performs an action
and goes on with its result.  In a pool every thread has such a program.  One step performs the next
action of one thread, and a thread whose program has returned may start another one.

Proofs give every thread a ghost value.  An action is described by what it needs of the ghost
value of its thread and what it makes of it (`spec`), which gives a weakest precondition for
programs (`Code.wp`).  An invariant over the shared state and the ghosts of all threads holds in
every run if each action keeps it (`Pool.Reach.holds`).
-/

open Function

theorem sum_update {ι A β : Type} [DecidableEq ι] [AddCommGroup A] {s : Finset ι} {i : ι}
    (hi : i ∈ s) (g : β → A) (f : ι → β) (x : β) :
    ∑ j ∈ s, g (update f i x j) = ∑ j ∈ s, g (f j) + (g x - g (f i)) := by
  have hup : (fun j => g (update f i x j)) = update (fun j => g (f j)) i (g x) := by
    funext j
    by_cases hj : j = i <;> simp [hj]
  rw [hup, Finset.sum_update_of_mem hi, Finset.sdiff_singleton_eq_erase,
    ← Finset.add_sum_erase s (fun j => g (f j)) hi]
  abel

/-- A program with actions `A`, whose results have the types `R`, that returns an `α`. -/
inductive Code (A : Type) (R : A → Type) (α : Type) where
  | ret (a : α)
  | act (a : A) (k : R a → Code A R α)

namespace Code

variable {A : Type} {R : A → Type} {α : Type}

def next : Code A R α → Option A
  | ret _ => none
  | act a _ => some a

def run {σ ε : Type} (exec : (a : A) → σ → Except ε (R a × σ)) : Code A R α → σ → Except ε (α × σ)
  | ret a, s => .ok (a, s)
  | act a k, s =>
    match exec a s with
    | .ok (r, s') => (k r).run exec s'
    | .error e => .error e

/-! ## Weakest preconditions -/

variable {L : Type} (spec : (a : A) → L → (R a → L → Prop) → Prop)

/-- The ghost values from which every result of the program has `Q`. -/
def wp : Code A R α → L → (α → L → Prop) → Prop
  | ret a, g, Q => Q a g
  | act a k, g, Q => spec a g fun r g' => (k r).wp g' Q

end Code

/-! ## Pools of threads -/

/-- A shared state and the programs of the threads `ι`. -/
structure Pool (ι σ A : Type) (R : A → Type) (P : Type) where
  shared : σ
  code : ι → Code A R P

namespace Pool

variable {ι σ A : Type} {R : A → Type} {P κ : Type}

inductive Label (ι κ : Type) where
  | start (t : ι) (c : κ)
  | run (t : ι)

section

variable [DecidableEq ι] (exec : (a : A) → ι → σ → Except Runs.Stop (R a × σ))
  (body : κ → P → Code A R P)

/-- A thread that has returned starts the program of a call, or the next action of a thread
is performed. -/
def step (s : Pool ι σ A R P) : Label ι κ → Except Runs.Stop (Pool ι σ A R P)
  | .start t c =>
    match s.code t with
    | .ret p => .ok { s with code := update s.code t (body c p) }
    | .act _ _ => .error .disabled
  | .run t =>
    match s.code t with
    | .ret _ => .error .disabled
    | .act a k =>
      match exec a t s.shared with
      | .ok (r, σ') => .ok ⟨σ', update s.code t (k r)⟩
      | .error e => .error e

/-- The side condition `ok` on the pool and the next action of the thread. -/
def Ok (ok : Pool ι σ A R P → ι → A → Prop) (s : Pool ι σ A R P) : Label ι κ → Prop
  | .start _ _ => True
  | .run t => ∀ a ∈ (s.code t).next, ok s t a

instance (ok : Pool ι σ A R P → ι → A → Prop) [∀ s t a, Decidable (ok s t a)]
    (s : Pool ι σ A R P) : ∀ l : Label ι κ, Decidable (Ok ok s l)
  | .start _ _ => instDecidableTrue
  | .run t => inferInstanceAs (Decidable (∀ a ∈ (s.code t).next, ok s t a))

variable {exec body} {L : Type} {spec : (a : A) → L → (R a → L → Prop) → Prop}
  {ok : Pool ι σ A R P → ι → A → Prop} {I : σ → (ι → L) → Prop} {Done : P → L → Prop}

/-- The invariant with ghosts for which every program goes on well. -/
def Holds (spec : (a : A) → L → (R a → L → Prop) → Prop) (I : σ → (ι → L) → Prop)
    (Done : P → L → Prop) (s : Pool ι σ A R P) : Prop :=
  ∃ G : ι → L, I s.shared G ∧ ∀ t, (s.code t).wp spec (G t) Done

theorem Holds.step (hstart : ∀ c p g, Done p g → (body c p).wp spec g Done)
    (hact : ∀ a t (s : Pool ι σ A R P) G (Q : R a → L → Prop) r σ', I s.shared G →
      (∀ u, (s.code u).wp spec (G u) Done) → ok s t a → spec a (G t) Q →
      exec a t s.shared = .ok (r, σ') → ∃ g', Q r g' ∧ I σ' (update G t g'))
    {s s' : Pool ι σ A R P} {l : Label ι κ} (h : Holds spec I Done s) (hok : Ok ok s l)
    (hs : step exec body s l = .ok s') : Holds spec I Done s' := by
  obtain ⟨G, hI, hG⟩ := h
  cases l with
  | start t c =>
    rw [Pool.step] at hs
    cases hc : s.code t with
    | act a k =>
      rw [hc] at hs
      cases hs
    | ret p =>
      rw [hc] at hs
      cases hs
      refine ⟨G, hI, fun u => ?_⟩
      have hp := hG t
      rw [hc] at hp
      obtain rfl | hu := eq_or_ne u t
      · simpa only [update_self] using hstart c p _ hp
      · simpa only [update_of_ne hu] using hG u
  | run t =>
    rw [Pool.step] at hs
    rw [Ok] at hok
    have hp := hG t
    cases hc : s.code t with
    | ret p =>
      rw [hc] at hs
      cases hs
    | act a k =>
      rw [hc] at hs hp
      dsimp only at hs
      cases he : exec a t s.shared with
      | error e =>
        rw [he] at hs
        cases hs
      | ok out =>
        rw [he] at hs
        cases hs
        obtain ⟨g', hg', hI'⟩ := hact a t s G _ out.1 out.2 hI hG (hok a (hc ▸ rfl)) hp he
        refine ⟨update G t g', hI', fun u => ?_⟩
        obtain rfl | hu := eq_or_ne u t
        · simpa only [update_self] using hg'
        · simpa only [update_of_ne hu] using hG u

theorem holds_of_reach {init : Pool ι σ A R P → Prop} (hinit : ∀ s, init s → Holds spec I Done s)
    (hstart : ∀ c p g, Done p g → (body c p).wp spec g Done)
    (hact : ∀ a t (s : Pool ι σ A R P) G (Q : R a → L → Prop) r σ', I s.shared G →
      (∀ u, (s.code u).wp spec (G u) Done) → ok s t a → spec a (G t) Q →
      exec a t s.shared = .ok (r, σ') → ∃ g', Q r g' ∧ I σ' (update G t g'))
    {s : Pool ι σ A R P} (h : Runs.Reach (step exec body) (Ok ok) init s) :
    Holds spec I Done s :=
  h.invariant hinit fun _ _ _ hs hok hst => hs.step hstart hact hok hst

end

end Pool
