import Mathlib.Tactic.Common

/-!
# Runs of a labelled transition function

A system is a function `step` from a state and a label to the next state, or to
an error: the label is not enabled there, or the program stops.  A *run* starts
in an initial state and takes finitely many steps, each of which meets a side
condition `ok` on the state it starts from and its label.  `Reach` collects the
states of all runs; the side condition that is always true gives every run.

An invariant is proved from its initial case and its step case
(`Reach.invariant`).  A concrete run is a list of labels that `exec` evaluates
(`Reach.of_exec`); `guarded` tests the side condition along it.
-/

namespace Runs

variable {σ ℓ ε : Type}

inductive Stop where
  /-- The step is not the next one of any process. -/
  | disabled
  /-- An assertion of the program fails. -/
  | panic
deriving DecidableEq, Repr

/-- States reached from an initial state by steps that all meet `ok`. -/
inductive Reach (step : σ → ℓ → Except ε σ) (ok : σ → ℓ → Prop) (init : σ → Prop) : σ → Prop where
  | init {s : σ} : init s → Reach step ok init s
  | step {s s' : σ} {l : ℓ} :
      Reach step ok init s → ok s l → step s l = .ok s' → Reach step ok init s'

def always : σ → ℓ → Prop := fun _ _ => True

variable {step : σ → ℓ → Except ε σ} {ok ok' : σ → ℓ → Prop} {init : σ → Prop}

/-- What holds initially and is kept by every step holds in every state of
every run. -/
theorem Reach.invariant {I : σ → Prop} (hinit : ∀ s, init s → I s)
    (hstep : ∀ s l s', I s → ok s l → step s l = .ok s' → I s') {s : σ}
    (h : Reach step ok init s) : I s := by
  induction h with
  | init hs => exact hinit _ hs
  | step _ hok hs ih => exact hstep _ _ _ ih hok hs

/-- An invariant may use, in its step case, another invariant of the same
runs. -/
theorem Reach.invariant_of {I J : σ → Prop} (hJ : ∀ s, Reach step ok init s → J s)
    (hinit : ∀ s, init s → I s)
    (hstep : ∀ s l s', J s → I s → ok s l → step s l = .ok s' → I s') {s : σ}
    (h : Reach step ok init s) : I s := by
  induction h with
  | init hs => exact hinit _ hs
  | step hr hok hs ih => exact hstep _ _ _ (hJ _ hr) ih hok hs

theorem Reach.mono (hok : ∀ s l, ok s l → ok' s l) {s : σ} (h : Reach step ok init s) :
    Reach step ok' init s := by
  induction h with
  | init hs => exact .init hs
  | step _ hl hs ih => exact .step ih (hok _ _ hl) hs

/-- A step that has been made has passed its guard. -/
theorem guard_ok {c : Prop} [Decidable c] {x : Except ε σ} {e : ε} {s : σ}
    (h : (if c then x else .error e) = .ok s) : c ∧ x = .ok s := by
  split at h
  next hc => exact ⟨hc, h⟩
  next => cases h

theorem not_guard_ok {c : Prop} [Decidable c] {x : Except ε σ} {e : ε} {s : σ}
    (h : (if c then .error e else x) = .ok s) : ¬ c ∧ x = .ok s := by
  split at h
  next => cases h
  next hc => exact ⟨hc, h⟩

def exec (step : σ → ℓ → Except ε σ) : σ → List ℓ → Except ε σ
  | s, [] => .ok s
  | s, l :: ls =>
    match step s l with
    | .ok s' => exec step s' ls
    | .error e => .error e

/-- A run may go on with labels that meet the side condition in every state. -/
theorem Reach.exec {s s' : σ} {ls : List ℓ} (hs : Reach step ok init s)
    (hok : ∀ l ∈ ls, ∀ s, ok s l) (h : exec step s ls = .ok s') : Reach step ok init s' := by
  induction ls generalizing s with
  | nil =>
    rw [Runs.exec, Except.ok.injEq] at h
    exact h ▸ hs
  | cons l ls ih =>
    rw [Runs.exec] at h
    split at h
    next s1 hs1 =>
      exact ih (.step hs (hok l (.head _) s) hs1) (fun l' hl' => hok l' (.tail _ hl')) h
    next => cases h

theorem Reach.of_exec {s s' : σ} {ls : List ℓ} (hs : init s)
    (h : Runs.exec step s ls = .ok s') : Reach step always init s' :=
  .exec (.init hs) (fun _ _ _ => trivial) h

/-- Does the state after the labels exist and pass the test `q`? -/
def execTest (step : σ → ℓ → Except ε σ) (s : σ) (ls : List ℓ) (q : σ → Bool) : Bool :=
  match exec step s ls with
  | .ok s' => q s'
  | .error _ => false

theorem exists_of_execTest {s : σ} {ls : List ℓ} {q : σ → Bool}
    (h : execTest step s ls q = true) : ∃ s', exec step s ls = .ok s' ∧ q s' = true := by
  rw [execTest] at h
  split at h
  next s' hs' => exact ⟨s', hs', h⟩
  next => cases h

theorem Reach.of_execTest {s : σ} {ls : List ℓ} {q : σ → Bool} (hs : init s)
    (h : execTest step s ls q = true) : ∃ s', Reach step always init s' ∧ q s' = true := by
  obtain ⟨s', hs', hq⟩ := exists_of_execTest h
  exact ⟨s', .of_exec hs hs', hq⟩

/-- The system that takes only the steps that pass the test `q`. -/
def guarded (step : σ → ℓ → Except ε σ) (q : σ → ℓ → Bool) (e : ε) (s : σ) (l : ℓ) : Except ε σ :=
  if q s l then step s l else .error e

theorem step_of_guarded {q : σ → ℓ → Bool} {e : ε} {s s' : σ} {l : ℓ}
    (h : guarded step q e s l = .ok s') : q s l = true ∧ step s l = .ok s' := by
  unfold guarded at h
  split at h
  next hq => exact ⟨hq, h⟩
  next => cases h

/-- A run of the guarded system meets every side condition that the test implies
in the states of such runs. -/
theorem Reach.of_guarded {q : σ → ℓ → Bool} {e : ε} {J : σ → Prop}
    (hJ : ∀ s, Reach (guarded step q e) always init s → J s)
    (hok : ∀ s l, J s → q s l = true → ok s l) {s : σ}
    (h : Reach (guarded step q e) always init s) : Reach step ok init s := by
  induction h with
  | init hs => exact .init hs
  | step hr _ hs ih =>
    obtain ⟨hq, hs⟩ := step_of_guarded hs
    exact .step ih (hok _ _ (hJ _ hr) hq) hs

/-- A list of labels that all meet the side condition, and whose last state passes a test. -/
theorem Reach.of_guardedTest [∀ s l, Decidable (ok s l)] {e : ε} {s : σ} {ls : List ℓ}
    {q : σ → Bool} (hs : init s)
    (h : execTest (guarded step (fun s l => decide (ok s l)) e) s ls q = true) :
    ∃ s', Reach step ok init s' ∧ q s' = true := by
  obtain ⟨s', hs', hq⟩ := Reach.of_execTest hs h
  exact ⟨s', hs'.of_guarded (J := fun _ => True) (fun _ _ => trivial)
    fun _ _ _ hd => of_decide_eq_true hd, hq⟩

/-! ## States of processes -/

section

variable {ι β γ : Type} [DecidableEq ι] {f : ι → β} {i j : ι} {v : β}

theorem proj_update (g : β → γ) (h : g v = g (f i)) (j : ι) : g (Function.update f i v j) = g (f j) := by
  by_cases hj : j = i
  · rw [hj, Function.update_self, h]
  · rw [Function.update_of_ne hj]

theorem of_update (g : β → γ) {y : γ} (h : g (Function.update f i v j) = y) (hv : g v ≠ y) :
    j ≠ i ∧ g (f j) = y := by
  by_cases hj : j = i
  · rw [hj, Function.update_self] at h
    exact absurd h hv
  · rw [Function.update_of_ne hj] at h
    exact ⟨hj, h⟩

end

end Runs
