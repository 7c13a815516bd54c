import Mathlib.Tactic.Common

/-!
# Programs that stop early, and triples

A program over a state `σ` returns a value or stops with a reason `ε`; either
way there is a final state.  `Triple P x Q E` says that `x`, started where `P`
holds, returns `a` in a state of `Q a` or stops in a state of `E`.
-/

/-- Programs with state `σ` that may stop with a reason `ε`. -/
abbrev Prog (ε σ : Type) := ExceptT ε (StateM σ)

namespace Prog

variable {ε σ α β : Type}

/-- The result of a program, and its final state. -/
def exec (x : Prog ε σ α) (s : σ) : Except ε α × σ := x.run.run s

theorem ext_exec {x y : Prog ε σ α} (h : ∀ s, x.exec s = y.exec s) : x = y := funext h

@[simp] theorem exec_pure (a : α) (s : σ) : (pure a : Prog ε σ α).exec s = (.ok a, s) := rfl

@[simp] theorem exec_throw (e : ε) (s : σ) : (throw e : Prog ε σ α).exec s = (.error e, s) := rfl

@[simp] theorem exec_get (s : σ) : (get : Prog ε σ σ).exec s = (.ok s, s) := rfl

@[simp] theorem exec_set (s s' : σ) : (set s' : Prog ε σ PUnit).exec s = (.ok ⟨⟩, s') := rfl

@[simp] theorem exec_modify (f : σ → σ) (s : σ) :
    (modify f : Prog ε σ PUnit).exec s = (.ok ⟨⟩, f s) := rfl

/-- The second program starts where the first one has returned. -/
theorem exec_bind (x : Prog ε σ α) (f : α → Prog ε σ β) (s : σ) : (x >>= f).exec s =
      match x.exec s with
      | (.ok a, s') => (f a).exec s'
      | (.error e, s') => (.error e, s') := by
  show (match (x.exec s).1 with
    | .ok a => (f a).run
    | .error e => pure (.error e)).run (x.exec s).2 = _
  rcases x.exec s with ⟨a | a, s'⟩ <;> rfl

theorem exec_bind_ok {x : Prog ε σ α} {f : α → Prog ε σ β} {s s' : σ} {a : α}
    (h : x.exec s = (.ok a, s')) : (x >>= f).exec s = (f a).exec s' := by
  rw [exec_bind, h]

theorem exec_bind_error {x : Prog ε σ α} {f : α → Prog ε σ β} {s s' : σ} {e : ε}
    (h : x.exec s = (.error e, s')) : (x >>= f).exec s = (.error e, s') := by
  rw [exec_bind, h]

/-! ## Programs on a part of the state -/

/-- Run a program on a part of the state, read with `g` and put back with `p`. -/
def zoom {τ : Type} (g : σ → τ) (p : τ → σ → σ) (x : Prog ε τ α) : Prog ε σ α :=
  ExceptT.mk fun s => ((x.exec (g s)).1, p (x.exec (g s)).2 s)

theorem exec_zoom {τ : Type} (g : σ → τ) (p : τ → σ → σ) (x : Prog ε τ α) (s : σ) :
    (zoom g p x).exec s = ((x.exec (g s)).1, p (x.exec (g s)).2 s) := rfl

/-! ## Triples -/

/-- The result `a` meets `Q a`, and a stop meets `E`. -/
def Post (Q : α → σ → Prop) (E : σ → Prop) : Except ε α × σ → Prop
  | (.ok a, s) => Q a s
  | (.error _, s) => E s

theorem Post.imp {Q Q' : α → σ → Prop} {E E' : σ → Prop} {r : Except ε α × σ} (h : Post Q E r)
    (hQ : ∀ a s, Q a s → Q' a s) (hE : ∀ s, E s → E' s) : Post Q' E' r := by
  match r, h with
  | (.ok a, s), h => exact hQ a s h
  | (.error _, s), h => exact hE s h

theorem Post.of_ok {Q : α → σ → Prop} {E : σ → Prop} {x : Prog ε σ α} {s s' : σ} {a : α}
    (hx : x.exec s = (.ok a, s')) (h : Q a s') : Post Q E (x.exec s) := by
  rw [hx]
  exact h

theorem Post.returns {Q : α → σ → Prop} {E : σ → Prop} {x : Prog ε σ α} {s : σ}
    (h : Post Q E (x.exec s)) (hE : ∀ s', ¬ E s') : ∃ a s', x.exec s = (.ok a, s') ∧ Q a s' := by
  match hx : x.exec s, h with
  | (.ok a, s'), hq => exact ⟨a, s', rfl, hq⟩
  | (.error _, s'), he => exact absurd he (hE s')

/-- The rule for sequences, from a given state. -/
theorem Post.bind {Q : α → σ → Prop} {R : β → σ → Prop} {E : σ → Prop} {x : Prog ε σ α}
    {f : α → Prog ε σ β} {s : σ} (hx : Post Q E (x.exec s))
    (hf : ∀ a s', Q a s' → Post R E ((f a).exec s')) : Post R E ((x >>= f).exec s) := by
  rw [exec_bind]
  match hxs : x.exec s, hx with
  | (.ok a, s'), hq => exact hf a s' hq
  | (.error _, _), he => exact he

def Triple (P : σ → Prop) (x : Prog ε σ α) (Q : α → σ → Prop) (E : σ → Prop) : Prop :=
  ∀ s, P s → Post Q E (x.exec s)

/-- A triple that says nothing of the runs that stop. -/
abbrev Hoare (P : σ → Prop) (x : Prog ε σ α) (Q : α → σ → Prop) : Prop := Triple P x Q fun _ => True

namespace Triple

variable {P P' : σ → Prop} {Q Q' : α → σ → Prop} {R : β → σ → Prop} {E E' : σ → Prop}
  {x : Prog ε σ α} {f : α → Prog ε σ β}

theorem conseq (h : Triple P x Q E) (hP : ∀ s, P' s → P s) (hQ : ∀ a s, Q a s → Q' a s)
    (hE : ∀ s, E s → E' s) : Triple P' x Q' E' := fun s hs => (h s (hP s hs)).imp hQ hE

/-- The two ways in which a program can end. -/
theorem elim (h : Triple P x Q E) {s : σ} (hs : P s) :
    (∃ a s', x.exec s = (.ok a, s') ∧ Q a s') ∨ (∃ e s', x.exec s = (.error e, s') ∧ E s') := by
  have hpost := h s hs
  match hx : x.exec s, hpost with
  | (.ok a, s'), hq => exact Or.inl ⟨a, s', rfl, hq⟩
  | (.error e, s'), he => exact Or.inr ⟨e, s', rfl, he⟩

/-- A stronger precondition. -/
theorem pre (h : Triple P x Q E) (hP : ∀ s, P' s → P s) : Triple P' x Q E :=
  fun s hs => h s (hP s hs)

/-- A fact in the precondition that does not depend on the state. -/
theorem of_and {c : Prop} (h : c → Triple P x Q E) : Triple (fun s => c ∧ P s) x Q E :=
  fun s hs => h hs.1 s hs.2

theorem of_exists {ι : Type} {P : ι → σ → Prop} (h : ∀ i, Triple (P i) x Q E) :
    Triple (fun s => ∃ i, P i s) x Q E := by
  rintro s ⟨i, hs⟩
  exact h i s hs

theorem pure {a : α} (h : ∀ s, P s → Q a s) : Triple P (Pure.pure a : Prog ε σ α) Q E := h

theorem throw {e : ε} (h : ∀ s, P s → E s) : Triple P (throw e : Prog ε σ α) Q E := h

theorem bind (hx : Triple P x Q E) (hf : ∀ a, Triple (Q a) (f a) R E) : Triple P (x >>= f) R E := by
  intro s hs
  have hpost := hx s hs
  rw [exec_bind]
  match hxs : x.exec s, hpost with
  | (.ok a, s'), hq => exact hf a s' hq
  | (.error e, s'), he => exact he

/-- The state that is read is known in the rest of the program. -/
theorem get_bind {f : σ → Prog ε σ β} (h : ∀ s0, P s0 → Triple (fun s => s = s0) (f s0) R E) :
    Triple P (get >>= f) R E := fun s hs => h s hs s rfl

/-- The state that is read does not matter. -/
theorem read {f : σ → Prog ε σ β} (h : ∀ s0, Triple P (f s0) R E) : Triple P (get >>= f) R E :=
  fun s hs => h s s hs

theorem modify {g : σ → σ} {Q : PUnit → σ → Prop} (h : ∀ s, P s → Q ⟨⟩ (g s)) :
    Triple P (modify g : Prog ε σ PUnit) Q E := h

theorem ite {c : Prop} [Decidable c] {y : Prog ε σ α} (hx : c → Triple P x Q E)
    (hy : ¬ c → Triple P y Q E) : Triple P (if c then x else y) Q E := by
  by_cases hc : c
  · rw [if_pos hc]
    exact hx hc
  · rw [if_neg hc]
    exact hy hc

/-- An invariant of the turns of a loop. -/
theorem forM {ι : Type} {I : σ → Prop} {l : List ι} {g : ι → Prog ε σ PUnit}
    (h : ∀ i ∈ l, Triple I (g i) (fun _ => I) E) : Triple I (l.forM g) (fun _ => I) E := by
  induction l with
  | nil => exact pure fun _ hs => hs
  | cons i l ih =>
    refine bind (h i List.mem_cons_self) fun _ => ih fun j hj => h j (List.mem_cons_of_mem i hj)

/-- A loop with a counter that the invariant may use. -/
theorem forM_range {I : Nat → σ → Prop} {g : Nat → Prog ε σ PUnit} :
    ∀ {n : Nat}, (∀ i < n, Triple (I i) (g i) (fun _ => I (i + 1)) E) →
      Triple (I 0) ((List.range n).forM g) (fun _ => I n) E
  | 0, _ => pure fun _ hs => hs
  | n + 1, h => by
    rw [List.forM_eq_forM, List.range_succ, List.forM_append]
    refine bind (forM_range fun i hi => h i (Nat.lt_succ_of_lt hi)) fun _ => ?_
    exact bind (h n (Nat.lt_succ_self n)) fun _ => pure fun _ hs => hs

theorem zoom {τ : Type} {g : σ → τ} {p : τ → σ → σ} (hgp : ∀ t s, g (p t s) = t)
    {P : τ → Prop} {Q : α → τ → Prop} {E : τ → Prop} {x : Prog ε τ α} (h : Triple P x Q E) :
    Triple (fun s => P (g s)) (Prog.zoom g p x) (fun a s => Q a (g s)) (fun s => E (g s)) := by
  intro s hs
  rw [exec_zoom]
  rcases h.elim hs with ⟨a, t, he, hq⟩ | ⟨e, t, he, hq⟩
  · rw [he]
    show Q a (g (p t s))
    rwa [hgp]
  · rw [he]
    show E (g (p t s))
    rwa [hgp]

/-- Assertions under a condition `C` of the state.  `C` held before the program if it
holds afterwards, so only runs that end in `C` matter. -/
theorem assuming {C : σ → Prop} (hC : ∀ s, C (x.exec s).2 → C s)
    (h : ∀ s, P s → C (x.exec s).2 → Post Q E (x.exec s)) :
    Triple (fun s => C s → P s) x (fun a s => C s → Q a s) (fun s => C s → E s) := by
  intro s hs
  have hback := hC s
  have hpost := fun hc => h s (hs (hback hc)) hc
  match hx : x.exec s, hpost with
  | (.ok a, s'), hpost => exact hpost
  | (.error e, s'), hpost => exact hpost

end Triple

/-- A program that returns with `I` again. -/
def Keeps (I E : σ → Prop) (x : Prog ε σ α) : Prop := Triple I x (fun _ => I) E

abbrev Preserves (I : σ → Prop) (x : Prog ε σ α) : Prop := Keeps I (fun _ => True) x

namespace Keeps

variable {I E : σ → Prop} {x : Prog ε σ α} {f : α → Prog ε σ β}

theorem pure (a : α) : Keeps I E (Pure.pure a : Prog ε σ α) := Triple.pure fun _ h => h

theorem throw (e : ε) (h : ∀ s, I s → E s) : Keeps I E (throw e : Prog ε σ α) := Triple.throw h

theorem bind (hx : Keeps I E x) (hf : ∀ a, Keeps I E (f a)) : Keeps I E (x >>= f) :=
  Triple.bind hx hf

theorem read {f : σ → Prog ε σ β} (hf : ∀ s, Keeps I E (f s)) : Keeps I E (get >>= f) :=
  Triple.read hf

theorem ite {c : Prop} [Decidable c] {y : Prog ε σ α} (hx : Keeps I E x) (hy : Keeps I E y) :
    Keeps I E (if c then x else y) := Triple.ite (fun _ => hx) fun _ => hy

theorem forM {ι : Type} {l : List ι} {g : ι → Prog ε σ PUnit} (hg : ∀ i, Keeps I E (g i)) :
    Keeps I E (l.forM g) := Triple.forM fun i _ => hg i

theorem modify {g : σ → σ} (h : ∀ s, I s → I (g s)) : Keeps I E (modify g : Prog ε σ PUnit) :=
  Triple.modify h

end Keeps

/-! ## A reason that does not occur -/

/-- From `P` the program does not stop for the reason `bad`, and returns in `Q` if it returns. -/
def Avoids (bad : ε) (P : σ → Prop) (x : Prog ε σ α) (Q : α → σ → Prop) : Prop :=
  ∀ s, P s → (x.exec s).1 ≠ .error bad ∧ ∀ a s', x.exec s = (.ok a, s') → Q a s'

namespace Avoids

variable {bad : ε} {P P' : σ → Prop} {Q Q' : α → σ → Prop} {R : β → σ → Prop} {x : Prog ε σ α}
  {f : α → Prog ε σ β}

theorem conseq (h : Avoids bad P x Q) (hP : ∀ s, P' s → P s) (hQ : ∀ a s, Q a s → Q' a s) :
    Avoids bad P' x Q' := by
  intro s hs
  obtain ⟨hne, hok⟩ := h s (hP s hs)
  exact ⟨hne, fun a s' hx => hQ a s' (hok a s' hx)⟩

theorem pre (h : Avoids bad P x Q) (hP : ∀ s, P' s → P s) : Avoids bad P' x Q :=
  h.conseq hP fun _ _ hq => hq

/-- The value that is returned is the one of the run. -/
theorem result (h : Avoids bad P x Q) {s0 : σ} (hs : P s0) :
    Avoids bad (fun s => s = s0) x (fun a s => Q a s ∧ (x.exec s0).1 = .ok a) := by
  rintro _ rfl
  obtain ⟨hne, hok⟩ := h _ hs
  exact ⟨hne, fun a s' hx => ⟨hok a s' hx, by rw [hx]⟩⟩

theorem of_and {c : Prop} (h : c → Avoids bad P x Q) : Avoids bad (fun s => c ∧ P s) x Q :=
  fun s hs => h hs.1 s hs.2

theorem pure {a : α} (h : ∀ s, P s → Q a s) : Avoids bad P (Pure.pure a : Prog ε σ α) Q := by
  intro s hs
  refine ⟨nofun, fun a' s' hx => ?_⟩
  obtain ⟨ha, rfl⟩ := Prod.mk.inj hx
  cases ha
  exact h s hs

theorem throw {e : ε} (h : e ≠ bad) : Avoids bad P (throw e : Prog ε σ α) Q := by
  intro s _
  refine ⟨fun he => h (Except.error.inj he), fun a s' hx => ?_⟩
  cases (Prod.mk.inj hx).1

theorem bind (hx : Avoids bad P x Q) (hf : ∀ a, Avoids bad (Q a) (f a) R) :
    Avoids bad P (x >>= f) R := by
  intro s hs
  obtain ⟨hne, hok⟩ := hx s hs
  rcases he : x.exec s with ⟨e | a, s'⟩
  · rw [exec_bind_error he]
    rw [he] at hne
    refine ⟨fun hb => hne (by rw [Except.error.inj hb]), fun b s'' hy => ?_⟩
    cases (Prod.mk.inj hy).1
  · rw [exec_bind_ok he]
    exact hf a s' (hok a s' he)

theorem get_bind {f : σ → Prog ε σ β} (h : ∀ s0, P s0 → Avoids bad (fun s => s = s0) (f s0) R) :
    Avoids bad P (get >>= f) R := fun s hs => h s hs s rfl

theorem read {f : σ → Prog ε σ β} (h : ∀ s0, Avoids bad P (f s0) R) :
    Avoids bad P (get >>= f) R := fun s hs => h s s hs

theorem modify {g : σ → σ} {Q : PUnit → σ → Prop} (h : ∀ s, P s → Q ⟨⟩ (g s)) :
    Avoids bad P (modify g : Prog ε σ PUnit) Q := by
  intro s hs
  refine ⟨nofun, fun a s' hx => ?_⟩
  obtain ⟨ha, rfl⟩ := Prod.mk.inj hx
  exact h s hs

theorem set {s1 : σ} {Q : PUnit → σ → Prop} (h : Q ⟨⟩ s1) :
    Avoids bad P (set s1 : Prog ε σ PUnit) Q := modify fun _ _ => h

theorem ite {c : Prop} [Decidable c] {y : Prog ε σ α} (hx : c → Avoids bad P x Q)
    (hy : ¬ c → Avoids bad P y Q) : Avoids bad P (if c then x else y) Q := by
  split
  next hc => exact hx hc
  next hc => exact hy hc

theorem zoom {τ : Type} {g : σ → τ} {p : τ → σ → σ} {I : σ → Prop} {y : Prog ε τ α}
    (hy : ∀ t, (y.exec t).1 ≠ .error bad) (hI : ∀ t s, I s → I (p t s)) :
    Avoids bad I (Prog.zoom g p y) fun _ => I := by
  intro s hs
  refine ⟨hy _, fun a s' hx => ?_⟩
  obtain ⟨_, rfl⟩ := Prod.mk.inj hx
  exact hI _ s hs

/-- A program that never stops for the reason `bad`. -/
theorem never (h : Avoids bad (fun _ => True) x fun _ _ => True) (s : σ) :
    (x.exec s).1 ≠ .error bad := (h s trivial).1

end Avoids

end Prog
