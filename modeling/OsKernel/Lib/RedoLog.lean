import Mathlib.Data.List.Nodup

/-!
# Redo logs

A disk maps addresses to values and is written one address at a time, in order;
a crash keeps a prefix of the writes.  A *redo log* lives at a header address
and a row of slot addresses.  The header names the home addresses whose new
values the slots hold.

A commit writes the new values to the slots, then the header, then the homes,
then a header that names nothing (`commitWrites`).  Recovery copies the slots to
the homes the header names and clears the header (`replayWrites`).  Whatever
prefix of a commit reaches the disk, and however often recovery is cut short, a
complete recovery leaves all homes old or all homes new and everything outside
the log and the homes as it was (`crash_atomic`).
-/

namespace RedoLog

open Function List

variable {A V : Type} [DecidableEq A]

def apply (d : A → V) (ws : List (A × V)) : A → V :=
  ws.foldl (fun d w => update d w.1 w.2) d

@[simp] theorem apply_nil (d : A → V) : apply d [] = d := rfl

theorem apply_cons (d : A → V) (w : A × V) (ws : List (A × V)) :
    apply d (w :: ws) = apply (update d w.1 w.2) ws := rfl

theorem apply_append (d : A → V) (ws ws' : List (A × V)) :
    apply d (ws ++ ws') = apply (apply d ws) ws' := by
  rw [apply, foldl_append]
  rfl

theorem apply_singleton (d : A → V) (w : A × V) : apply d [w] = update d w.1 w.2 := rfl

theorem apply_of_not_mem {d : A → V} {ws : List (A × V)} {a : A} (h : ∀ w ∈ ws, w.1 ≠ a) :
    apply d ws a = d a := by
  induction ws generalizing d with
  | nil => rfl
  | cons w ws ih =>
    rw [apply_cons, ih fun w' hw' => h w' (mem_cons_of_mem _ hw'),
      update_of_ne (h w mem_cons_self).symm]

/-- An address that is only ever written with `v`, and is written or holds `v`
already, holds `v`. -/
theorem apply_eq_of_forall {d : A → V} {ws : List (A × V)} {a : A} {v : V}
    (hv : ∀ w ∈ ws, w.1 = a → w.2 = v) (ha : d a = v ∨ ∃ w ∈ ws, w.1 = a) :
    apply d ws a = v := by
  induction ws generalizing d with
  | nil => simpa using ha
  | cons w ws ih =>
    rw [apply_cons]
    refine ih (fun w' hw' => hv w' (mem_cons_of_mem _ hw')) ?_
    by_cases hwa : w.1 = a
    · left
      rw [← hwa, update_self]
      exact hv w mem_cons_self hwa
    rcases ha with hd | ⟨w', hw', hw'a⟩
    · left
      rw [update_of_ne (Ne.symm hwa), hd]
    · rcases mem_cons.mp hw' with rfl | hmem
      · exact absurd hw'a hwa
      · exact .inr ⟨w', hmem, hw'a⟩

/-! ## Layout -/

/-- Where a redo log lives and how a header is read. -/
structure Layout (A V : Type) where
  hdr : A
  slot : Nat → A
  /-- The home addresses a header names, in the order of the slots. -/
  homes : V → List A
  /-- The header recovery leaves behind. -/
  cleared : V
  homes_cleared : homes cleared = []
  slot_ne_hdr : ∀ i, slot i ≠ hdr
  slot_injective : Function.Injective slot

namespace Layout

variable (L : Layout A V)

/-- The header and the first `n` slots. -/
def Area (n : Nat) (a : A) : Prop := a = L.hdr ∨ ∃ i, i < n ∧ a = L.slot i

/-- Log the values of `c` at the addresses `bs`. -/
def slotWrites (bs : List A) (c : A → V) : List (A × V) :=
  bs.zipIdx.map fun bi => (L.slot bi.2, c bi.1)

/-- Install the values of `c` at the addresses `bs`. -/
def homeWrites (bs : List A) (c : A → V) : List (A × V) := bs.map fun b => (b, c b)

/-- A commit of the values of `c` at `bs`, with header `h` and, once done, the
empty header `h0`. -/
def commitWrites (bs : List A) (c : A → V) (h h0 : V) : List (A × V) :=
  L.slotWrites bs c ++ (L.hdr, h) :: (homeWrites bs c ++ [(L.hdr, h0)])

/-- Recovery. -/
def replayWrites (d : A → V) : List (A × V) :=
  match L.homes (d L.hdr) with
  | [] => []
  | b :: bs =>
    ((b :: bs).zipIdx.map fun bi => (bi.1, d (L.slot bi.2))) ++ [(L.hdr, L.cleared)]

/-- The log on a disk does not name its own addresses. -/
def LogOutside (d : A → V) : Prop :=
  ∀ b ∈ L.homes (d L.hdr), ¬ L.Area (L.homes (d L.hdr)).length b

def recover (d : A → V) : A → V := apply d (L.replayWrites d)

/-- Disks left by a crash while `ws` was written to `d₀` and by any number of
recoveries that were themselves cut short. -/
inductive Crashed (d₀ : A → V) (ws : List (A × V)) : (A → V) → Prop where
  | writes {p : List (A × V)} : p <+: ws → Crashed d₀ ws (apply d₀ p)
  | replay {d : A → V} {p : List (A × V)} :
      Crashed d₀ ws d → p <+: L.replayWrites d → Crashed d₀ ws (apply d p)

variable {L} {bs : List A} {c : A → V} {w : A × V} {h h0 : V} {k : Nat}

omit [DecidableEq A] in
theorem LogOutside.of_homes {d : A → V} (hout : ∀ b ∈ bs, ¬ L.Area bs.length b)
    (hd : L.homes (d L.hdr) = [] ∨ L.homes (d L.hdr) = bs) : L.LogOutside d := by
  intro b hb
  rcases hd with hd | hd
  · rw [hd] at hb
    cases hb
  · rw [hd] at hb ⊢
    exact hout b hb

omit [DecidableEq A] in
theorem LogOutside.of_nil {d : A → V} (h : L.homes (d L.hdr) = []) : L.LogOutside d :=
  .of_homes (forall_mem_nil fun b => ¬ L.Area ([] : List A).length b) (.inl h)

omit [DecidableEq A] in
theorem mem_slotWrites :
    w ∈ L.slotWrites bs c ↔ ∃ i, ∃ h : i < bs.length, w = (L.slot i, c bs[i]) := by
  rw [slotWrites, mem_map]
  constructor
  · rintro ⟨⟨b, i⟩, hbi, rfl⟩
    obtain ⟨hi, hb⟩ := mem_zipIdx' hbi
    exact ⟨i, hi, by rw [hb]⟩
  · rintro ⟨i, hi, rfl⟩
    exact ⟨(bs[i], i), mem_zipIdx_iff_getElem?.mpr (List.getElem?_eq_getElem hi), rfl⟩

omit [DecidableEq A] in
theorem mem_homeWrites :
    w ∈ homeWrites bs c ↔ ∃ b ∈ bs, w = (b, c b) := by
  simp [homeWrites, eq_comm]

omit [DecidableEq A] in
theorem mem_commitWrites
    (hw : w ∈ L.commitWrites bs c h h0) : L.Area bs.length w.1 ∨ w.1 ∈ bs := by
  simp only [commitWrites, mem_append, mem_cons, not_mem_nil, or_false] at hw
  rcases hw with hw | rfl | hw | rfl
  · obtain ⟨i, hi, rfl⟩ := mem_slotWrites.mp hw
    exact .inl (.inr ⟨i, hi, rfl⟩)
  · exact .inl (.inl rfl)
  · obtain ⟨b, hb, rfl⟩ := mem_homeWrites.mp hw
    exact .inr hb
  · exact .inl (.inl rfl)

theorem apply_commitWrites_hdr (d : A → V) (bs : List A) (c : A → V) (h h0 : V) :
    apply d (L.commitWrites bs c h h0) L.hdr = h0 := by
  rw [commitWrites, ← cons_append, ← append_assoc, apply_append, apply_singleton,
    update_self]

theorem apply_commitWrites_of_not_mem {d : A → V} {a : A}
    (ha : ¬ L.Area bs.length a) (hab : a ∉ bs) : apply d (L.commitWrites bs c h h0) a = d a := by
  apply apply_of_not_mem
  rintro w hw rfl
  exact (mem_commitWrites hw).elim ha hab

omit [DecidableEq A] in
theorem take_slotWrites_succ (hk : k < bs.length) :
    (L.slotWrites bs c).take (k + 1) = (L.slotWrites bs c).take k ++ [(L.slot k, c bs[k])] := by
  have hlen : k < (L.slotWrites bs c).length := by simpa [slotWrites] using hk
  rw [take_succ_eq_append_getElem hlen]
  simp [slotWrites]

omit [DecidableEq A] in
theorem take_homeWrites_succ (hk : k < bs.length) :
    (homeWrites bs c).take (k + 1) = (homeWrites bs c).take k ++ [(bs[k], c bs[k])] := by
  have hlen : k < (homeWrites bs c).length := by simpa [homeWrites] using hk
  rw [take_succ_eq_append_getElem hlen]
  simp [homeWrites]

/-! ## The phases of a commit -/

section Crash

variable (L) (d₀ : A → V) (bs : List A) (c : A → V)

/-- Nothing outside the log has changed and the log is empty. -/
def Before (d : A → V) : Prop :=
  L.homes (d L.hdr) = [] ∧ ∀ a, ¬ L.Area bs.length a → d a = d₀ a

/-- The log holds all new values; the homes may hold anything. -/
def Committed (d : A → V) : Prop :=
  L.homes (d L.hdr) = bs ∧ (∀ i, ∀ h : i < bs.length, d (L.slot i) = c bs[i]) ∧
    ∀ a, ¬ L.Area bs.length a → a ∉ bs → d a = d₀ a

/-- The homes hold the new values and the log is empty. -/
def After (d : A → V) : Prop :=
  L.homes (d L.hdr) = [] ∧ (∀ b ∈ bs, d b = c b) ∧
    ∀ a, ¬ L.Area bs.length a → a ∉ bs → d a = d₀ a

variable {L d₀ bs c} {d : A → V} {h h0 : V} {b : A} {p ws : List (A × V)}

theorem Before.apply_slotWrites (hd : L.Before d₀ bs d)
    (hp : p <+: L.slotWrites bs c) : L.Before d₀ bs (apply d p) := by
  have hmem : ∀ w ∈ p, ∃ i, i < bs.length ∧ w.1 = L.slot i := by
    intro w hw
    obtain ⟨i, hi, rfl⟩ := mem_slotWrites.mp (hp.subset hw)
    exact ⟨i, hi, rfl⟩
  constructor
  · rw [apply_of_not_mem]
    · exact hd.1
    · intro w hw
      obtain ⟨i, -, he⟩ := hmem w hw
      rw [he]
      exact L.slot_ne_hdr i
  intro a ha
  rw [apply_of_not_mem]
  · exact hd.2 a ha
  · rintro w hw rfl
    obtain ⟨i, hi, he⟩ := hmem w hw
    exact ha (.inr ⟨i, hi, he⟩)

theorem Before.commit (hd : L.Before d₀ bs d) (hh : L.homes h = bs) :
    L.Committed d₀ bs c (update (apply d (L.slotWrites bs c)) L.hdr h) := by
  refine ⟨by rw [update_self, hh], fun i hi => ?_, fun a ha _ => ?_⟩
  · rw [update_of_ne (L.slot_ne_hdr i)]
    refine apply_eq_of_forall ?_ (.inr ⟨_, mem_slotWrites.mpr ⟨i, hi, rfl⟩, rfl⟩)
    intro w hw hwi
    obtain ⟨j, hj, rfl⟩ := mem_slotWrites.mp hw
    cases L.slot_injective hwi
    rfl
  · rw [update_of_ne fun he => ha (.inl he)]
    exact (hd.apply_slotWrites (prefix_refl _)).2 a ha

theorem Committed.apply_homes (hd : L.Committed d₀ bs c d)
    (hout : ∀ b ∈ bs, ¬ L.Area bs.length b) (hp : ∀ w ∈ p, w.1 ∈ bs) :
    L.Committed d₀ bs c (apply d p) := by
  refine ⟨?_, fun i hi => ?_, fun a ha hab => ?_⟩
  · rw [apply_of_not_mem]
    · exact hd.1
    · intro w hw he
      exact hout _ (hp w hw) (.inl he)
  · rw [apply_of_not_mem]
    · exact hd.2.1 i hi
    · intro w hw he
      exact hout _ (hp w hw) (.inr ⟨i, hi, he⟩)
  · rw [apply_of_not_mem]
    · exact hd.2.2 a ha hab
    · rintro w hw rfl
      exact hab (hp w hw)

theorem Committed.finish (hd : L.Committed d₀ bs c d)
    (hout : ∀ b ∈ bs, ¬ L.Area bs.length b) (hnew : ∀ b ∈ bs, d b = c b)
    (hh0 : L.homes h0 = []) : L.After d₀ bs c (update d L.hdr h0) := by
  refine ⟨by rw [update_self, hh0], fun b hb => ?_, fun a ha hab => ?_⟩
  · rw [update_of_ne fun he => hout b hb (.inl he)]
    exact hnew b hb
  · rw [update_of_ne fun he => ha (.inl he)]
    exact hd.2.2 a ha hab

theorem apply_homeWrites (hb : b ∈ bs) : apply d (homeWrites bs c) b = c b := by
  refine apply_eq_of_forall ?_ (.inr ⟨_, mem_homeWrites.mpr ⟨b, hb, rfl⟩, rfl⟩)
  intro w hw he
  obtain ⟨b', -, rfl⟩ := mem_homeWrites.mp hw
  rw [← he]

def Phase (L : Layout A V) (d₀ : A → V) (bs : List A) (c : A → V) (d : A → V) : Prop :=
  L.Before d₀ bs d ∨ L.Committed d₀ bs c d ∨ L.After d₀ bs c d

omit [DecidableEq A] in
theorem Committed.replayWrites (hd : L.Committed d₀ bs c d) :
    L.replayWrites d = [] ∧ bs = [] ∨
      L.replayWrites d = homeWrites bs c ++ [(L.hdr, L.cleared)] := by
  rw [Layout.replayWrites, hd.1]
  cases hbs : bs with
  | nil => exact .inl ⟨rfl, rfl⟩
  | cons b bs' =>
    right
    have hslot := hd.2.1
    rw [hbs] at hslot
    rw [homeWrites]
    refine congrArg (· ++ [(L.hdr, L.cleared)]) (ext_getElem (by simp) fun i h1 h2 => ?_)
    rw [length_map, length_zipIdx] at h1
    rw [getElem_map, getElem_map, getElem_zipIdx, Nat.zero_add, hslot i h1]

theorem prefix_append_cases {α : Type} {p l1 l2 : List α} (h : p <+: l1 ++ l2) :
    p <+: l1 ∨ ∃ q, p = l1 ++ q ∧ q <+: l2 := by
  rcases prefix_or_prefix_of_prefix h (prefix_append l1 l2) with h1 | ⟨q, rfl⟩
  · exact .inl h1
  · exact .inr ⟨q, rfl, (prefix_append_right_inj l1).mp h⟩

theorem Committed.apply_started (hd : L.Committed d₀ bs c d)
    (hout : ∀ b ∈ bs, ¬ L.Area bs.length b) (hh0 : L.homes h0 = [])
    (hp : p <+: homeWrites bs c ++ [(L.hdr, h0)]) :
    L.Phase d₀ bs c (apply d p) := by
  have hhomes : ∀ w ∈ homeWrites bs c, w.1 ∈ bs := by
    intro w hw
    obtain ⟨b, hb, rfl⟩ := mem_homeWrites.mp hw
    exact hb
  rcases prefix_append_cases hp with h1 | ⟨q, rfl, hq⟩
  · exact .inr (.inl (hd.apply_homes hout fun w hw => hhomes w (h1.subset hw)))
  have hc := hd.apply_homes hout hhomes
  rw [apply_append]
  rcases q with _ | ⟨w, q⟩
  · exact .inr (.inl hc)
  · obtain ⟨rfl, hnil⟩ := cons_prefix_cons.mp hq
    rw [prefix_nil.mp hnil, apply_singleton]
    exact .inr (.inr (hc.finish hout (fun b hb => apply_homeWrites hb) hh0))

theorem Before.apply_commitWrites (hd : L.Before d₀ bs d)
    (hout : ∀ b ∈ bs, ¬ L.Area bs.length b) (hh : L.homes h = bs)
    (hh0 : L.homes h0 = []) (hp : p <+: L.commitWrites bs c h h0) :
    L.Phase d₀ bs c (apply d p) := by
  rcases prefix_append_cases hp with h1 | ⟨q, rfl, hq⟩
  · exact .inl (hd.apply_slotWrites h1)
  rw [apply_append]
  rcases q with _ | ⟨w, q⟩
  · exact .inl (hd.apply_slotWrites (prefix_refl _))
  · obtain ⟨rfl, hq'⟩ := cons_prefix_cons.mp hq
    exact (hd.commit hh).apply_started hout hh0 hq'

omit [DecidableEq A] in
theorem replayWrites_eq_nil (h : L.homes (d L.hdr) = []) : L.replayWrites d = [] := by
  rw [replayWrites, h]

omit [DecidableEq A] in
theorem replayWrites_of_ne_nil (h : L.homes (d L.hdr) ≠ []) :
    L.replayWrites d = ((L.homes (d L.hdr)).zipIdx.map fun bi => (bi.1, d (L.slot bi.2))) ++
      [(L.hdr, L.cleared)] := by
  rw [replayWrites]
  cases hb : L.homes (d L.hdr) with
  | nil => exact absurd hb h
  | cons b bs => rfl

theorem Phase.apply_replay (hd : L.Phase d₀ bs c d)
    (hout : ∀ b ∈ bs, ¬ L.Area bs.length b) (hp : p <+: L.replayWrites d) :
    L.Phase d₀ bs c (apply d p) := by
  rcases hd with hb | hc | ha
  · rw [replayWrites_eq_nil hb.1, prefix_nil] at hp
    rw [hp]
    exact .inl hb
  · rcases hc.replayWrites with ⟨he, -⟩ | he
    · rw [he, prefix_nil] at hp
      rw [hp]
      exact .inr (.inl hc)
    · rw [he] at hp
      exact hc.apply_started hout L.homes_cleared hp
  · rw [replayWrites_eq_nil ha.1, prefix_nil] at hp
    rw [hp]
    exact .inr (.inr ha)

theorem Phase.recover (hd : L.Phase d₀ bs c d) (hout : ∀ b ∈ bs, ¬ L.Area bs.length b) :
    L.Before d₀ bs (L.recover d) ∨ L.After d₀ bs c (L.recover d) := by
  rcases hd with hb | hc | ha
  · rw [Layout.recover, replayWrites_eq_nil hb.1]
    exact .inl hb
  · rcases hc.replayWrites with ⟨he, hnil⟩ | he
    · subst hnil
      rw [Layout.recover, he]
      exact .inr ⟨hc.1, by simp, hc.2.2⟩
    rw [Layout.recover, he, apply_append, apply_singleton]
    refine .inr ((hc.apply_homes hout ?_).finish hout ?_ L.homes_cleared)
    · intro w hw
      obtain ⟨b, hb, rfl⟩ := mem_homeWrites.mp hw
      exact hb
    · exact fun b hb => apply_homeWrites hb
  · rw [Layout.recover, replayWrites_eq_nil ha.1]
    exact .inr ha

omit [DecidableEq A] in
theorem Phase.homes (hd : L.Phase d₀ bs c d) :
    L.homes (d L.hdr) = [] ∨ L.homes (d L.hdr) = bs := by
  rcases hd with hb | hc | ha
  · exact .inl hb.1
  · exact .inr hc.1
  · exact .inl ha.1

theorem Crashed.phase (hd : L.Crashed d₀ ws d)
    (hws : ∀ p, p <+: ws → L.Phase d₀ bs c (apply d₀ p))
    (hout : ∀ b ∈ bs, ¬ L.Area bs.length b) : L.Phase d₀ bs c d := by
  induction hd with
  | writes hp => exact hws _ hp
  | replay _ hp ih => exact ih.apply_replay hout hp

theorem Crashed.phase_of_commit (h0log : L.homes (d₀ L.hdr) = [])
    (hout : ∀ b ∈ bs, ¬ L.Area bs.length b) (hh : L.homes h = bs)
    (hh0 : L.homes h0 = []) (hd : L.Crashed d₀ (L.commitWrites bs c h h0) d) :
    L.Phase d₀ bs c d :=
  hd.phase (fun _ hp => Before.apply_commitWrites ⟨h0log, fun _ _ => rfl⟩ hout hh hh0 hp) hout

theorem Crashed.before (hd : L.Crashed d₀ ws d)
    (h0log : L.homes (d₀ L.hdr) = []) (hws : ws <+: L.slotWrites bs c) : L.Before d₀ bs d := by
  induction hd with
  | writes hp => exact Before.apply_slotWrites ⟨h0log, fun _ _ => rfl⟩ (hp.trans hws)
  | replay _ hp ih =>
    rw [replayWrites_eq_nil ih.1, prefix_nil] at hp
    rwa [hp]

theorem Before.recover (hd : L.Before d₀ bs d) : L.recover d = d := by
  rw [Layout.recover, replayWrites_eq_nil hd.1, apply_nil]

/-- Crash atomicity: after a crash during a commit and a complete recovery, the
homes are all old or all new, the log is empty, and nothing else has changed. -/
theorem crash_atomic (h0log : L.homes (d₀ L.hdr) = []) (hout : ∀ b ∈ bs, ¬ L.Area bs.length b)
    (hh : L.homes h = bs) (hh0 : L.homes h0 = [])
    (hd : L.Crashed d₀ (L.commitWrites bs c h h0) d) :
    L.Before d₀ bs (L.recover d) ∨ L.After d₀ bs c (L.recover d) :=
  (hd.phase_of_commit h0log hout hh hh0).recover hout

end Crash

end Layout

end RedoLog
