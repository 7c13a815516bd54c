import OsKernel.Lib.RedoLog

/-!
# Histories of a redo log

A disk is written by one commit after another, and between commits only with
values it holds already.  `ws` are all writes so far and `ns` the numbers of
writes issued when each commit ended.  Whatever prefix of `ws` reaches the disk,
a complete recovery brings back the disk as it was at the start or at the end of
one of the commits, apart from the log itself (`History.safe`).
-/

namespace RedoLog

open Function List

namespace Layout

variable {A V : Type} [DecidableEq A] {L : Layout A V}

omit [DecidableEq A] in
theorem Area.mono {m n : Nat} (h : m ≤ n) {a : A} (ha : L.Area m a) : L.Area n a := by
  rcases ha with ha | ⟨i, hi, ha⟩
  · exact .inl ha
  · exact .inr ⟨i, Nat.lt_of_lt_of_le hi h, ha⟩

variable {d c : A → V} {bs : List A} {ws' : List (A × V)}

theorem apply_commitWrites_of_mem {h h0 : V} {b : A}
    (hb : b ∈ bs) (hne : b ≠ L.hdr) : apply d (L.commitWrites bs c h h0) b = c b := by
  rw [commitWrites, apply_append, apply_cons, apply_append, apply_singleton,
    update_of_ne hne, apply_homeWrites hb]

/-- A crash is during the first writes, or after them. -/
theorem Crashed.append {d₀ : A → V} {ws : List (A × V)}
    (h : L.Crashed d₀ (ws ++ ws') d) : L.Crashed d₀ ws d ∨ L.Crashed (apply d₀ ws) ws' d := by
  induction h with
  | writes hp =>
    rcases prefix_append_cases hp with hp | ⟨q, rfl, hq⟩
    · exact .inl (.writes hp)
    · rw [apply_append]
      exact .inr (.writes hq)
  | replay _ hp ih =>
    rcases ih with ih | ih
    · exact .inl (.replay ih hp)
    · exact .inr (.replay ih hp)

variable (L)

/-- Every crash is recoverable: outside the header and `k` slots a complete recovery
brings back the disk after the first `n` writes, where `n` is `0` or in `ns`. -/
def Recoverable (k : Nat) (d₀ : A → V) (ws : List (A × V)) (ns : List Nat) : Prop :=
  ∀ d, L.Crashed d₀ ws d → L.LogOutside d ∧
    ∃ n ∈ 0 :: ns, ∀ a, ¬ L.Area k a → L.recover d a = apply d₀ (ws.take n) a

/-- The write-ahead rule: outside the header and `k` slots an address gets a new value
only while the log on the disk names it. -/
def Ahead (k : Nat) (d₀ : A → V) (ws : List (A × V)) : Prop :=
  ∀ p w, p ++ [w] <+: ws →
    L.Area k w.1 ∨ apply d₀ p w.1 = w.2 ∨ w.1 ∈ L.homes (apply d₀ p L.hdr)

/-- Writes with the commits `ns`: the log is empty, and every crash so far recovers to a commit. -/
structure History (k : Nat) (d₀ : A → V) (ws : List (A × V)) (ns : List Nat) : Prop where
  empty : L.homes (apply d₀ ws L.hdr) = []
  bound : ∀ n ∈ ns, n ≤ ws.length
  last : ∃ n ∈ 0 :: ns, ∀ a, ¬ L.Area k a → apply d₀ ws a = apply d₀ (ws.take n) a
  safe : L.Recoverable k d₀ ws ns
  ahead : L.Ahead k d₀ ws

variable {L} {k : Nat} {d₀ : A → V} {ws : List (A × V)} {ns : List Nat}

theorem History.init (h0 : L.homes (d₀ L.hdr) = []) : L.History k d₀ [] [] := by
  refine ⟨h0, forall_mem_nil _, ⟨0, mem_singleton_self 0, fun a _ => rfl⟩, fun d hd => ?_,
    fun p w hp => ?_⟩
  swap
  · exact absurd (prefix_nil.mp hp) (append_ne_nil_of_right_ne_nil p (cons_ne_nil w []))
  have hbefore : L.Before d₀ [] d := hd.before (c := d₀) h0 List.nil_prefix
  refine ⟨.of_nil hbefore.1, 0, mem_singleton_self 0, fun a ha => ?_⟩
  rw [hbefore.recover]
  exact hbefore.2 a fun hz => ha (hz.mono (Nat.zero_le k))

theorem History.take_append (h : L.History k d₀ ws ns) {n : Nat} (hn : n ∈ 0 :: ns)
    (ws' : List (A × V)) : (ws ++ ws').take n = ws.take n := by
  refine take_append_of_le_length ?_
  rcases mem_cons.mp hn with rfl | hn
  · exact Nat.zero_le _
  · exact h.bound n hn

/-- Write-ahead logging, for one sequence of writes after the other. -/
theorem Ahead.append (h : L.Ahead k d₀ ws) (h' : L.Ahead k (apply d₀ ws) ws') :
    L.Ahead k d₀ (ws ++ ws') := by
  intro p w hp
  rcases prefix_append_cases hp with hp | ⟨q, hq, hp⟩
  · exact h p w hp
  rcases eq_nil_or_concat q with rfl | ⟨q, w', rfl⟩
  · rw [append_nil] at hq
    exact h p w (hq ▸ prefix_rfl)
  rw [concat_eq_append] at hp
  rw [concat_eq_append, ← append_assoc] at hq
  obtain ⟨rfl, hw⟩ := append_inj' hq rfl
  cases hw
  rw [apply_append]
  exact h' q w hp

theorem mem_of_prefix_concat {α : Type} {p ws : List α} {w : α} (h : p ++ [w] <+: ws) : w ∈ ws :=
  h.subset (mem_append_right p (mem_singleton_self w))

theorem Ahead.of_area (h : ∀ w ∈ ws, L.Area k w.1) : L.Ahead k d ws :=
  fun _ w hp => .inl (h w (mem_of_prefix_concat hp))

theorem Ahead.of_homes (hhdr : L.hdr ∉ L.homes (d L.hdr))
    (h : ∀ w ∈ ws, w.1 ∈ L.homes (d L.hdr)) : L.Ahead k d ws := by
  intro p w hp
  have hkeep : apply d p L.hdr = d L.hdr := by
    refine apply_of_not_mem fun w' hw' he => hhdr ?_
    have hw := h w' (hp.subset (mem_append_left [w] hw'))
    rwa [he] at hw
  rw [hkeep]
  exact .inr (.inr (h w (mem_of_prefix_concat hp)))

omit [DecidableEq A] in
theorem area_of_mem_slotWrites (hlen : bs.length ≤ k) {w : A × V}
    (hw : w ∈ L.slotWrites bs c) : L.Area k w.1 := by
  obtain ⟨i, hi, rfl⟩ := mem_slotWrites.mp hw
  exact .inr ⟨i, Nat.lt_of_lt_of_le hi hlen, rfl⟩

theorem ahead_commitWrites (d : A → V) (c : A → V) {hd : V} (h0 : V)
    (hlen : bs.length ≤ k) (hout : ∀ b ∈ bs, ¬ L.Area k b) (hhd : L.homes hd = bs) :
    L.Ahead k d (L.commitWrites bs c hd h0) := by
  have hheader : ∀ {d : A → V} {v : V}, L.Ahead k d [(L.hdr, v)] := fun {d v} =>
    .of_area fun w hw => by
      rw [mem_singleton.mp hw]
      exact .inl rfl
  refine (Ahead.of_area fun w hw => area_of_mem_slotWrites hlen hw).append ?_
  refine hheader.append ((Ahead.of_homes ?_ fun w hw => ?_).append hheader)
  · rw [apply_singleton, update_self, hhd]
    exact fun hb => hout _ hb (.inl rfl)
  · obtain ⟨b, hb, rfl⟩ := mem_homeWrites.mp hw
    rw [apply_singleton, update_self, hhd]
    exact hb

section

variable (h : L.History k d₀ ws ns)

include h

/-- A write of what is there already. -/
theorem History.redundant {a : A} {v : V} (hv : apply d₀ ws a = v) :
    L.History k d₀ (ws ++ [(a, v)]) ns := by
  have happly : apply d₀ (ws ++ [(a, v)]) = apply d₀ ws := by
    rw [apply_append, apply_singleton]
    exact update_eq_self_iff.mpr hv.symm
  have hcrash : ∀ d, L.Crashed d₀ (ws ++ [(a, v)]) d → L.Crashed d₀ ws d := by
    intro d hd
    induction hd with
    | writes hp =>
      rcases prefix_concat_iff.mp hp with rfl | hp
      · rw [happly]
        exact .writes prefix_rfl
      · exact .writes hp
    | replay _ hp ih => exact .replay ih hp
  refine ⟨by rw [happly]; exact h.empty, fun n hn => ?_, ?_, fun d hd => ?_,
    h.ahead.append fun p w hp => ?_⟩
  · rw [length_append]
    exact Nat.le_add_right_of_le (h.bound n hn)
  · obtain ⟨n, hn, hlast⟩ := h.last
    refine ⟨n, hn, ?_⟩
    rw [happly, h.take_append hn]
    exact hlast
  · obtain ⟨hout, n, hn, hrec⟩ := h.safe d (hcrash d hd)
    refine ⟨hout, n, hn, ?_⟩
    rw [h.take_append hn]
    exact hrec
  · obtain ⟨rfl, hw⟩ := append_eq_singleton_iff.mp
      (prefix_concat_iff.mp (show p ++ [w] <+: [] ++ [_] from hp) |>.resolve_right (by simp))
      |>.resolve_right (by simp)
    cases hw
    exact .inr (.inl hv)

theorem History.before (hlen : bs.length ≤ k)
    (hd : L.Before (apply d₀ ws) bs d) (ws' : List (A × V)) :
    ∃ n ∈ 0 :: ns, ∀ a, ¬ L.Area k a → d a = apply d₀ ((ws ++ ws').take n) a := by
  obtain ⟨n, hn, hlast⟩ := h.last
  refine ⟨n, hn, fun a ha => ?_⟩
  rw [h.take_append hn, ← hlast a ha]
  exact hd.2 a fun hb => ha (hb.mono hlen)

theorem History.stopped (hlen : bs.length ≤ k) (hws : ws' <+: L.slotWrites bs c) :
    L.Recoverable k d₀ (ws ++ ws') ns ∧ L.Ahead k d₀ (ws ++ ws') := by
  refine ⟨fun d hd => ?_,
    h.ahead.append (.of_area fun w hw => area_of_mem_slotWrites hlen (hws.subset hw))⟩
  rcases hd.append with hd | hd
  · obtain ⟨hout, n, hn, hrec⟩ := h.safe d hd
    refine ⟨hout, n, hn, ?_⟩
    rw [h.take_append hn]
    exact hrec
  · have hbefore := hd.before h.empty hws
    refine ⟨.of_nil hbefore.1, ?_⟩
    rw [hbefore.recover]
    exact h.before hlen hbefore ws'

/-- One more commit. -/
theorem History.commit {hd h0 : V}
    (hlen : bs.length ≤ k) (hout : ∀ b ∈ bs, ¬ L.Area k b) (hhd : L.homes hd = bs)
    (hh0 : L.homes h0 = []) :
    L.History k d₀ (ws ++ L.commitWrites bs c hd h0)
      (ns ++ [(ws ++ L.commitWrites bs c hd h0).length]) := by
  have hout' : ∀ b ∈ bs, ¬ L.Area bs.length b := fun b hb hA => hout b hb (hA.mono hlen)
  have hfull : (ws ++ L.commitWrites bs c hd h0).take (ws ++ L.commitWrites bs c hd h0).length =
      ws ++ L.commitWrites bs c hd h0 := take_of_length_le (Nat.le_refl _)
  have hmem : (ws ++ L.commitWrites bs c hd h0).length ∈
      0 :: (ns ++ [(ws ++ L.commitWrites bs c hd h0).length]) := by simp
  have hold : ∀ {n}, n ∈ 0 :: ns → n ∈ 0 :: (ns ++ [(ws ++ L.commitWrites bs c hd h0).length]) :=
    fun hn => cons_append ▸ mem_append_left _ hn
  refine ⟨?_, fun n hn => ?_, ⟨_, hmem, fun a _ => by rw [hfull]⟩, fun d hcr => ?_,
    h.ahead.append (ahead_commitWrites _ c h0 hlen hout hhd)⟩
  · rw [apply_append, apply_commitWrites_hdr]
    exact hh0
  · rcases mem_append.mp hn with hn | hn
    · rw [length_append]
      exact Nat.le_add_right_of_le (h.bound n hn)
    · exact Nat.le_of_eq (mem_singleton.mp hn)
  rcases hcr.append with hcr | hcr
  · obtain ⟨hlog, n, hn, hrec⟩ := h.safe d hcr
    refine ⟨hlog, n, hold hn, ?_⟩
    rw [h.take_append hn]
    exact hrec
  refine ⟨?_, ?_⟩
  · exact .of_homes hout' (hcr.phase_of_commit h.empty hout' hhd hh0).homes
  rcases crash_atomic h.empty hout' hhd hh0 hcr with hb | ha
  · obtain ⟨n, hn, hsame⟩ := h.before hlen hb (L.commitWrites bs c hd h0)
    exact ⟨n, hold hn, hsame⟩
  -- the commit is done: its homes are new and the rest is as before
  refine ⟨_, hmem, fun a hA => ?_⟩
  rw [hfull, apply_append]
  by_cases hb : a ∈ bs
  · rw [ha.2.1 a hb, apply_commitWrites_of_mem hb fun he => hA (.inl he)]
  · have hA' : ¬ L.Area bs.length a := fun h => hA (h.mono hlen)
    rw [ha.2.2 a hA' hb, apply_commitWrites_of_not_mem hA' hb]

end

end Layout

end RedoLog
