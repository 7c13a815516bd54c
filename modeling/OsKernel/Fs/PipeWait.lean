import OsKernel.Fs.Pipe

/-!
# Waiting at a pipe

An event at a pipe posts its semaphore once, however many processes wait for it, and a process that
has been woken does not pass the post on.  So of two sleepers one may be left behind.

With at most one process waiting at each end this cannot happen.  Before it waits the process has
seen, with the lock, that it has to.  If that changes before it sleeps, the post leaves a token
behind, and if it changes later, the post wakes it.
-/

namespace OsKernel

open Function PipePc

variable {pc : Nat → PipePc} {l : PipeLabel}

def Pipe.Ready (pi : Pipe) : PipeEnd → Prop
  | .read => pi.nread ≠ pi.nwrite ∨ pi.writeopen = false
  | .write => ¬ pi.Full ∨ pi.readopen = false

namespace Pipe

@[simp] theorem sem_setSem (pi : Pipe) (sem : Semaphore) (e : PipeEnd) :
    (pi.setSem sem e).sem e = sem := by
  cases e <;> rfl

theorem sem_setSem_of_ne (pi : Pipe) (sem : Semaphore) {e e' : PipeEnd} (h : e' ≠ e) :
    (pi.setSem sem e).sem e' = pi.sem e' := by
  cases e <;> cases e' <;> first | rfl | exact absurd rfl h

@[simp] theorem ready_setSem (pi : Pipe) (sem : Semaphore) (e e' : PipeEnd) :
    (pi.setSem sem e).Ready e' ↔ pi.Ready e' := by
  cases e <;> cases e' <;> exact Iff.rfl

end Pipe

namespace PipePc

/-- The end where the process is about to wait. -/
def gapAt : PipePc → Option PipeEnd
  | gap c => some c.side
  | _ => none

def sleepsAt : PipePc → Option PipeEnd
  | sleep c => some c.side
  | _ => none

def WaitsAt (pc : PipePc) (e : PipeEnd) : Prop := pc.gapAt = some e ∨ pc.sleepsAt = some e

@[simp] theorem gapAt_wake (pc : PipePc) : pc.wake.gapAt = pc.gapAt := by
  cases pc <;> rfl

@[simp] theorem sleepsAt_wake (pc : PipePc) : pc.wake.sleepsAt = none := by
  cases pc <;> rfl

end PipePc

namespace PipeSys

def Blocks (s : PipeSys) (killed : Nat → Bool) : PipeCall → Prop
  | .read _ =>
    s.pipe.nread = s.pipe.nwrite ∧ s.pipe.writeopen = true ∧ killed 0 = false
  | .write id =>
    (s.writeLoop killed id ((s.writes id).n - (s.writes id).count).toNat).1 = .full

/-- The call is not killed while it is storing bytes. -/
def Steady (s : PipeSys) (killed : Nat → Bool) : PipeCall → Prop
  | .read _ => True
  | .write id =>
    ∀ k < (s.writes id).n.toNat, (s.writes id).count ≤ k → killed k = killed (s.writes id).count

/-- A call starts to wait only when no other process waits at its end, and it is not killed while
it is storing bytes. -/
def Ok (s : PipeSys) : PipeLabel → Prop
  | .run p killed => ∀ c, s.pc p = .run c →
      (s.Blocks killed c → ∀ q, ¬ (s.pc q).WaitsAt c.side) ∧ s.Steady killed c
  | _ => True

/-- The processes at one end: those on the sleep list are asleep, and at most one waits. -/
structure Queue (s : PipeSys) (e : PipeEnd) : Prop where
  wf : (s.pipe.sem e).WF
  nodup : (s.pipe.sem e).sleeplist.Nodup
  mem : ∀ p, p ∈ (s.pipe.sem e).sleeplist ↔ (s.pc p).sleepsAt = some e
  one : ∀ p q, (s.pc p).WaitsAt e → (s.pc q).WaitsAt e → p = q

/-- A process that is about to wait will find a token if there is something to do, and one that
is asleep has nothing to do. -/
structure Side (s : PipeSys) (e : PipeEnd) : Prop extends Queue s e where
  gap : ∀ p, (s.pc p).gapAt = some e → s.pipe.Ready e → 0 < (s.pipe.sem e).val
  sleep : ∀ p, (s.pc p).sleepsAt = some e → ¬ s.pipe.Ready e

variable {s s' : PipeSys} {e e' : PipeEnd} {p : Nat}

theorem Queue.congr (h : s.Queue e) (hsem : s'.pipe.sem e = s.pipe.sem e)
    (hgap : ∀ p, (s'.pc p).gapAt = some e ↔ (s.pc p).gapAt = some e)
    (hsleep : ∀ p, (s'.pc p).sleepsAt = some e ↔ (s.pc p).sleepsAt = some e) : s'.Queue e where
  wf := hsem ▸ h.wf
  nodup := hsem ▸ h.nodup
  mem := by
    intro p
    rw [hsem, hsleep]
    exact h.mem p
  one := by
    intro p q hp hq
    simp only [PipePc.WaitsAt, hgap, hsleep] at hp hq
    exact h.one p q hp hq

theorem Side.congr (h : s.Side e) (hsem : s'.pipe.sem e = s.pipe.sem e)
    (hgap : ∀ p, (s'.pc p).gapAt = some e ↔ (s.pc p).gapAt = some e)
    (hsleep : ∀ p, (s'.pc p).sleepsAt = some e ↔ (s.pc p).sleepsAt = some e)
    (hready : s'.pipe.Ready e → s.pipe.Ready e) : s'.Side e where
  toQueue := h.toQueue.congr hsem hgap hsleep
  gap := by
    intro p hp hr
    rw [hsem]
    exact h.gap p ((hgap p).mp hp) (hready hr)
  sleep := by
    intro p hp hr
    exact h.sleep p ((hsleep p).mp hp) (hready hr)

theorem Side.setPc (h : s.Side e) {pc : PipePc} (hpc : ¬ (s.pc p).WaitsAt e)
    (hpc' : ¬ pc.WaitsAt e) : (s.setPc p pc).Side e := by
  simp only [PipePc.WaitsAt, not_or] at hpc hpc'
  refine h.congr rfl ?_ ?_ id
  · intro q
    by_cases hq : q = p
    · simp [hq, hpc, hpc']
    · simp [pc_setPc_of_ne s pc hq]
  · intro q
    by_cases hq : q = p
    · simp [hq, hpc, hpc']
    · simp [pc_setPc_of_ne s pc hq]

theorem gapAt_wakeAt (pc : Nat → PipePc) (woken : Option Nat) (q : Nat) :
    (wakeAt pc woken q).gapAt = (pc q).gapAt := by
  cases woken with
  | none => rfl
  | some p =>
    by_cases hq : q = p
    · simp [wakeAt, hq]
    · simp [wakeAt, hq]

variable {c : PipeCall} {killed : Nat → Bool} {id : Nat}

theorem wakeAt_run {woken : Option Nat} (h : pc p = .run c) :
    wakeAt pc woken p = .run c := by
  cases woken with
  | none => exact h
  | some q =>
    obtain rfl | hq := eq_or_ne p q
    · simp [wakeAt, h, wake]
    · simp [wakeAt, hq, h]

theorem Side.of_idle (hwf : (s.pipe.sem e).WF) (hnil : (s.pipe.sem e).sleeplist = [])
    (hnone : ∀ q, ¬ (s.pc q).WaitsAt e) : s.Side e where
  wf := hwf
  nodup := by
    rw [hnil]
    exact List.nodup_nil
  mem := by
    intro q
    have hq := hnone q
    simp only [PipePc.WaitsAt, not_or] at hq
    simpa [hnil] using hq.2
  one := fun q q' hq => absurd hq (hnone q)
  gap := fun q hq => absurd (.inl hq) (hnone q)
  sleep := fun q hq => absurd (.inr hq) (hnone q)

theorem Queue.sleeplist_eq (h : s.Queue e) {rest : List Nat}
    (hl : (s.pipe.sem e).sleeplist = rest ++ [p]) : rest = [] := by
  have hnodup := h.nodup
  rw [hl] at hnodup
  rw [List.eq_nil_iff_forall_not_mem]
  intro q hq
  have hqs := (h.mem q).mp (by simp [hl, hq])
  have hps := (h.mem p).mp (by simp [hl])
  have heq : q = p := h.one q p (.inr hqs) (.inr hps)
  subst heq
  exact (List.disjoint_of_nodup_append hnodup) hq (by simp)

/-- After a post nobody sleeps at the end, and who is about to wait will find a token. -/
theorem Queue.post (h : s.Queue e) (hs : s.post e = .ok s') : s'.Side e := by
  obtain ⟨sem, woken, hpost, rfl⟩ := post_ok hs
  have hwf := h.wf.postSem hpost
  rcases Semaphore.postSem_cases h.wf with ⟨hnil, hv, he⟩ | ⟨rest, q, hl, hv, he⟩
  · -- no process sleeps, and the token stays
    rw [he] at hpost
    cases hpost
    have hnone : ∀ p, (s.pc p).sleepsAt ≠ some e := by
      intro p hp
      have hmem := (h.mem p).mpr hp
      simp [hnil] at hmem
    constructor
    · constructor
      · simpa using hwf
      · simp
      · intro p
        simpa [wakeAt] using hnone p
      · exact h.one
    · intro p hp hr
      simp only [Pipe.sem_setSem]
      omega
    · intro p hp
      exact absurd hp (hnone p)
  · -- the only process that waits is woken
    rw [he] at hpost
    cases hpost
    have hrest := h.sleeplist_eq hl
    subst hrest
    have hq := (h.mem q).mp (by simp [hl])
    have hnone : ∀ p, ¬ (wakeAt s.pc (some q) p).WaitsAt e := by
      intro p hp
      obtain rfl | hpq := eq_or_ne p q
      · simp only [PipePc.WaitsAt, wakeAt, update_self, gapAt_wake,
          sleepsAt_wake] at hp
        cases hc : s.pc p <;> simp_all [gapAt, sleepsAt]
      · simp only [wakeAt, update_of_ne hpq] at hp
        exact hpq (h.one p q hp (.inr hq))
    exact .of_idle (by simpa using hwf) (by simp) hnone

theorem Side.post_ne (h : s.Side e') (hq : s.Queue e) (hne : e' ≠ e) (hs : s.post e = .ok s') :
    s'.Side e' := by
  obtain ⟨sem, woken, hpost, rfl⟩ := post_ok hs
  refine h.congr (Pipe.sem_setSem_of_ne _ _ hne) ?_ ?_ (Pipe.ready_setSem _ _ _ _).mp
  · intro p
    simp only [gapAt_wakeAt]
  intro p
  cases woken with
  | none => exact Iff.rfl
  | some q =>
    -- the woken process was asleep at the other end
    have hqs : (s.pc q).sleepsAt = some e := by
      rcases Semaphore.postSem_cases hq.wf with ⟨hnil, hv, he⟩ | ⟨rest, r, hl, hv, he⟩
      · rw [he] at hpost
        cases hpost
      · rw [he] at hpost
        cases hpost
        exact (hq.mem q).mp (by simp [hl])
    by_cases hpq : p = q
    · simp [wakeAt, hpq, hqs, Ne.symm hne]
    · simp [wakeAt, hpq]

theorem Side.enterGap (h : s.Side c.side) (hpc : s.pc p = .run c)
    (hready : ¬ s.pipe.Ready c.side) (hnone : ∀ q, ¬ (s.pc q).WaitsAt c.side) :
    (s.setPc p (.gap c)).Side c.side := by
  have hsleep : ∀ q, ((s.setPc p (.gap c)).pc q).sleepsAt = (s.pc q).sleepsAt := by
    intro q
    by_cases hq : q = p
    · simp [hq, hpc, sleepsAt]
    · rw [pc_setPc_of_ne s _ hq]
  have hwaits : ∀ q, ((s.setPc p (.gap c)).pc q).WaitsAt c.side → q = p := by
    intro q hw
    by_contra hq
    rw [pc_setPc_of_ne s _ hq] at hw
    exact hnone q hw
  constructor
  · constructor
    · exact h.wf
    · exact h.nodup
    · intro q
      rw [hsleep]
      exact h.mem q
    · intro q q' hq hq'
      rw [hwaits q hq, hwaits q' hq']
  · intro q hq hr
    exact absurd hr hready
  · intro q hq hr
    exact absurd hr hready

section

variable (h : s.Queue c.side) (hpc : s.pc p = .gap c)

include h hpc

theorem Queue.eq_of_gap : ∀ q, (s.pc q).WaitsAt c.side → q = p := by
  intro q hq
  have hp : (s.pc p).gapAt = some c.side := by
    rw [hpc]
    rfl
  exact h.one q p hq (.inl hp)

theorem Queue.sleeplist_of_gap : (s.pipe.sem c.side).sleeplist = [] := by
  rw [List.eq_nil_iff_forall_not_mem]
  intro q hq
  have hqs := (h.mem q).mp hq
  rw [h.eq_of_gap hpc q (.inr hqs), hpc] at hqs
  cases hqs

theorem Queue.waitSem_token
    (hw : (s.pipe.sem c.side).waitSem p = (⟨(s.pipe.sem c.side).val - 1, []⟩, true)) :
    (s.waitSem p c).Side c.side := by
  have hsem : (s.waitSem p c).pipe.sem c.side = ⟨(s.pipe.sem c.side).val - 1, []⟩ := by
    simp [PipeSys.waitSem, hw, PipeSys.setPc]
  have hwf := h.wf.waitSem p
  rw [hw] at hwf
  refine .of_idle (by rw [hsem]; exact hwf) (by rw [hsem]) ?_
  intro q hq
  simp only [PipeSys.waitSem, hw] at hq
  by_cases hqp : q = p
  · simp [hqp, PipePc.WaitsAt, gapAt, sleepsAt] at hq
  · rw [pc_setPc_of_ne _ _ hqp] at hq
    exact hqp (h.eq_of_gap hpc q hq)

end

theorem Side.waitSem_sleep (h : s.Side c.side) (hpc : s.pc p = .gap c)
    (hv : (s.pipe.sem c.side).val ≤ 0)
    (hw : (s.pipe.sem c.side).waitSem p = (⟨(s.pipe.sem c.side).val - 1, [p]⟩, false)) :
    (s.waitSem p c).Side c.side := by
  have hready : ¬ s.pipe.Ready c.side := by
    intro hr
    have hpos := h.gap p (by rw [hpc]; rfl) hr
    omega
  have hsem : (s.waitSem p c).pipe.sem c.side = ⟨(s.pipe.sem c.side).val - 1, [p]⟩ := by
    simp [PipeSys.waitSem, hw, PipeSys.setPc]
  have hpc' : (s.waitSem p c).pc p = .sleep c := by
    simp [PipeSys.waitSem, hw]
  have hready' : ¬ (s.waitSem p c).pipe.Ready c.side := by
    simpa [PipeSys.waitSem, hw, PipeSys.setPc] using hready
  have honly : ∀ q, ((s.waitSem p c).pc q).WaitsAt c.side → q = p := by
    intro q hq
    by_contra hqp
    simp only [PipeSys.waitSem, hw] at hq
    rw [pc_setPc_of_ne _ _ hqp] at hq
    exact hqp (h.eq_of_gap hpc q hq)
  have hwf := h.wf.waitSem p
  rw [hw] at hwf
  constructor
  · constructor
    · rw [hsem]
      exact hwf
    · rw [hsem]
      exact List.nodup_singleton p
    · intro q
      rw [hsem, List.mem_singleton]
      constructor
      · intro hq
        rw [hq, hpc']
        rfl
      · intro hq
        exact honly q (.inr hq)
    · intro q q' hq hq'
      rw [honly q hq, honly q' hq']
  · intro q hq hr
    exact absurd hr hready'
  · intro q hq hr
    exact absurd hr hready'

theorem Side.waitSem_ne (h : s.Side e) (hpc : s.pc p = .gap c) (hne : e ≠ c.side) :
    (s.waitSem p c).Side e := by
  have hside : ∀ sem, ({ s with pipe := s.pipe.setSem sem c.side } : PipeSys).Side e := fun sem =>
    h.congr (Pipe.sem_setSem_of_ne _ _ hne) (fun _ => Iff.rfl) (fun _ => Iff.rfl)
      (Pipe.ready_setSem _ _ _ _).mp
  have hgap : ¬ (s.pc p).WaitsAt e := by
    simp [PipePc.WaitsAt, hpc, gapAt, sleepsAt, Ne.symm hne]
  unfold PipeSys.waitSem
  split
  · exact (hside _).setPc hgap (by simp [PipePc.WaitsAt, gapAt, sleepsAt])
  · exact (hside _).setPc hgap
      (by simp [PipePc.WaitsAt, gapAt, sleepsAt, Ne.symm hne])

theorem Side.waitSem (h : s.Side e) (hpc : s.pc p = .gap c) : (s.waitSem p c).Side e := by
  obtain rfl | he := eq_or_ne e c.side
  · rcases Semaphore.waitSem_cases h.wf p with ⟨hv, hnil, hw⟩ | ⟨hv, hw⟩
    · exact h.waitSem_token hpc hw
    · rw [h.sleeplist_of_gap hpc] at hw
      exact h.waitSem_sleep hpc hv hw
  · exact h.waitSem_ne hpc he

/-! ## The calls -/

theorem writeLoop_spec {w : WriteEnd} (rest : Nat) (hs : s.writeLoop killed id rest = (w, s')) :
    s'.pc = s.pc ∧ (∀ e, s'.pipe.sem e = s.pipe.sem e) ∧
      (s'.pipe.Ready .write → s.pipe.Ready .write) ∧
      (w = .full → ¬ s'.pipe.Ready .write) := by
  induction rest generalizing s with
  | zero =>
    cases hs
    exact ⟨rfl, fun _ => rfl, fun h => h, fun h => by cases h⟩
  | succ rest ih =>
    rw [writeLoop] at hs
    split at hs
    · cases hs
      exact ⟨rfl, fun _ => rfl, fun h => h, fun h => by cases h⟩
    next hgo =>
      simp only [Bool.or_eq_true, Bool.not_eq_true', not_or] at hgo
      split at hs
      · next hfull =>
          cases hs
          refine ⟨rfl, fun _ => rfl, fun h => h, fun _ hr => ?_⟩
          exact hr.elim (fun h => h hfull) (fun h => hgo.1 h)
      · next hfull =>
          obtain ⟨hpc, hsem, -, hend⟩ := ih hs
          exact ⟨hpc, hsem, fun _ => .inl hfull, hend⟩

theorem writeLoop_ne_fail (rest : Nat) (hopen : s.pipe.readopen = true)
    (hkilled : ∀ k, (s.writes id).count ≤ k → k < (s.writes id).count + rest → killed k = false) :
    (s.writeLoop killed id rest).1 ≠ .fail := by
  induction rest generalizing s with
  | zero =>
    intro h
    cases h
  | succ rest ih =>
    have hnow := hkilled (s.writes id).count (Nat.le_refl _) (by omega)
    rw [writeLoop]
    simp only [hopen, hnow, Bool.not_true, Bool.or_self, Bool.false_eq_true, if_false]
    split
    · intro h
      cases h
    · refine ih hopen fun k hk hlt => ?_
      simp only [storeByte, update_self] at hk hlt
      exact hkilled k (by omega) (by omega)

theorem writeLoop_fail (hsteady : s.Steady killed (.write id))
    (hs : s.writeLoop killed id ((s.writes id).n - (s.writes id).count).toNat = (.fail, s')) :
    s' = s := by
  cases hrest : ((s.writes id).n - (s.writes id).count).toNat with
  | zero =>
    rw [hrest] at hs
    cases hs
  | succ rest =>
    rw [hrest] at hs
    have hfail : (s.writeLoop killed id (rest + 1)).1 = .fail := by rw [hs]
    rw [writeLoop] at hs
    split at hs
    · cases hs
      rfl
    next hgo =>
      simp only [Bool.or_eq_true, Bool.not_eq_true', not_or, Bool.not_eq_true,
        Bool.not_eq_false] at hgo
      refine absurd hfail (writeLoop_ne_fail _ hgo.1 fun k hk hlt => ?_)
      rw [hsteady k (by omega) hk]
      exact hgo.2

theorem not_waitsAt_run (c : PipeCall) (e : PipeEnd) : ¬ (PipePc.run c).WaitsAt e := by
  simp [PipePc.WaitsAt, gapAt, sleepsAt]

theorem not_waitsAt_out (e : PipeEnd) : ¬ PipePc.out.WaitsAt e := by
  simp [PipePc.WaitsAt, gapAt, sleepsAt]

theorem Side.of_same (h : s.Side e) (hpc : s'.pc = s.pc)
    (hsem : ∀ e, s'.pipe.sem e = s.pipe.sem e) (hready : s'.pipe.Ready e → s.pipe.Ready e) :
    s'.Side e :=
  h.congr (hsem e) (fun _ => by rw [hpc]) (fun _ => by rw [hpc]) hready

theorem Queue.of_same (h : s.Queue e) (hpc : s'.pc = s.pc)
    (hsem : ∀ e, s'.pipe.sem e = s.pipe.sem e) : s'.Queue e :=
  h.congr (hsem e) (fun _ => by rw [hpc]) (fun _ => by rw [hpc])

theorem Side.returns (h : s.Side e) {r : Int} (hpc : ¬ (s.pc p).WaitsAt e) :
    (s.returns p id r).Side e := by
  refine Side.setPc ?_ hpc (not_waitsAt_out e)
  exact h.of_same rfl (fun _ => rfl) fun hr => hr

theorem post_run (hpc : s.pc p = .run c) (hs : s.post e = .ok s') : s'.pc p = .run c := by
  obtain ⟨sem, woken, -, rfl⟩ := post_ok hs
  exact wakeAt_run hpc

theorem waitsAt_of_post (hs : s.post e' = .ok s') {q : Nat} (hq : (s'.pc q).WaitsAt e) :
    (s.pc q).WaitsAt e := by
  obtain ⟨sem, woken, -, rfl⟩ := post_ok hs
  cases woken with
  | none => exact hq
  | some r =>
    obtain rfl | hqr := eq_or_ne q r
    · simp only [PipePc.WaitsAt, wakeAt, update_self, gapAt_wake, sleepsAt_wake] at hq
      exact .inl (hq.resolve_right fun h => by cases h)
    · simpa only [wakeAt, update_of_ne hqr] using hq

theorem post_ready (hs : s.post e = .ok s') (e' : PipeEnd) :
    s'.pipe.Ready e' ↔ s.pipe.Ready e' := by
  obtain ⟨sem, woken, -, rfl⟩ := post_ok hs
  exact Pipe.ready_setSem _ _ _ _

theorem side_post {c : PipeEnd} (hq : s.Queue c) (h : ∀ e, e ≠ c → s.Side e)
    (hs : s.post c = .ok s') (e : PipeEnd) : s'.Side e := by
  by_cases he : e = c
  · rw [he]
    exact hq.post hs
  · exact (h e he).post_ne hq he hs

theorem side_pipeWrite (h : ∀ e, s.Side e) (hpc : s.pc p = .run (.write id))
    (hblocks : s.Blocks killed (.write id) → ∀ q, ¬ (s.pc q).WaitsAt .write)
    (hsteady : s.Steady killed (.write id)) (hs : s.pipeWrite p id killed = .ok s')
    (e : PipeEnd) : s'.Side e := by
  obtain ⟨w, s1, hloop, hend⟩ := pipeWrite_ok hs
  obtain ⟨hpc1, hsem1, hready1, hfull1⟩ := writeLoop_spec _ hloop
  obtain ⟨rfl, rfl⟩ | ⟨s2, hpost, hend⟩ := hend
  · rw [writeLoop_fail hsteady hloop]
    refine (h e).returns ?_
    rw [hpc]
    exact not_waitsAt_run _ e
  have hwrite : ∀ e, e ≠ .read → s1.Side e := by
    intro e he
    cases e with
    | read => exact absurd rfl he
    | write => exact (h .write).of_same hpc1 hsem1 hready1
  have h2 : ∀ e, s2.Side e := side_post ((h .read).toQueue.of_same hpc1 hsem1) hwrite hpost
  have hpc2 := post_run (by rw [hpc1, hpc]) hpost
  have hrun : ∀ e, ¬ (s2.pc p).WaitsAt e := by
    intro e
    rw [hpc2]
    exact not_waitsAt_run _ e
  obtain ⟨rfl, rfl⟩ | ⟨rfl, rfl⟩ := hend
  · cases e with
    | read =>
      refine (h2 .read).setPc (hrun .read) ?_
      simp [PipePc.WaitsAt, gapAt, sleepsAt, PipeCall.side]
    | write =>
      refine (h2 .write).enterGap (c := .write id) hpc2 ?_ ?_
      · rw [post_ready hpost]
        exact hfull1 rfl
      · have hnone := hblocks (by simp only [Blocks, hloop])
        intro q hq
        have hq1 := waitsAt_of_post hpost hq
        rw [hpc1] at hq1
        exact hnone q hq1
  · exact (h2 e).returns (hrun e)

theorem readLoop_spec {obtained : Nat} (rest : Nat) (hs : s.readLoop rest = (obtained, s')) :
    s'.pc = s.pc ∧ (∀ e, s'.pipe.sem e = s.pipe.sem e) ∧
      (s'.pipe.Ready .read → s.pipe.Ready .read) := by
  induction rest generalizing s obtained with
  | zero =>
    cases hs
    exact ⟨rfl, fun _ => rfl, fun h => h⟩
  | succ rest ih =>
    rw [readLoop] at hs
    split at hs
    · next hne =>
        cases hl : readLoop rest s.deliverByte with
        | mk k s1 =>
          rw [hl] at hs
          cases hs
          obtain ⟨hpc, hsem, -⟩ := ih hl
          exact ⟨hpc, hsem, fun _ => .inl hne⟩
    · cases hs
      exact ⟨rfl, fun _ => rfl, fun h => h⟩

theorem side_pipeRead {n : Int} {r : Option Int} (h : ∀ e, s.Side e) (hpc : s.pc p = .run (.read n))
    (hblocks : s.Blocks killed (.read n) → ∀ q, ¬ (s.pc q).WaitsAt .read)
    (hs : s.pipeRead p n (killed 0) = .ok (r, s')) (e : PipeEnd) : s'.Side e := by
  have hrun : ∀ e, ¬ (s.pc p).WaitsAt e := by
    intro e
    rw [hpc]
    exact not_waitsAt_run _ e
  obtain ⟨-, obtained, s1, s2, hloop, hpost, -, rfl⟩ | ⟨hidle, ⟨-, rfl⟩ | ⟨-, hk, rfl⟩⟩ :=
    pipeRead_ok hs
  · obtain ⟨hpc1, hsem1, hready1⟩ := readLoop_spec _ hloop
    have hread : ∀ e, e ≠ .write → s1.Side e := by
      intro e he
      cases e with
      | read => exact (h .read).of_same hpc1 hsem1 hready1
      | write => exact absurd rfl he
    have h2 := side_post ((h .write).toQueue.of_same hpc1 hsem1) hread hpost e
    have hpc2 := post_run (by rw [hpc1, hpc]) hpost
    refine h2.setPc ?_ (not_waitsAt_out e)
    rw [hpc2]
    exact not_waitsAt_run _ e
  · exact (h e).setPc (hrun e) (not_waitsAt_out e)
  · cases e with
    | read =>
      refine (h .read).enterGap (c := .read n) hpc ?_ (hblocks ⟨hidle.1, hidle.2, hk⟩)
      intro hr
      exact hr.elim (fun hne => hne hidle.1) fun hc => by
        rw [hidle.2] at hc
        cases hc
    | write =>
      refine (h .write).setPc (hrun .write) ?_
      simp [PipePc.WaitsAt, gapAt, sleepsAt, PipeCall.side]

theorem side_pipeClose {writable : Bool} (h : ∀ e, s.Side e)
    (hs : s.pipeClose writable = .ok s') (e : PipeEnd) : s'.Side e := by
  obtain ⟨s1, freed, rfl, ⟨-, hpost⟩ | ⟨-, hpost⟩⟩ := pipeClose_ok hs
  · have h1 : s1.Side e := by
      refine side_post ?_ ?_ hpost e
      · exact (h .read).toQueue.of_same rfl fun _ => rfl
      · intro e he
        cases e with
        | read => exact absurd rfl he
        | write => exact (h .write).of_same rfl (fun _ => rfl) fun hr => hr
    exact h1.of_same rfl (fun _ => rfl) fun hr => hr
  · have h1 : s1.Side e := by
      refine side_post ?_ ?_ hpost e
      · exact (h .write).toQueue.of_same rfl fun _ => rfl
      · intro e he
        cases e with
        | read => exact (h .read).of_same rfl (fun _ => rfl) fun hr => hr
        | write => exact absurd rfl he
    exact h1.of_same rfl (fun _ => rfl) fun hr => hr

theorem side_init (h : Init s) (e : PipeEnd) : s.Side e := by
  obtain ⟨data, rfl⟩ := h
  refine .of_idle ?_ ?_ fun q => not_waitsAt_out e
  · cases e <;> exact Semaphore.WF.init (Int.le_refl 0)
  · cases e <;> rfl

theorem side_step (h : ∀ e, s.Side e) (hok : s.Ok l) (hs : s.step l = .ok s')
    (e : PipeEnd) : s'.Side e := by
  cases move_of_step hs with
  | write hpc =>
    refine Side.setPc ?_ (by rw [hpc]; exact not_waitsAt_out e) (not_waitsAt_run _ e)
    exact (h e).of_same rfl (fun _ => rfl) fun hr => hr
  | read hpc => exact (h e).setPc (by rw [hpc]; exact not_waitsAt_out e) (not_waitsAt_run _ e)
  | pipeWrite hpc hw => exact side_pipeWrite h hpc (hok _ hpc).1 (hok _ hpc).2 hw e
  | pipeRead hpc hr => exact side_pipeRead h hpc (hok _ hpc).1 hr e
  | wait hpc => exact (h e).waitSem hpc
  | close hc => exact side_pipeClose h hc e

theorem side_of_reach (h : Runs.Reach step Ok Init s) : ∀ e, s.Side e :=
  h.invariant (fun _ => side_init) fun _ _ _ hs hok hstep => side_step hs hok hstep

end PipeSys

open PipeSys in
/-- If a call starts to wait only when no other process waits at its end, and no call is killed
while it is storing bytes, nobody sleeps in `pipe_read` while there is something to read or the write
end is closed, and nobody sleeps in `pipe_write` while there is room or the read end is closed. -/
theorem pipe_no_stuck_sleeper (s : PipeSys) (h : Runs.Reach step Ok Init s) :
    (∀ p n, s.pc p = .sleep (.read n) → s.pipe.nread = s.pipe.nwrite ∧ s.pipe.writeopen = true) ∧
    (∀ p id, s.pc p = .sleep (.write id) → s.pipe.Full ∧ s.pipe.readopen = true) := by
  have hside := side_of_reach h
  constructor
  · intro p n hp
    have hr := (hside .read).sleep p (by rw [hp]; rfl)
    simpa [Pipe.Ready] using hr
  · intro p id hp
    have hr := (hside .write).sleep p (by rw [hp]; rfl)
    simpa [Pipe.Ready] using hr

namespace PipeSys

/-- One process sleeps at an empty pipe. -/
theorem pipe_no_stuck_sleeper_one : ∃ s, Runs.Reach step Ok Init s ∧
    s.pc 1 = .sleep (.read 1) ∧ s.pipe.nread = s.pipe.nwrite ∧ s.pipe.writeopen = true := by
  have h0 : Runs.Reach step Ok Init (start fun _ => 0) := .init ⟨_, rfl⟩
  have h1 : Runs.Reach step Ok Init ((start fun _ => 0).setPc 1 (.run (.read 1))) :=
    .step (l := PipeLabel.read 1 1) h0 trivial rfl
  have hok : Ok ((start fun _ => 0).setPc 1 (.run (.read 1))) (.run 1 fun _ => false) := by
    intro c hc
    cases hc
    refine ⟨fun _ q => ?_, trivial⟩
    by_cases hq : q = 1
    · rw [hq, pc_setPc_self]
      exact not_waitsAt_run _ _
    · rw [pc_setPc_of_ne _ _ hq]
      exact not_waitsAt_out _
  have h2 := Runs.Reach.step h1 hok rfl
  have h3 := Runs.Reach.step (l := PipeLabel.wait 1) h2 trivial rfl
  have hpc : (waitSem (((start fun _ => 0).setPc 1 (.run (.read 1))).setPc 1 (.gap (.read 1))) 1
      (.read 1)).pc 1 = .sleep (.read 1) := rfl
  exact ⟨_, h3, hpc, (pipe_no_stuck_sleeper _ h3).1 1 1 hpc⟩

end PipeSys

namespace PipeSys

variable {s s' : PipeSys} {e : PipeEnd} {p : Nat}

theorem wakeAt_out (woken : Option Nat) (h : pc p = .out) :
    wakeAt pc woken p = .out := by
  cases woken with
  | none => exact h
  | some q =>
    obtain rfl | hq := eq_or_ne p q
    · simp [wakeAt, h, wake]
    · simp [wakeAt, hq, h]

theorem post_out (hs : s.post e = .ok s') (h : s.pc p = .out) : s'.pc p = .out := by
  obtain ⟨sem, woken, -, rfl⟩ := post_ok hs
  exact wakeAt_out woken h

def proc : PipeLabel → Option Nat
  | .write p _ _ | .read p _ | .run p _ | .wait p | .alert p => some p
  | .close _ => none

theorem step_out (hs : s.step l = .ok s') (h : s.pc p = .out)
    (hl : proc l ≠ some p) : s'.pc p = .out := by
  have hset : ∀ {s1 : PipeSys} {q : Nat} {pc : PipePc}, some q ≠ some p → s1.pc p = .out →
      (s1.setPc q pc).pc p = .out := by
    intro s1 q pc hq h1
    rw [pc_setPc_of_ne _ _ fun he => hq (by rw [he]), h1]
  cases move_of_step hs with
  | write hpc => exact hset hl h
  | read hpc => exact hset hl h
  | pipeWrite hpc hw =>
    obtain ⟨w, s1, hloop, hend⟩ := pipeWrite_ok hw
    have h1 : s1.pc p = .out := by rw [(writeLoop_spec _ hloop).1, h]
    obtain ⟨-, rfl⟩ | ⟨s2, hpost, hend⟩ := hend
    · exact hset hl h1
    · have h2 : s2.pc p = .out := post_out hpost h1
      obtain ⟨-, rfl⟩ | ⟨-, rfl⟩ := hend
      · exact hset hl h2
      · exact hset hl h2
  | pipeRead hpc hr =>
    obtain ⟨-, obtained, s1, s2, hloop, hpost, -, rfl⟩ | ⟨-, ⟨-, rfl⟩ | ⟨-, -, rfl⟩⟩ :=
      pipeRead_ok hr
    · exact hset hl (post_out hpost (by rw [(readLoop_spec _ hloop).1, h]))
    · exact hset hl h
    · exact hset hl h
  | wait hpc =>
    unfold PipeSys.waitSem
    split <;> exact hset hl h
  | close hc =>
    obtain ⟨s1, freed, rfl, ⟨-, hpost⟩ | ⟨-, hpost⟩⟩ := pipeClose_ok hc
    · have h1 : s1.pc p = .out := post_out hpost h
      exact h1
    · have h1 : s1.pc p = .out := post_out hpost h
      exact h1

/-- Only the processes below `n` take steps. -/
def Below (n : Nat) (_ : PipeSys) (l : PipeLabel) : Prop := ∀ p ∈ proc l, p < n

instance (n : Nat) (s : PipeSys) (l : PipeLabel) : Decidable (Below n s l) :=
  inferInstanceAs (Decidable (∀ p ∈ proc l, p < n))

theorem out_of_below {n : Nat} (h : Runs.Reach step (Below n) Init s) :
    ∀ p, n ≤ p → s.pc p = .out := by
  refine h.invariant (I := fun s => ∀ p, n ≤ p → s.pc p = .out) ?_ ?_
  · intro s hs p hp
    obtain ⟨data, rfl⟩ := hs
    rfl
  · intro s l s' hs hl hstep p hp
    refine step_out hstep (hs p hp) fun he => ?_
    have hlt := hl p he
    omega

end PipeSys

open PipeSys in
/-- Two processes sleep in `pipe_read`.  A call of `pipe_write` stores two bytes and wakes one of
them, which reads one byte.  The other one sleeps on, with a byte in the buffer and nobody inside a
call but the sleeper. -/
theorem pipe_stuck_reader : ∃ s, Runs.Reach step Runs.always Init s ∧
    s.pc 1 = .sleep (.read 1) ∧ (∀ p, p ≠ 1 → s.pc p = .out) ∧
    s.pipe.nread ≠ s.pipe.nwrite := by
  have hinit : Init (start fun _ => 0) := ⟨_, rfl⟩
  obtain ⟨s, hs, hq⟩ := Runs.Reach.of_guardedTest hinit
    (by decide +kernel : Runs.execTest (Runs.guarded step
      (fun s l => decide (Below 3 s l)) .disabled) (start fun _ => 0)
      [.read 0 1, .run 0 (fun _ => false), .wait 0, .read 1 1, .run 1 (fun _ => false), .wait 1,
        .write 2 (fun _ => 7) 2, .run 2 (fun _ => false), .run 0 (fun _ => false)]
      (fun s => decide (s.pc 1 = .sleep (.read 1) ∧ s.pc 0 = .out ∧ s.pc 2 = .out ∧
        s.pipe.nread ≠ s.pipe.nwrite)) = true)
  obtain ⟨h1, h0, h2, hne⟩ := of_decide_eq_true hq
  refine ⟨s, hs.mono fun _ _ _ => trivial, h1, ?_, hne⟩
  intro p hp
  by_cases hlt : 3 ≤ p
  · exact out_of_below hs p hlt
  · have hcases : p = 0 ∨ p = 2 := by omega
    cases hcases with
    | inl h => rw [h, h0]
    | inr h => rw [h, h2]

end OsKernel
