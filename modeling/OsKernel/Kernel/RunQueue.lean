import Mathlib.Data.List.Nodup
import OsKernel.Kernel.Sched
import OsKernel.Lib.Runs

/-!
# The run queue

The scheduler of `kernel/sched.c` with its queue and its processors.  Every
function here runs with the lock of the scheduler, so a step is one call.  The
ring `rq` is the list of the processes in it, from `rq.next` on.

A process stays in the queue while it runs, and an idle process never is in
it.  Between the update of the caller and the choice of the next process, the
caller's processor runs nobody (`Mid`).
-/

namespace OsKernel

open Function List

abbrev NCPU : Nat := 4

structure RunQueue where
  rq : List Nat
  proc : Nat → Proc
  thisproc : Fin NCPU → Nat
  idle : Fin NCPU → Nat
  panicFlag : Bool

inductive SchedLabel where
  /-- The process on the processor calls `sched`. -/
  | sched (cpu : Fin NCPU) (newState : ProcState)
  | timer (cpu : Fin NCPU)
  | activate (p : Nat)
  | alert (p : Nat)
  /-- `p->killed = true`. -/
  | kill (p : Nat)
  /-- `panic_flag = true`. -/
  | panic
deriving DecidableEq

namespace RunQueue

/-! ## The code -/

def IsIdle (s : RunQueue) (p : Nat) : Prop := ∃ c, s.idle c = p

instance (s : RunQueue) (p : Nat) : Decidable (s.IsIdle p) :=
  inferInstanceAs (Decidable (∃ c, s.idle c = p))

def activateProc (s : RunQueue) (p : Nat) (onalert : Bool) : RunQueue :=
  match (s.proc p).activate onalert with
  | (q, true) => { s with proc := update s.proc p q, rq := p :: s.rq }
  | (_, false) => s

def updateThisState (s : RunQueue) (cpu : Fin NCPU) (newState : ProcState) : RunQueue :=
  let this := s.thisproc cpu
  let rq := if this ≠ s.idle cpu ∧ (s.proc this).awake then s.rq.erase this else s.rq
  let q := { s.proc this with state := newState }
  { s with
    proc := update s.proc this q
    rq := if this ≠ s.idle cpu ∧ q.awake then rq ++ [this] else rq }

def pickNext (s : RunQueue) (cpu : Fin NCPU) : Nat :=
  if s.panicFlag then s.idle cpu
  else
    match s.rq.find? fun p => (s.proc p).state = .RUNNABLE with
    | some p => p
    | none => s.idle cpu

def updateThisProc (s : RunQueue) (cpu : Fin NCPU) (p : Nat) : RunQueue :=
  { s with thisproc := update s.thisproc cpu p }

def sched (s : RunQueue) (cpu : Fin NCPU) (newState : ProcState) : Except Runs.Stop RunQueue :=
  let this := s.thisproc cpu
  if (s.proc this).state ≠ .RUNNING then .error .panic
  else if (s.proc this).killed && newState ≠ .ZOMBIE then .ok s
  else
    let s := s.updateThisState cpu newState
    let next := s.pickNext cpu
    let s := s.updateThisProc cpu next
    if (s.proc next).state ≠ .RUNNABLE then .error .panic
    else .ok { s with proc := update s.proc next (s.proc next).run }

/-- The states with which `sched` is called: by `yield` of any process, and by `_wait_sem` and
`exit` of a process that is not idle. -/
def called (idle : Bool) : ProcState → Bool
  | .RUNNABLE => true
  | .SLEEPING | .DEEPSLEEPING | .ZOMBIE => !idle
  | .UNUSED | .RUNNING => false

def timerHandler (s : RunQueue) (cpu : Fin NCPU) : Except Runs.Stop RunQueue :=
  if s.IsIdle (s.thisproc cpu) then .ok s else s.sched cpu .RUNNABLE

def step (s : RunQueue) : SchedLabel → Except Runs.Stop RunQueue
  | .sched cpu newState =>
    if called (s.IsIdle (s.thisproc cpu)) newState then s.sched cpu newState
    else .error .disabled
  | .timer cpu => s.timerHandler cpu
  | .activate p => .ok (s.activateProc p false)
  | .alert p => .ok (s.activateProc p true)
  | .kill p => .ok { s with proc := update s.proc p { s.proc p with killed := true } }
  | .panic => .ok { s with panicFlag := true }

/-- After `init_sched`: every processor runs its idle process, whose `killed` has not been
initialised, and every other process is yet to be started. -/
structure Init (s : RunQueue) : Prop where
  rq : s.rq = []
  thisproc : s.thisproc = s.idle
  idle : Injective s.idle
  running : ∀ c, (s.proc (s.idle c)).state = .RUNNING
  unused : ∀ p, ¬ s.IsIdle p → (s.proc p).state = .UNUSED

/-! ## The invariant -/

structure Inv (s : RunQueue) : Prop where
  idle : Injective s.idle
  nodup : s.rq.Nodup
  mem : ∀ p, p ∈ s.rq ↔ ¬ s.IsIdle p ∧ (s.proc p).awake = true
  running : ∀ p, (s.proc p).state = .RUNNING ↔ ∃ c, s.thisproc c = p
  thisproc : Injective s.thisproc
  awake : ∀ c, (s.proc (s.idle c)).awake = true
  own : ∀ c c', s.thisproc c = s.idle c' → c' = c

variable {s s' : RunQueue} {cpu : Fin NCPU} {newState : ProcState} {p : Nat}

theorem Inv.init (h : Init s) : s.Inv where
  idle := h.idle
  nodup := by
    rw [h.rq]
    exact nodup_nil
  mem := by
    intro p
    simp only [h.rq, not_mem_nil, false_iff, not_and]
    intro hp
    simp [Proc.awake, h.unused p hp]
  running := by
    intro p
    rw [h.thisproc]
    constructor
    · intro hp
      by_contra hidle
      rw [h.unused p hidle] at hp
      cases hp
    · intro hp
      obtain ⟨c, rfl⟩ := hp
      exact h.running c
  thisproc := by
    rw [h.thisproc]
    exact h.idle
  awake := by
    intro c
    simp [Proc.awake, h.running c]
  own := by
    intro c c' hc
    rw [h.thisproc] at hc
    exact (h.idle hc).symm

/-! ## Activation -/

theorem Inv.activateProc (h : s.Inv) (p : Nat) (onalert : Bool) : (s.activateProc p onalert).Inv := by
  unfold RunQueue.activateProc
  split
  · next q hq =>
      have hsleep : (s.proc p).awake = false := by
        cases hs : (s.proc p).state <;> simp_all [Proc.activate, Proc.awake]
      have hq' : q = { s.proc p with state := .RUNNABLE } := by
        cases hs : (s.proc p).state <;> cases onalert <;> simp_all [Proc.activate]
      have hidle : ¬ s.IsIdle p := by
        intro hp
        obtain ⟨c, rfl⟩ := hp
        rw [h.awake c] at hsleep
        cases hsleep
      have hnot : p ∉ s.rq := by
        rw [h.mem p]
        simp [hsleep]
      subst hq'
      constructor
      · exact h.idle
      · exact nodup_cons.mpr ⟨hnot, h.nodup⟩
      · intro r
        obtain rfl | hr := eq_or_ne r p
        · simpa [IsIdle, Proc.awake] using hidle
        · simpa [IsIdle, update_of_ne hr, hr] using h.mem r
      · intro r
        obtain rfl | hr := eq_or_ne r p
        · have hrun := h.running r
          have hne : (s.proc r).state ≠ .RUNNING := by
            intro hs
            simp [Proc.awake, hs] at hsleep
          simp only [hne, false_iff] at hrun
          simpa using hrun
        · simpa [update_of_ne hr] using h.running r
      · exact h.thisproc
      · intro c
        have hc : s.idle c ≠ p := fun hc => hidle ⟨c, hc⟩
        simpa [update_of_ne hc] using h.awake c
      · exact h.own
  · exact h

/-! ## The caller of `sched` -/

/-- The state while processor `cpu` runs nobody. -/
structure Mid (s : RunQueue) (cpu : Fin NCPU) : Prop where
  idle : Injective s.idle
  nodup : s.rq.Nodup
  mem : ∀ p, p ∈ s.rq ↔ ¬ s.IsIdle p ∧ (s.proc p).awake = true
  running : ∀ p, (s.proc p).state = .RUNNING ↔ ∃ c, c ≠ cpu ∧ s.thisproc c = p
  thisproc : Injective s.thisproc
  awake : ∀ c, (s.proc (s.idle c)).awake = true
  own : ∀ c c', s.thisproc c = s.idle c' → c' = c

@[simp] theorem idle_updateThisState (s : RunQueue) (cpu : Fin NCPU) (newState : ProcState) :
    (s.updateThisState cpu newState).idle = s.idle := rfl

theorem proc_updateThisState_self (s : RunQueue) (cpu : Fin NCPU) (newState : ProcState) :
    (s.updateThisState cpu newState).proc (s.thisproc cpu) =
      { s.proc (s.thisproc cpu) with state := newState } :=
  update_self ..

theorem proc_updateThisState_of_ne (s : RunQueue) (newState : ProcState)
    (hp : p ≠ s.thisproc cpu) : (s.updateThisState cpu newState).proc p = s.proc p :=
  update_of_ne hp ..

theorem Inv.rq_updateThisState (h : s.Inv) (newState : ProcState) :
    (s.updateThisState cpu newState).rq =
      if s.thisproc cpu = s.idle cpu then s.rq
      else s.rq.erase (s.thisproc cpu) ++
        if newState = .RUNNABLE ∨ newState = .RUNNING then [s.thisproc cpu] else [] := by
  have hrun : (s.proc (s.thisproc cpu)).state = .RUNNING := (h.running _).mpr ⟨cpu, rfl⟩
  by_cases hidle : s.thisproc cpu = s.idle cpu
  · simp [updateThisState, hidle]
  · by_cases hst : newState = .RUNNABLE ∨ newState = .RUNNING
    · simp [updateThisState, hidle, Proc.awake, hrun, hst]
    · simp [updateThisState, hidle, Proc.awake, hrun, hst]

theorem Inv.nodup_updateThisState (h : s.Inv) (newState : ProcState) :
    (s.updateThisState cpu newState).rq.Nodup := by
  rw [h.rq_updateThisState]
  split
  · exact h.nodup
  split
  · rw [nodup_append]
    refine ⟨h.nodup.erase _, nodup_singleton _, ?_⟩
    intro a ha b hb
    rw [mem_singleton] at hb
    rw [hb]
    exact ((h.nodup.mem_erase_iff).mp ha).1
  · rw [append_nil]
    exact h.nodup.erase _

/-- The process of a processor is idle only if it is that processor's idle process. -/
theorem Inv.isIdle_thisproc (h : s.Inv) : s.IsIdle (s.thisproc cpu) ↔ s.thisproc cpu = s.idle cpu := by
  constructor
  · intro hidle
    obtain ⟨c, hc⟩ := hidle
    rw [h.own cpu c hc.symm] at hc
    exact hc.symm
  · intro hc
    exact ⟨cpu, hc.symm⟩

theorem Inv.mem_updateThisState (h : s.Inv) (newState : ProcState) (p : Nat) :
    p ∈ (s.updateThisState cpu newState).rq ↔
      ¬ s.IsIdle p ∧ ((s.updateThisState cpu newState).proc p).awake = true := by
  rw [h.rq_updateThisState]
  obtain rfl | hp := eq_or_ne p (s.thisproc cpu)
  · rw [proc_updateThisState_self, h.isIdle_thisproc]
    have hmem := h.mem (s.thisproc cpu)
    by_cases hc : s.thisproc cpu = s.idle cpu
    · rw [if_pos hc]
      rw [h.isIdle_thisproc] at hmem
      simpa [hc] using hmem
    · rw [if_neg hc, mem_append, h.nodup.mem_erase_iff]
      by_cases hst : newState = .RUNNABLE ∨ newState = .RUNNING
      · simp [hc, hst, Proc.awake]
      · simp [hc, hst, Proc.awake]
  · rw [proc_updateThisState_of_ne s newState hp, ← h.mem p]
    split
    · exact Iff.rfl
    · split
      · simp [h.nodup.mem_erase_iff, hp]
      · simp [h.nodup.mem_erase_iff, hp]

theorem Inv.mid (h : s.Inv) (hne : newState ≠ .RUNNING)
    (hidle : s.thisproc cpu = s.idle cpu → newState = .RUNNABLE) :
    (s.updateThisState cpu newState).Mid cpu where
  idle := h.idle
  nodup := h.nodup_updateThisState newState
  mem := h.mem_updateThisState newState
  running := by
    intro p
    obtain rfl | hp := eq_or_ne p (s.thisproc cpu)
    · rw [proc_updateThisState_self]
      constructor
      · intro hst
        exact absurd hst hne
      · intro hc
        obtain ⟨c, hc, hthis⟩ := hc
        exact absurd (h.thisproc hthis) hc
    · rw [proc_updateThisState_of_ne s newState hp, h.running p]
      constructor
      · intro hc
        obtain ⟨c, rfl⟩ := hc
        exact ⟨c, fun he => hp (by rw [he]), rfl⟩
      · intro hc
        obtain ⟨c, -, hthis⟩ := hc
        exact ⟨c, hthis⟩
  thisproc := h.thisproc
  awake := by
    intro c
    by_cases hc : s.idle c = s.thisproc cpu
    · have hcpu : c = cpu := h.own cpu c hc.symm
      rw [idle_updateThisState, hc, proc_updateThisState_self, hidle (by rw [← hc, hcpu])]
      rfl
    · rw [idle_updateThisState, proc_updateThisState_of_ne s newState hc]
      exact h.awake c
  own := h.own

/-! ## The next process -/

theorem Mid.state_idle (h : s.Mid cpu) : (s.proc (s.idle cpu)).state = .RUNNABLE := by
  have hawake := h.awake cpu
  simp only [Proc.awake, Bool.or_eq_true, decide_eq_true_eq] at hawake
  refine hawake.resolve_right fun hrun => ?_
  obtain ⟨c, hc, hthis⟩ := (h.running _).mp hrun
  exact hc (h.own c cpu hthis).symm

theorem pickNext_cases (s : RunQueue) (cpu : Fin NCPU) : s.pickNext cpu = s.idle cpu ∨
      s.pickNext cpu ∈ s.rq ∧ (s.proc (s.pickNext cpu)).state = .RUNNABLE := by
  unfold pickNext
  split
  · exact .inl rfl
  · split
    · next hfind =>
        have hst := List.find?_some hfind
        exact .inr ⟨mem_of_find?_eq_some hfind, of_decide_eq_true hst⟩
    · exact .inl rfl

theorem Mid.state_pickNext (h : s.Mid cpu) : (s.proc (s.pickNext cpu)).state = .RUNNABLE := by
  cases pickNext_cases s cpu with
  | inl hnext => rw [hnext, h.state_idle]
  | inr hnext => exact hnext.2

theorem Mid.switch (h : s.Mid cpu) {next : Nat} (hnext : next = s.pickNext cpu) :
    ({ s.updateThisProc cpu next with
      proc := update s.proc next (s.proc next).run } : RunQueue).Inv := by
  have hrunnable : (s.proc next).state = .RUNNABLE := by
    rw [hnext]
    exact h.state_pickNext
  have hother : ∀ c, c ≠ cpu → s.thisproc c ≠ next := by
    intro c hc hthis
    have hrun := (h.running next).mpr ⟨c, hc, hthis⟩
    rw [hrunnable] at hrun
    cases hrun
  have hawake : ∀ p, (update s.proc next (s.proc next).run p).awake = (s.proc p).awake := by
    intro p
    obtain rfl | hp := eq_or_ne p next
    · simp [Proc.awake, hrunnable, Proc.run]
    · rw [update_of_ne hp]
  constructor
  · exact h.idle
  · exact h.nodup
  · intro p
    simp only [hawake]
    exact h.mem p
  · intro p
    obtain rfl | hp := eq_or_ne p next
    · simp only [update_self, Proc.run, true_iff]
      exact ⟨cpu, update_self ..⟩
    simp only [update_of_ne hp, updateThisProc]
    rw [h.running p]
    constructor
    · intro hc
      obtain ⟨c, hc, hthis⟩ := hc
      exact ⟨c, by rw [update_of_ne hc, hthis]⟩
    intro hc
    obtain ⟨c, hthis⟩ := hc
    by_cases hcpu : c = cpu
    · rw [hcpu, update_self] at hthis
      exact absurd hthis.symm hp
    · rw [update_of_ne hcpu] at hthis
      exact ⟨c, hcpu, hthis⟩
  · intro c c' hcc
    simp only [updateThisProc] at hcc
    by_cases hc : c = cpu
    · by_cases hc' : c' = cpu
      · rw [hc, hc']
      · rw [hc, update_self, update_of_ne hc'] at hcc
        exact absurd hcc.symm (hother c' hc')
    · by_cases hc' : c' = cpu
      · rw [hc', update_self, update_of_ne hc] at hcc
        exact absurd hcc (hother c hc)
      · rw [update_of_ne hc, update_of_ne hc'] at hcc
        exact h.thisproc hcc
  · intro c
    simp only [hawake]
    exact h.awake c
  · intro c c' hcc
    simp only [updateThisProc] at hcc
    by_cases hc : c = cpu
    · rw [hc, update_self] at hcc
      rw [hc]
      cases pickNext_cases s cpu with
      | inl hidle => exact h.idle (by rw [← hcc, hnext, hidle])
      | inr hmem =>
        -- an idle process is not in the queue
        rw [← hnext, hcc] at hmem
        exact absurd ⟨c', rfl⟩ ((h.mem _).mp hmem.1).1
    · rw [update_of_ne hc] at hcc
      exact h.own c c' hcc

/-! ## Runs -/

def ZombiesStay (s s' : RunQueue) : Prop :=
  ∀ p, (s.proc p).state = .ZOMBIE → (s'.proc p).state = .ZOMBIE

theorem Inv.sched (h : s.Inv) (hne : newState ≠ .RUNNING)
    (hidle : s.thisproc cpu = s.idle cpu → newState = .RUNNABLE) :
    ∃ s', s.sched cpu newState = .ok s' ∧ s'.Inv ∧ ZombiesStay s s' := by
  have hrun : (s.proc (s.thisproc cpu)).state = .RUNNING := (h.running _).mpr ⟨cpu, rfl⟩
  have hmid := h.mid hne hidle
  have hnext := hmid.state_pickNext
  unfold RunQueue.sched
  simp only [hrun, ne_eq, not_true_eq_false, if_false, updateThisProc, hnext]
  split
  · exact ⟨s, rfl, h, fun _ hp => hp⟩
  refine ⟨_, rfl, hmid.switch rfl, ?_⟩
  intro p hp
  have hthis : p ≠ s.thisproc cpu := by
    intro he
    rw [he, hrun] at hp
    cases hp
  have hsame := proc_updateThisState_of_ne s newState hthis
  have hpick : p ≠ (s.updateThisState cpu newState).pickNext cpu := by
    intro he
    rw [← he, hsame, hp] at hnext
    cases hnext
  simp only [update_of_ne hpick, hsame, hp]

theorem zombiesStay_activateProc (s : RunQueue) (p : Nat) (onalert : Bool) :
    ZombiesStay s (s.activateProc p onalert) := by
  intro q hq
  unfold RunQueue.activateProc
  split
  · next hact =>
      have hne : q ≠ p := by
        intro he
        subst he
        simp [Proc.activate, hq] at hact
      simp only [update_of_ne hne, hq]
  · exact hq

theorem Inv.kill (h : s.Inv) (p : Nat) :
    ({ s with proc := update s.proc p { s.proc p with killed := true } } : RunQueue).Inv ∧
      ZombiesStay s
        { s with proc := update s.proc p { s.proc p with killed := true } } := by
  have hstate : ∀ q, (update s.proc p { s.proc p with killed := true } q).state =
      (s.proc q).state := by
    intro q
    obtain rfl | hq := eq_or_ne q p
    · simp
    · rw [update_of_ne hq]
  constructor
  · constructor
    · exact h.idle
    · exact h.nodup
    · intro q
      simp only [Proc.awake, hstate]
      exact h.mem q
    · intro q
      simp only [hstate]
      exact h.running q
    · exact h.thisproc
    · intro c
      simp only [Proc.awake, hstate]
      exact h.awake c
    · exact h.own
  · intro q hq
    simp only [hstate, hq]

/-- A step happens without failing an assertion, or it is not one that the kernel takes. -/
theorem Inv.step (h : s.Inv) (l : SchedLabel) :
    s.step l = .error .disabled ∨ ∃ s', s.step l = .ok s' ∧ s'.Inv ∧ ZombiesStay s s' := by
  cases l with
  | sched cpu newState =>
    rw [RunQueue.step]
    split
    · next hcalled =>
        right
        apply h.sched
        · intro hst
          simp [hst, called] at hcalled
        · intro hc
          have hidle := h.isIdle_thisproc.mpr hc
          cases newState <;> simp_all [called]
    · exact .inl rfl
  | timer cpu =>
    right
    rw [RunQueue.step, timerHandler]
    split
    · exact ⟨s, rfl, h, fun _ hp => hp⟩
    · exact h.sched (fun hst => by cases hst) fun _ => rfl
  | activate p => exact .inr ⟨_, rfl, h.activateProc p false, zombiesStay_activateProc s p false⟩
  | alert p => exact .inr ⟨_, rfl, h.activateProc p true, zombiesStay_activateProc s p true⟩
  | kill p => exact .inr ⟨_, rfl, h.kill p⟩
  | panic => exact .inr ⟨_, rfl, ⟨h.idle, h.nodup, h.mem, h.running, h.thisproc, h.awake, h.own⟩,
      fun _ hp => hp⟩

theorem Inv.of_step (h : s.Inv) {l : SchedLabel} (hs : s.step l = .ok s') :
    s'.Inv ∧ ZombiesStay s s' := by
  obtain hdis | ⟨s1, hs1, hinv⟩ := h.step l
  · rw [hdis] at hs
    cases hs
  · rw [hs1] at hs
    cases hs
    exact hinv

theorem inv_of_reach (h : Runs.Reach step Runs.always Init s) : s.Inv :=
  h.invariant (fun _ => Inv.init) fun _ _ _ hs _ hstep => (hs.of_step hstep).1

end RunQueue

open RunQueue in
/-- The queue holds the processes that are `RUNNABLE` or `RUNNING` and not idle, each once; the
processes that are `RUNNING` are those of the processors, which differ; a `ZOMBIE` stays one; and
no call fails an assertion. -/
theorem run_queue_invariant (s : RunQueue) (h : Runs.Reach step Runs.always Init s) : s.rq.Nodup ∧
    (∀ p, p ∈ s.rq ↔ ¬ s.IsIdle p ∧ ((s.proc p).state = .RUNNABLE ∨ (s.proc p).state = .RUNNING)) ∧
    (∀ p, (s.proc p).state = .RUNNING ↔ ∃ c, s.thisproc c = p) ∧
    Injective s.thisproc ∧
    (∀ l s', s.step l = .ok s' → ∀ p, (s.proc p).state = .ZOMBIE → (s'.proc p).state = .ZOMBIE) ∧
    ∀ l, s.step l ≠ .error .panic := by
  have hinv := inv_of_reach h
  refine ⟨hinv.nodup, ?_, hinv.running, hinv.thisproc, ?_, ?_⟩
  · intro p
    rw [hinv.mem p]
    simp [Proc.awake]
  · intro l s' hs
    exact (hinv.of_step hs).2
  intro l hl
  obtain hdis | ⟨s', hs', -⟩ := hinv.step l
  · rw [hdis] at hl
    cases hl
  · rw [hs'] at hl
    cases hl

namespace RunQueue

def booted : RunQueue where
  rq := []
  proc := fun p => ⟨false, if p < 4 then .RUNNING else .UNUSED⟩
  thisproc := fun c => c.val
  idle := fun c => c.val
  panicFlag := false

theorem init_booted : Init booted where
  rq := rfl
  thisproc := rfl
  idle := fun _ _ h => Fin.ext h
  running := by
    intro c
    simp [booted, c.isLt]
  unused := by
    intro p hp
    have hlt : ¬ p < 4 := fun hlt => hp ⟨⟨p, hlt⟩, rfl⟩
    simp [booted, hlt]

/-- Two processes run, and one of them exits. -/
theorem run_queue_invariant_exit : ∃ s, Runs.Reach step Runs.always Init s ∧
    (s.proc 5).state = .ZOMBIE ∧ s.rq = [4] ∧ Injective s.thisproc ∧
    ∀ l, s.step l ≠ .error .panic := by
  obtain ⟨s, hs, hq⟩ := Runs.Reach.of_execTest init_booted
    (by decide +kernel : Runs.execTest step booted
      [.activate 4, .sched 0 .RUNNABLE, .activate 5, .sched 1 .RUNNABLE, .sched 1 .SLEEPING,
        .alert 5, .timer 0, .sched 0 .ZOMBIE]
      (fun s => decide ((s.proc 5).state = .ZOMBIE ∧ s.rq = [4])) = true)
  obtain ⟨hz, hrq⟩ := of_decide_eq_true hq
  obtain ⟨-, -, -, hinj, -, hpanic⟩ := run_queue_invariant s hs
  exact ⟨s, hs, hz, hrq, hinj, hpanic⟩

end RunQueue

end OsKernel
