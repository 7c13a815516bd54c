import OsKernel.Common.SemRuns

/-!
# Uninterruptible waits

`unalertable_wait_sem` asserts that `_wait_sem(sem, false)` returns `true`.  The
runs of `SemState` are extended by the flag that says which macro a process
called, and the assertion is checked where the wait returns.

A process that `sched` has put into `DEEPSLEEPING` is woken by a post only, so
the wait of such a process succeeds (`Deep`).  But `sched` does not put a killed
process to sleep at all: the wait then returns without a token and the assertion
fails.  The kill may come before the wait or after its decrement.
-/

namespace OsKernel

open Runs (Stop)

/-- A semaphore, and for each process whether its last wait was an
`unalertable_wait_sem`. -/
structure UnalertableState where
  base : SemState
  unalertable : Nat → Bool

namespace UnalertableState

/-- The result of `_wait_sem` of a process that goes on after `sched`. -/
def waitResult (s : UnalertableState) (p : Nat) : Bool :=
  match (s.base.procs p).wait with
  | some w => w.up
  | none => true

def step (s : UnalertableState) : SemAct → Except Stop UnalertableState
  | .wait p alertable killed =>
    match s.base.step (.wait p alertable killed) with
    | .ok base => .ok ⟨base, Function.update s.unalertable p (!alertable)⟩
    | .error e => .error e
  | .wake p =>
    match s.base.step (.wake p) with
    | .ok base =>
      -- the assertion around `_wait_sem(sem, false)`
      if s.unalertable p && !s.waitResult p then .error .panic
      else .ok { s with base := base }
    | .error e => .error e
  | a =>
    match s.base.step a with
    | .ok base => .ok { s with base := base }
    | .error e => .error e

def Init (v : Int) (s : UnalertableState) : Prop := s.base.Init v

/-- A process that has been killed when `sched` tests the flag has found a token: it does not have
to sleep in an uninterruptible wait. -/
def NotKilled (s : UnalertableState) (a : SemAct) : Prop :=
  ∀ p k, a = .wait p false k → ((s.base.procs p).proc.killed || k) = true → 0 < s.base.sem.val

variable {s : UnalertableState} {u : Nat → Bool} {procs : Nat → Waiter}

theorem step_base {s' : UnalertableState} {a : SemAct} (h : s.step a = .ok s') :
    s.base.step a = .ok s'.base ∧
      ((∃ p b k, a = .wait p b k ∧ s'.unalertable = Function.update s.unalertable p (!b)) ∨
        ((∀ p b k, a ≠ .wait p b k) ∧ s'.unalertable = s.unalertable)) := by
  cases a with
  | wait p b k =>
    simp only [step] at h
    split at h
    next base hb =>
      cases h
      exact ⟨hb, .inl ⟨p, b, k, rfl, rfl⟩⟩
    next => cases h
  | wake p =>
    simp only [step] at h
    split at h
    next base hb =>
      split at h
      · cases h
      · cases h
        exact ⟨hb, .inr ⟨nofun, rfl⟩⟩
    next => cases h
  | post | get | getAll | postAll | alert p | kill p =>
    simp only [step] at h
    split at h
    next base hb =>
      cases h
      exact ⟨hb, .inr ⟨nofun, rfl⟩⟩
    next => cases h

theorem reachable_base {v : Int} {ok : UnalertableState → SemAct → Prop}
    (h : Runs.Reach step ok (Init v) s) : SemState.Reachable v s.base := by
  induction h with
  | init hs => exact .init hs
  | step _ _ hs ih => exact .step ih trivial (step_base hs).1

/-! ## A deep sleeper waits for its token -/

/-- A process in an uninterruptible wait that has no token yet sleeps deeply. -/
def DeepIn (unalertable : Nat → Bool) (procs : Nat → Waiter) : Prop :=
  ∀ p w, unalertable p = true → (procs p).wait = some w → w.up = false →
    (procs p).proc.state = .DEEPSLEEPING

def Deep (s : UnalertableState) : Prop := DeepIn s.unalertable s.base.procs

theorem DeepIn.update (h : DeepIn u procs) (p : Nat) (b : Bool) {q : Waiter}
    (hq : ∀ w, b = true → q.wait = some w → w.up = false → q.proc.state = .DEEPSLEEPING) :
    DeepIn (Function.update u p b) (Function.update procs p q) := by
  intro r w hu hw hup
  obtain rfl | hr := eq_or_ne r p
  · rw [Function.update_self] at hu hw ⊢
    exact hq w hu hw hup
  · rw [Function.update_of_ne hr] at hu hw ⊢
    exact h r w hu hw hup

theorem DeepIn.update_proc (h : DeepIn u procs) (p : Nat)
    {q : Waiter} (hq : ∀ w, u p = true → q.wait = some w → w.up = false →
      q.proc.state = .DEEPSLEEPING) :
    DeepIn u (Function.update procs p q) := by
  have := h.update p (u p) hq
  rwa [Function.update_eq_self] at this

theorem DeepIn.foldl_grant (h : DeepIn u procs)
    (ws : List Nat) : DeepIn u (ws.foldl SemState.grant procs) := by
  intro r w hu hw hup
  by_cases hr : r ∈ ws
  · -- a granted waiter has `up` set
    rw [SemState.foldl_grant_wait _ _ hr, Option.map_eq_some_iff] at hw
    obtain ⟨w', -, rfl⟩ := hw
    cases hup
  · rw [SemState.foldl_grant_ne _ _ hr] at hw ⊢
    exact h r w hu hw hup

theorem state_alertProc_of_deep {q : Proc} (h : q.state = .DEEPSLEEPING) :
    q.alertProc.state = .DEEPSLEEPING := by
  simp [Proc.alertProc, Proc.activate, h]

theorem DeepIn.wait {s s' : SemState} (h : DeepIn u s.procs) {p : Nat} {b k : Bool}
    (hok : b = false → ((s.procs p).proc.killed || k) = true → 0 < s.sem.val)
    (hs : s.step (.wait p b k) = .ok s') : DeepIn (Function.update u p (!b)) s'.procs := by
  obtain ⟨hen, hs⟩ := Runs.guard_ok hs
  rw [Bool.and_eq_true, Option.isNone_iff_eq_none] at hen
  by_cases hv : 0 ≤ s.sem.val - 1
  · -- a token was there: the process is in no wait
    rw [Semaphore.waitSem, if_pos hv] at hs
    cases hs
    refine h.update p _ fun w _ hw => ?_
    rw [hen.2] at hw
    cases hw
  rw [Semaphore.waitSem, if_neg hv] at hs
  cases hs
  refine h.update p _ fun w hb _ _ => ?_
  rw [Bool.not_eq_true'] at hb
  have hkilled : ((s.procs p).proc.killed || k) = false := by
    by_contra hk
    have := hok hb (Bool.eq_true_of_not_eq_false hk)
    omega
  rw [hb, if_neg Bool.false_ne_true]
  exact Proc.sched_state _ hkilled

theorem DeepIn.step {s s' : SemState} {a : SemAct} (h : DeepIn u s.procs)
    (hne : ∀ p b k, a ≠ .wait p b k) (hs : s.step a = .ok s') : DeepIn u s'.procs := by
  cases a with
  | wait p b k => exact absurd rfl (hne p b k)
  | wake p =>
    simp only [SemState.step] at hs
    split at hs
    next =>
      split at hs <;> cases hs
      exact h.update_proc p fun w _ hw => by cases hw
    next => cases hs
  | post =>
    obtain ⟨-, hs⟩ := Runs.not_guard_ok hs
    split at hs
    · cases hs
    next w _ =>
      cases hs
      cases w with
      | none => exact h
      | some q => exact h.foldl_grant [q]
  | get =>
    simp only [SemState.step] at hs
    split at hs <;> cases hs <;> exact h
  | getAll =>
    cases hs
    exact h
  | postAll =>
    obtain ⟨-, hs⟩ := Runs.not_guard_ok hs
    split at hs <;> cases hs
    exact h.foldl_grant _
  | alert p | kill p =>
    cases hs
    exact h.update_proc p fun w hp hw hup => state_alertProc_of_deep (h p w hp hw hup)

theorem Deep.of_reach {v : Int} (h : Runs.Reach step NotKilled (Init v) s) : s.Deep := by
  refine Runs.Reach.invariant (fun s hs p w _ hw => ?_) (fun s a s' hi hok hs => ?_) h
  · rw [hs.2.1 p] at hw
    cases hw
  · obtain ⟨hb, ⟨p, b, k, rfl, hu⟩ | ⟨hne, hu⟩⟩ := step_base hs <;> rw [Deep, hu]
    · exact DeepIn.wait hi (fun hf => hok p k (by rw [hf])) hb
    · exact DeepIn.step hi hne hb

theorem Deep.up (h : s.Deep) {p : Nat} {w : WaitData}
    (hu : s.unalertable p = true) (hw : (s.base.procs p).wait = some w)
    (ha : (s.base.procs p).proc.awake = true) : w.up = true := by
  by_contra hup
  have hst := h p w hu hw (by simpa using hup)
  simp [Proc.awake, hst] at ha

/-! ## The assertion -/

/-- In every run in which no killed process has to sleep in an uninterruptible wait: a process in
such a wait that may run has been granted its token by a post, whatever kills and alerts came
meanwhile, and no assertion fails, the one around `_wait_sem(sem, false)` included, unless `val`
overflows. -/
theorem unalertable_wait_granted (v : Int) (hv : 0 ≤ v) (s : UnalertableState)
    (h : Runs.Reach step NotKilled (Init v) s) :
    (∀ p w, s.unalertable p = true → (s.base.procs p).wait = some w →
      (s.base.procs p).proc.awake = true → w.up = true) ∧
    (v + s.base.posts < INT_MAX → ∀ a, s.step a ≠ .error .panic) := by
  have hdeep := Deep.of_reach h
  have hinv := (reachable_base h).inv hv
  refine ⟨fun p w hu hw ha => hdeep.up hu hw ha, fun hmax a ha => ?_⟩
  have hpanic := hinv.no_panic (hinv.in_range hmax)
  cases a with
  | wake p =>
    simp only [step] at ha
    split at ha
    next base hb =>
      split at ha
      next hc =>
        rw [Bool.and_eq_true, Bool.not_eq_true', waitResult] at hc
        simp only [SemState.step] at hb
        split at hb
        next w hawake hw =>
          rw [hw] at hc
          exact absurd (hdeep.up hc.1 hw hawake) (by simp [hc.2])
        next => cases hb
      next => cases ha
    next e he =>
      cases ha
      exact hpanic _ he
  | wait p b k | post | get | getAll | postAll | alert p | kill p =>
    simp only [step] at ha
    split at ha
    next => cases ha
    next e he =>
      cases ha
      exact hpanic _ he

/-- A semaphore without a token and processes that all run. -/
def start : UnalertableState := ⟨.start 0, fun _ => false⟩

/-- Process 1 sleeps in an uninterruptible wait, is killed meanwhile, stays
asleep, and goes on when the post has handed it the token. -/
theorem unalertable_wait_granted_killed_asleep :
    ∃ s, Runs.Reach step NotKilled (Init 0) s ∧ s.unalertable 1 = true ∧
      (s.base.procs 1).proc.killed = true ∧ (s.base.procs 1).wait.isSome = true ∧
      (∀ w, (s.base.procs 1).wait = some w → w.up = true) ∧
      ∀ a, s.step a ≠ .error .panic := by
  have hinit : Init 0 start := ⟨rfl, fun _ => rfl, rfl, rfl, rfl⟩
  let q : UnalertableState → SemAct → Bool := fun s a =>
    match a with
    | .wait p false k => !((s.base.procs p).proc.killed || k)
    | _ => true
  obtain ⟨s, hs, hq⟩ := Runs.Reach.of_execTest hinit
    (show Runs.execTest (Runs.guarded step q .disabled) start [.wait 1 false false, .kill 1, .post]
      (fun s => s.unalertable 1 ∧ (s.base.procs 1).proc.killed ∧ (s.base.procs 1).wait.isSome ∧
        (s.base.procs 1).proc.awake ∧ s.base.posts = 1) = true by decide)
  have hs : Runs.Reach step NotKilled (Init 0) s := by
    refine Runs.Reach.of_guarded (J := fun _ => True) (fun _ _ => trivial) ?_ hs
    rintro s a - hqa p k rfl hk
    rw [show q s (.wait p false k) = !_ from rfl, hk] at hqa
    cases hqa
  obtain ⟨hu, hk, hw, ha, hposts⟩ := of_decide_eq_true hq
  have hthm := unalertable_wait_granted 0 (by decide) s hs
  exact ⟨s, hs, hu, hk, hw, fun w hw => hthm.1 1 w hu hw ha, hthm.2 (by rw [hposts]; decide)⟩

/-- Process 1 is killed and then begins an uninterruptible wait on a semaphore
without a token: `sched` returns at once, no post has been made, and the
assertion around `_wait_sem(sem, false)` fails. -/
theorem unalertable_wait_of_killed_fails :
    ∃ s, Runs.Reach step Runs.always (Init 0) s ∧ s.unalertable 1 = true ∧
      (s.base.procs 1).proc.awake = true ∧ (∃ w, (s.base.procs 1).wait = some w ∧ w.up = false) ∧
      s.base.posts = 0 ∧ s.step (.wake 1) = .error .panic := by
  have hinit : Init 0 start := ⟨rfl, fun _ => rfl, rfl, rfl, rfl⟩
  obtain ⟨s, hs, hq⟩ := Runs.Reach.of_execTest hinit
    (show Runs.execTest step start [.kill 1, .wait 1 false false]
      (fun s => s.unalertable 1 && (s.base.procs 1).proc.awake &&
        (s.base.procs 1).wait == some ⟨false, 0⟩ && s.base.posts == 0 &&
        (match s.step (.wake 1) with | .error .panic => true | _ => false)) = true by decide)
  simp only [Bool.and_eq_true, beq_iff_eq] at hq
  obtain ⟨⟨⟨⟨hu, ha⟩, hw⟩, hp⟩, hstep⟩ := hq
  refine ⟨s, hs, hu, ha, ⟨_, hw, rfl⟩, hp, ?_⟩
  split at hstep
  next h => exact h
  next => cases hstep

end UnalertableState

end OsKernel
