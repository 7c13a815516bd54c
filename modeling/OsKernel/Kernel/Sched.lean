import Mathlib.Tactic.Common

/-!
# Process states

What the semaphores need of `kernel/sched.c`: the state field of a process, how
`sched` changes the state of its caller and how `_activate_proc` changes the
state of the process it wakes.  The run queue and the choice of the next
process are left out; a process in state `RUNNABLE` or `RUNNING` may take the
next step of its code at any time.
-/

namespace OsKernel

inductive ProcState where
  | UNUSED
  | RUNNABLE
  | RUNNING
  | SLEEPING
  | DEEPSLEEPING
  | ZOMBIE
deriving DecidableEq, Repr

/-- The fields of `struct Proc` that scheduling reads. -/
structure Proc where
  killed : Bool
  state : ProcState
deriving DecidableEq, Repr

namespace Proc

variable (p : Proc)

/-- A process that the scheduler has picked or may pick. -/
def awake : Bool :=
  p.state = .RUNNABLE || p.state = .RUNNING

def run : Proc := { p with state := .RUNNING }

/-- `_activate_proc`: the process afterwards and the result of the call. -/
def activate (onalert : Bool) : Proc × Bool :=
  match p.state with
  | .RUNNING | .RUNNABLE | .ZOMBIE => (p, false)
  | .SLEEPING | .UNUSED => ({ p with state := .RUNNABLE }, true)
  | .DEEPSLEEPING =>
    if onalert then (p, false) else ({ p with state := .RUNNABLE }, true)

def activateProc : Proc := (p.activate false).1

def alertProc : Proc := (p.activate true).1

/-- `kill`, once it has found the process. -/
def kill : Proc := { p with killed := true }.alertProc

/-- `sched`, as far as its caller is concerned: a killed process is not put to
sleep and returns at once. -/
def sched (newState : ProcState) : Proc :=
  if p.killed && newState ≠ .ZOMBIE then p else { p with state := newState }

@[simp] theorem killed_run : p.run.killed = p.killed := rfl

@[simp] theorem killed_activate (b : Bool) : (p.activate b).1.killed = p.killed := by
  unfold activate
  split <;> try rfl
  split <;> rfl

@[simp] theorem killed_activateProc : p.activateProc.killed = p.killed :=
  killed_activate p false

@[simp] theorem killed_sched (st : ProcState) : (p.sched st).killed = p.killed := by
  unfold sched
  split <;> rfl

theorem awake_activateProc {p : Proc} (h : p.state ≠ .ZOMBIE) : p.activateProc.awake = true := by
  cases hs : p.state <;> simp_all [activateProc, activate, awake]

theorem state_activate_ne_zombie {p : Proc} (b : Bool) (h : p.state ≠ .ZOMBIE) :
    (p.activate b).1.state ≠ .ZOMBIE := by
  cases hs : p.state <;> cases b <;> simp_all [activate]

theorem state_sched_ne_zombie {st : ProcState} (h : st ≠ .ZOMBIE) :
    (p.run.sched st).state ≠ .ZOMBIE := by
  unfold sched
  split
  · simp [run]
  · exact h

theorem sched_state {p : Proc} (st : ProcState) (h : p.killed = false) :
    (p.sched st).state = st := by
  simp [sched, h]

end Proc

end OsKernel
