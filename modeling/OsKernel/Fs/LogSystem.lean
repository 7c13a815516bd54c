import OsKernel.Lib.Runs
import OsKernel.Kernel.Sched
import OsKernel.Fs.Log

/-!
# Processes that share the log

Any number of processes run atomic operations on the block cache.  A stretch of
code under `log.glock` is one step; the release of `glock` in `cache_begin_op`,
the wait on `op_sem` and the return from it are separate steps, and so are the
turns of the loops of `do_checkpoint`.

What `cache_acquire` and `cache_release` do for the operations is kept abstract
here: `blocks b` is the contents of block `b` as the cache presents them, and
`holder b` the process that holds its sleep lock.  `disk` is the device.  No block is
evicted while it is held or logged: `fs/cache.c` does so in the runs in which no `Block` is
released while another process waits for it (`OsKernel.Fs.HeldBlocks`), and the results about
`blocks` are about these.

The fields `running`, `pending`, `added`, `synced`, `slotWrites` and `returned`
record history: the contexts begun and not ended, those inside `cache_begin_op`,
the number of blocks a context has added to the header, the blocks it has passed
to `cache_sync`, the blocks that `do_checkpoint` has written log copies to, and
the `cache_end_op` that the last step returned from.
-/

namespace OsKernel

open Function

open Runs (Stop)

/-- A call of `cache_end_op`: its context and the blocks synced under it, the
contents of all blocks and the device when the call took `glock`, and whether
the operation was the last one running. -/
structure EndOp where
  ctx : Nat
  synced : List Nat
  blocks : Nat → Data
  disk : Nat → Data
  last : Bool

/-- Where a process is in `do_checkpoint`. -/
inductive CkptPhase where
  /-- The first loop, before turn `idx`. -/
  | slots (idx : Nat)
  /-- Before the first `write_header`. -/
  | header
  /-- The second loop, before turn `i`. -/
  | homes (i : Nat)
  /-- Before the second `write_header`. -/
  | clear
  /-- Before `log.checkpointing = 0` and `post_all_sem`. -/
  | finish
deriving DecidableEq, Repr

/-- Where a process is in the logging functions. -/
inductive LogPc where
  | idle
  /-- `cache_begin_op`, about to take `glock` and test its condition again. -/
  | beginTest (c : Nat)
  /-- `cache_begin_op`, after the release of `glock` and before the wait. -/
  | beginWait (c : Nat)
  /-- `cache_begin_op`, inside the wait on `op_sem`. -/
  | beginSleep (c : Nat)
  /-- `do_checkpoint`, called by `cache_end_op`. -/
  | ckpt (e : EndOp) (ph : CkptPhase)

/-- A process, where it is, and the `up` flag of its `WaitData` on `op_sem`. -/
structure LogProc where
  proc : Proc
  up : Bool
  pc : LogPc

structure LogState where
  header : LogHeader
  log : Log
  ctxs : Nat → OpContext
  procs : Nat → LogProc
  holder : Nat → Option Nat
  blocks : Nat → Data
  disk : Nat → Data
  running : List Nat
  pending : List Nat
  added : Nat → Nat
  synced : Nat → List Nat
  slotWrites : List Nat
  returned : Option EndOp

/-- The steps of process `p`. -/
inductive LogAct where
  /-- Call `cache_begin_op(c)` and test its condition. -/
  | beginOp (p c : Nat)
  /-- Test the condition again, after a wake-up. -/
  | retest (p : Nat)
  /-- `unalertable_wait_sem(&log.op_sem)` up to the sleep. -/
  | wait (p : Nat)
  /-- The rest of the wait. -/
  | wake (p : Nat)
  | acquire (p b : Nat)
  /-- Change the data of a held block, under a running context. -/
  | modify (p c b : Nat) (d : Data)
  | sync (p c b : Nat)
  | release (p b : Nat)
  | endOp (p c : Nat)
  /-- The next step of `do_checkpoint`. -/
  | ckpt (p : Nat)

namespace LogState

/-- Process `p` goes on at `pc`. -/
def goto (s : LogState) (p : Nat) (pc : LogPc) : LogState :=
  { s with procs := update s.procs p ⟨(s.procs p).proc.run, (s.procs p).up, pc⟩ }

/-- What `_post_sem` on `op_sem` does to the waiter it takes off the list. -/
def grant (procs : Nat → LogProc) (p : Nat) : Nat → LogProc :=
  update procs p ⟨(procs p).proc.activateProc, true, (procs p).pc⟩

/-- The condition of the loop in `cache_begin_op` and what follows it. -/
def tryBegin (s : LogState) (p c : Nat) : LogState :=
  if s.log.mustWait s.header then s.goto p (.beginWait c)
  else
    { s.goto p .idle with
      log := s.log.beginOp.1
      ctxs := update s.ctxs c s.log.beginOp.2
      running := c :: s.running
      pending := s.pending.erase c
      added := update s.added c 0
      synced := update s.synced c [] }

/-- `cache_end_op(c)` by process `p`, up to its return or to the first turn of
`do_checkpoint`. -/
def endOp (s : LogState) (p c : Nat) : Except Stop LogState :=
  if s.log.checkpointing then .error .panic
  else
    let log := { s.log with runningOps := s.log.runningOps - 1 }
    let e : EndOp := ⟨c, s.synced c, s.blocks, s.disk, log.runningOps = 0⟩
    if log.runningOps = 0 then
      .ok { s.goto p (.ckpt e (.slots 0)) with
        log := { log with checkpointing := true }
        running := s.running.erase c }
    else
      match log.opSem.postSem with
      | none => .error .panic
      | some (sem, w) =>
        let s' := s.goto p .idle
        .ok { s' with
          log := { log with opSem := sem }
          running := s.running.erase c
          procs := w.toList.foldl grant s'.procs
          returned := some e }

/-- A turn of `do_checkpoint`. -/
def ckpt (sb : SuperBlock) (s : LogState) (p : Nat) (e : EndOp) : CkptPhase → Except Stop LogState
  | .slots idx =>
    if idx < s.header.numBlocks then
      let b := s.header.blockNo idx
      let slot := sb.logStart + 1 + idx
      if s.holder b = none ∧ s.holder slot = none ∧ b ≠ slot then
        .ok { s.goto p (.ckpt e (.slots (idx + 1))) with
          blocks := update s.blocks slot (s.blocks b)
          disk := update s.disk slot (s.blocks b)
          slotWrites := s.slotWrites ++ [slot] }
      else .error .disabled
    else .ok (s.goto p (.ckpt e .header))
  | .header =>
    .ok { s.goto p (.ckpt e (.homes 0)) with
      disk := update s.disk sb.logStart s.header.toData }
  | .homes i =>
    if i < s.header.numBlocks then
      let b := s.header.blockNo i
      if s.holder b = none then
        .ok { s.goto p (.ckpt e (.homes (i + 1))) with
          disk := update s.disk b (s.blocks b) }
      else .error .disabled
    else .ok { s.goto p (.ckpt e .clear) with header := s.header.clear }
  | .clear =>
    .ok { s.goto p (.ckpt e .finish) with
      disk := update s.disk sb.logStart s.header.toData }
  | .finish =>
    match s.log.opSem.postAllSem with
    | none => .error .panic
    | some (sem, _, woken) =>
      let s' := s.goto p .idle
      .ok { s' with
        log := { s.log with checkpointing := false, opSem := sem }
        procs := woken.foldl grant s'.procs
        returned := some e }

/-- The step of a process that the scheduler may pick. -/
def stepAwake (sb : SuperBlock) (s : LogState) : LogAct → Except Stop LogState
  | .beginOp p c =>
    match (s.procs p).pc with
    | .idle =>
      if c ∈ s.running ∨ c ∈ s.pending then .error .disabled
      else .ok (tryBegin { s with pending := c :: s.pending } p c)
    | _ => .error .disabled
  | .retest p =>
    match (s.procs p).pc with
    | .beginTest c => .ok (s.tryBegin p c)
    | _ => .error .disabled
  | .wait p =>
    match (s.procs p).pc with
    | .beginWait c =>
      match s.log.opSem.waitSem p with
      | (sem, true) => .ok { s.goto p (.beginTest c) with log := { s.log with opSem := sem } }
      | (sem, false) =>
        .ok { s with
          log := { s.log with opSem := sem }
          procs := update s.procs p
            ⟨(s.procs p).proc.run.sched .DEEPSLEEPING, false, .beginSleep c⟩ }
    | _ => .error .disabled
  | .wake p =>
    match (s.procs p).pc with
    | .beginSleep c =>
      match s.log.opSem.wakeSem p (s.procs p).up with
      | none => .error .panic
      | some sem =>
        -- the assertion around `_wait_sem` in `unalertable_wait_sem`
        if (s.procs p).up then
          .ok { s.goto p (.beginTest c) with log := { s.log with opSem := sem } }
        else .error .panic
    | _ => .error .disabled
  | .acquire p b =>
    match (s.procs p).pc with
    | .idle =>
      if s.holder b = none then
        .ok { s.goto p .idle with holder := update s.holder b (some p) }
      else .error .disabled
    | _ => .error .disabled
  | .modify p c b d =>
    match (s.procs p).pc with
    | .idle =>
      if c ∈ s.running ∧ s.holder b = some p then
        .ok { s.goto p .idle with blocks := update s.blocks b d }
      else .error .disabled
    | _ => .error .disabled
  | .sync p c b =>
    match (s.procs p).pc with
    | .idle =>
      if c ∈ s.running ∧ s.holder b = some p then
        match syncLog s.header (s.ctxs c) b with
        | none => .error .panic
        | some (h, ctx) =>
          .ok { s.goto p .idle with
            header := h
            ctxs := update s.ctxs c ctx
            added := update s.added c (s.added c + (h.numBlocks - s.header.numBlocks))
            synced := update s.synced c (b :: s.synced c) }
      else .error .disabled
    | _ => .error .disabled
  | .release p b =>
    match (s.procs p).pc with
    | .idle =>
      if s.holder b = some p then
        .ok { s.goto p .idle with holder := update s.holder b none }
      else .error .disabled
    | _ => .error .disabled
  | .endOp p c =>
    match (s.procs p).pc with
    | .idle => if c ∈ s.running then s.endOp p c else .error .disabled
    | _ => .error .disabled
  | .ckpt p =>
    match (s.procs p).pc with
    | .ckpt e ph => s.ckpt sb p e ph
    | _ => .error .disabled

end LogState

def LogAct.proc : LogAct → Nat
  | .beginOp p _ | .retest p | .wait p | .wake p | .acquire p _ | .modify p _ _ _
  | .sync p _ _ | .release p _ | .endOp p _ | .ckpt p => p

namespace LogState

def step (sb : SuperBlock) (s : LogState) (a : LogAct) : Except Stop LogState :=
  if (s.procs a.proc).proc.awake then stepAwake sb { s with returned := none } a
  else .error .disabled

/-! ## What a step does

`LogStep` lists the successful steps with their guards and their result; every
invariant below is proved by cases on it. -/

/-- Process `p` is about to test the condition of `cache_begin_op(c)`, with `pd`
the contexts inside the function. -/
def Entering (s : LogState) (a : LogAct) (p c : Nat) (pd : List Nat) : Prop :=
  (a = .beginOp p c ∧ (s.procs p).pc = .idle ∧ c ∉ s.running ∧ c ∉ s.pending ∧
    pd = c :: s.pending) ∨
  (a = .retest p ∧ (s.procs p).pc = .beginTest c ∧ pd = s.pending)

inductive LogStep (sb : SuperBlock) (s : LogState) : LogAct → LogState → Prop where
  | block {a : LogAct} {p c : Nat} {pd : List Nat} : s.Entering a p c pd →
      s.log.mustWait s.header = true →
      LogStep sb s a { s.goto p (.beginWait c) with pending := pd, returned := none }
  | begun {a : LogAct} {p c : Nat} {pd : List Nat} : s.Entering a p c pd →
      s.log.mustWait s.header = false →
      LogStep sb s a { s.goto p .idle with
        log := s.log.beginOp.1
        ctxs := update s.ctxs c s.log.beginOp.2
        running := c :: s.running
        pending := pd.erase c
        added := update s.added c 0
        synced := update s.synced c []
        returned := none }
  | take {p c : Nat} {sem : Semaphore} : (s.procs p).pc = .beginWait c →
      s.log.opSem.waitSem p = (sem, true) →
      LogStep sb s (.wait p) { s.goto p (.beginTest c) with
        log := { s.log with opSem := sem }
        returned := none }
  | sleep {p c : Nat} {sem : Semaphore} : (s.procs p).pc = .beginWait c →
      s.log.opSem.waitSem p = (sem, false) →
      LogStep sb s (.wait p) { s with
        log := { s.log with opSem := sem }
        procs := update s.procs p
          ⟨(s.procs p).proc.run.sched .DEEPSLEEPING, false, .beginSleep c⟩
        returned := none }
  | wake {p c : Nat} {sem : Semaphore} : (s.procs p).pc = .beginSleep c →
      (s.procs p).proc.awake = true → (s.procs p).up = true →
      s.log.opSem.wakeSem p true = some sem →
      LogStep sb s (.wake p) { s.goto p (.beginTest c) with
        log := { s.log with opSem := sem }
        returned := none }
  | acquire {p b : Nat} : (s.procs p).pc = .idle → s.holder b = none →
      LogStep sb s (.acquire p b) { s.goto p .idle with
        holder := update s.holder b (some p)
        returned := none }
  | modify {p c b : Nat} {d : Data} : (s.procs p).pc = .idle → c ∈ s.running → s.holder b = some p →
      LogStep sb s (.modify p c b d) { s.goto p .idle with
        blocks := update s.blocks b d
        returned := none }
  | sync {p c b : Nat} {h : LogHeader} {ctx : OpContext} : (s.procs p).pc = .idle →
      c ∈ s.running → s.holder b = some p → syncLog s.header (s.ctxs c) b = some (h, ctx) →
      LogStep sb s (.sync p c b) { s.goto p .idle with
        header := h
        ctxs := update s.ctxs c ctx
        added := update s.added c (s.added c + (h.numBlocks - s.header.numBlocks))
        synced := update s.synced c (b :: s.synced c)
        returned := none }
  | release {p b : Nat} : (s.procs p).pc = .idle → s.holder b = some p →
      LogStep sb s (.release p b) { s.goto p .idle with
        holder := update s.holder b none
        returned := none }
  | endLast {p c : Nat} : (s.procs p).pc = .idle → c ∈ s.running →
      s.log.checkpointing = false → s.log.runningOps - 1 = 0 →
      LogStep sb s (.endOp p c) { s.goto p (.ckpt ⟨c, s.synced c, s.blocks, s.disk, true⟩ (.slots 0)) with
        log := { s.log with runningOps := s.log.runningOps - 1, checkpointing := true }
        running := s.running.erase c
        returned := none }
  | endOther {p c : Nat} {sem : Semaphore} {w : Option Nat} : (s.procs p).pc = .idle →
      c ∈ s.running → s.log.checkpointing = false → s.log.runningOps - 1 ≠ 0 →
      s.log.opSem.postSem = some (sem, w) →
      LogStep sb s (.endOp p c) { s.goto p .idle with
        log := { s.log with runningOps := s.log.runningOps - 1, opSem := sem }
        running := s.running.erase c
        procs := w.toList.foldl grant (s.goto p .idle).procs
        returned := some ⟨c, s.synced c, s.blocks, s.disk, false⟩ }
  | slot {p idx : Nat} {e : EndOp} : (s.procs p).pc = .ckpt e (.slots idx) →
      idx < s.header.numBlocks → s.holder (s.header.blockNo idx) = none →
      s.holder (sb.logStart + 1 + idx) = none → s.header.blockNo idx ≠ sb.logStart + 1 + idx →
      LogStep sb s (.ckpt p) { s.goto p (.ckpt e (.slots (idx + 1))) with
        blocks := update s.blocks (sb.logStart + 1 + idx) (s.blocks (s.header.blockNo idx))
        disk := update s.disk (sb.logStart + 1 + idx) (s.blocks (s.header.blockNo idx))
        slotWrites := s.slotWrites ++ [sb.logStart + 1 + idx]
        returned := none }
  | slotsDone {p idx : Nat} {e : EndOp} : (s.procs p).pc = .ckpt e (.slots idx) →
      s.header.numBlocks ≤ idx →
      LogStep sb s (.ckpt p) { s.goto p (.ckpt e .header) with returned := none }
  | header {p : Nat} {e : EndOp} : (s.procs p).pc = .ckpt e .header →
      LogStep sb s (.ckpt p) { s.goto p (.ckpt e (.homes 0)) with
        disk := update s.disk sb.logStart s.header.toData
        returned := none }
  | home {p i : Nat} {e : EndOp} : (s.procs p).pc = .ckpt e (.homes i) →
      i < s.header.numBlocks → s.holder (s.header.blockNo i) = none →
      LogStep sb s (.ckpt p) { s.goto p (.ckpt e (.homes (i + 1))) with
        disk := update s.disk (s.header.blockNo i) (s.blocks (s.header.blockNo i))
        returned := none }
  | homesDone {p i : Nat} {e : EndOp} : (s.procs p).pc = .ckpt e (.homes i) →
      s.header.numBlocks ≤ i →
      LogStep sb s (.ckpt p) { s.goto p (.ckpt e .clear) with
        header := s.header.clear
        returned := none }
  | clear {p : Nat} {e : EndOp} : (s.procs p).pc = .ckpt e .clear →
      LogStep sb s (.ckpt p) { s.goto p (.ckpt e .finish) with
        disk := update s.disk sb.logStart s.header.toData
        returned := none }
  | finish {p : Nat} {e : EndOp} {sem : Semaphore} {ret : Int} {woken : List Nat} :
      (s.procs p).pc = .ckpt e .finish → s.log.opSem.postAllSem = some (sem, ret, woken) →
      LogStep sb s (.ckpt p) { s.goto p .idle with
        log := { s.log with checkpointing := false, opSem := sem }
        procs := woken.foldl grant (s.goto p .idle).procs
        returned := some e }

variable {sb : SuperBlock} {s s' : LogState} {p : Nat}

theorem LogStep.of_tryBegin {a : LogAct} {c : Nat} {pd : List Nat} (h : s.Entering a p c pd) :
    LogStep sb s a (tryBegin { s with pending := pd, returned := none } p c) := by
  unfold tryBegin
  split
  next hw => exact .block h hw
  next hw => exact .begun h (Bool.eq_false_iff.mpr hw)

theorem LogStep.of_endOp {c : Nat} (hp : (s.procs p).pc = .idle) (hc : c ∈ s.running)
    (h : endOp { s with returned := none } p c = .ok s') : LogStep sb s (.endOp p c) s' := by
  unfold endOp at h
  dsimp only at h
  split at h
  · cases h
  next hck =>
    rw [Bool.not_eq_true] at hck
    split at h
    next hlast =>
      cases h
      have : LogStep sb s _ _ := LogStep.endLast hp hc hck hlast
      simpa [hlast, goto] using this
    next hlast =>
      split at h
      · cases h
      next sem w hw =>
        cases h
        have : LogStep sb s _ _ := LogStep.endOther hp hc hck hlast hw
        simpa [hlast, goto] using this

theorem LogStep.of_ckpt {e : EndOp} {ph : CkptPhase}
    (hp : (s.procs p).pc = .ckpt e ph) (h : ckpt sb { s with returned := none } p e ph = .ok s') :
    LogStep sb s (.ckpt p) s' := by
  cases ph with
  | slots idx =>
    simp only [ckpt] at h
    split at h
    next hidx =>
      obtain ⟨hh, ⟨⟩⟩ := Runs.guard_ok h
      exact .slot hp hidx hh.1 hh.2.1 hh.2.2
    next hidx =>
      cases h
      exact .slotsDone hp (Nat.le_of_not_lt hidx)
  | header =>
    cases h
    exact .header hp
  | homes i =>
    simp only [ckpt] at h
    split at h
    next hi =>
      obtain ⟨hh, ⟨⟩⟩ := Runs.guard_ok h
      exact .home hp hi hh
    next hi =>
      cases h
      exact .homesDone hp (Nat.le_of_not_lt hi)
  | clear =>
    cases h
    exact .clear hp
  | finish =>
    simp only [ckpt] at h
    split at h
    · cases h
    next hw =>
      cases h
      exact .finish hp hw

theorem LogStep.of_step {a : LogAct} (h : step sb s a = .ok s') : LogStep sb s a s' := by
  obtain ⟨hawake, h⟩ := Runs.guard_ok h
  cases a with
  | beginOp p c =>
    simp only [stepAwake] at h
    split at h
    next hpc =>
      split at h
      · cases h
      next hc =>
        rw [not_or] at hc
        cases h
        exact .of_tryBegin (Or.inl ⟨rfl, hpc, hc.1, hc.2, rfl⟩)
    next => cases h
  | retest p =>
    simp only [stepAwake] at h
    split at h
    next c hpc =>
      cases h
      exact .of_tryBegin (Or.inr ⟨rfl, hpc, rfl⟩)
    next => cases h
  | wait p =>
    simp only [stepAwake] at h
    split at h
    next c hpc =>
      split at h
      next hw =>
        cases h
        exact .take hpc hw
      next hw =>
        cases h
        exact .sleep hpc hw
    next => cases h
  | wake p =>
    simp only [stepAwake] at h
    split at h
    next c hpc =>
      split at h
      · cases h
      next hw =>
        obtain ⟨hup, ⟨⟩⟩ := Runs.guard_ok h
        exact .wake hpc hawake hup (hup ▸ hw)
    next => cases h
  | acquire p b =>
    simp only [stepAwake] at h
    split at h
    next hpc =>
      obtain ⟨hb, ⟨⟩⟩ := Runs.guard_ok h
      exact .acquire hpc hb
    next => cases h
  | modify p c b d =>
    simp only [stepAwake] at h
    split at h
    next hpc =>
      obtain ⟨hb, ⟨⟩⟩ := Runs.guard_ok h
      exact .modify hpc hb.1 hb.2
    next => cases h
  | sync p c b =>
    simp only [stepAwake] at h
    split at h
    next hpc =>
      obtain ⟨hb, h⟩ := Runs.guard_ok h
      split at h
      · cases h
      next hs =>
        cases h
        exact .sync hpc hb.1 hb.2 hs
    next => cases h
  | release p b =>
    simp only [stepAwake] at h
    split at h
    next hpc =>
      obtain ⟨hb, ⟨⟩⟩ := Runs.guard_ok h
      exact .release hpc hb
    next => cases h
  | endOp p c =>
    simp only [stepAwake] at h
    split at h
    next hpc =>
      obtain ⟨hc, h⟩ := Runs.guard_ok h
      exact .of_endOp hpc hc h
    next => cases h
  | ckpt p =>
    simp only [stepAwake] at h
    split at h
    next e ph hpc => exact .of_ckpt hpc h
    next => cases h

/-- After `init_bcache` on a device with an empty log. -/
structure Init (sb : SuperBlock) (s : LogState) : Prop where
  header : s.header.numBlocks = 0
  log : s.log = .init
  procs : ∀ p, (s.procs p).pc = .idle ∧ (s.procs p).proc = ⟨false, .RUNNING⟩
  holder : ∀ b, s.holder b = none
  blocks : s.blocks = s.disk
  disk : (LogHeader.ofData (s.disk sb.logStart)).numBlocks = 0
  running : s.running = []
  pending : s.pending = []
  slotWrites : s.slotWrites = []
  returned : s.returned = none

/-- The state after `init_bcache` on the device `disk`. -/
def boot (disk : Nat → Data) : LogState where
  header := ⟨0, fun _ => 0⟩
  log := .init
  ctxs := fun _ => ⟨0, 0⟩
  procs := fun _ => ⟨⟨false, .RUNNING⟩, false, .idle⟩
  holder := fun _ => none
  blocks := disk
  disk := disk
  running := []
  pending := []
  added := fun _ => 0
  synced := fun _ => []
  slotWrites := []
  returned := none

theorem boot_init (sb : SuperBlock) (disk : Nat → Data)
    (h : (LogHeader.ofData (disk sb.logStart)).numBlocks = 0) : Init sb (boot disk) :=
  ⟨rfl, rfl, fun _ => ⟨rfl, rfl⟩, fun _ => rfl, rfl, h, rfl, rfl, rfl, rfl⟩

theorem boot_mkfs : Init Mkfs.superBlock (boot fun _ => Bytes.zero) :=
  boot_init Mkfs.superBlock _ LogHeader.numBlocks_ofData_zero

/-- The states of all runs whose steps meet `ok`. -/
def ReachWhen (sb : SuperBlock) (ok : LogState → LogAct → Prop) : LogState → Prop :=
  Runs.Reach (step sb) ok (Init sb)

def Reachable (sb : SuperBlock) : LogState → Prop := ReachWhen sb Runs.always

end LogState

end OsKernel
