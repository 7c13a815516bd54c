import OsKernel.Fs.Reservation

/-!
# Wake-ups in `cache_begin_op`

A process that has to wait in `cache_begin_op` releases `glock` before it waits
on `op_sem`.  When the checkpoint it waits for ends in between, `post_all_sem`
finds no sleeper and takes its token back, and the process then sleeps with
nothing left to wake it (`lost_wakeup`).  In a run in which no process is in that
window whenever a checkpoint ends, a process asleep on `op_sem` always has a
checkpoint or a running operation ahead of it (`no_lost_wakeup`).
-/

namespace OsKernel

open Function

/-- Is the process inside the wait on `op_sem`? -/
def LogPc.sleeps : LogPc → Bool
  | .beginSleep _ => true
  | _ => false

/-- Is the process between the release of `glock` and the wait? -/
def LogPc.inWindow : LogPc → Bool
  | .beginWait _ => true
  | _ => false

namespace LogState

/-- Process `p` sleeps on `op_sem` and has not been given a token. -/
def Asleep (s : LogState) (p : Nat) : Prop :=
  (s.procs p).pc.sleeps = true ∧ (s.procs p).up = false

instance (s : LogState) (p : Nat) : Decidable (s.Asleep p) :=
  inferInstanceAs (Decidable (_ ∧ _))

/-- Process `p` has seen that it must wait and is not asleep yet. -/
def InWindow (s : LogState) (p : Nat) : Prop := (s.procs p).pc.inWindow = true

instance (s : LogState) (p : Nat) : Decidable (s.InWindow p) :=
  inferInstanceAs (Decidable (_ = _))

/-- When `do_checkpoint` ends, no process is between the test of
`cache_begin_op` and its wait. -/
def WindowEmpty (s : LogState) (a : LogAct) : Prop :=
  ∀ p e, a = .ckpt p → (s.procs p).pc = .ckpt e .finish → ∀ q, ¬ s.InWindow q

/-! ## Steps and the waiting processes -/

variable {sb : SuperBlock} {s s' : LogState} {a : LogAct} {q p : Nat} {pc : LogPc} {sem : Semaphore}

theorem LogStep.pc_of_ne (h : LogStep sb s a s') (hq : q ≠ a.proc) :
    (s'.procs q).pc = (s.procs q).pc := by
  have hgoto : ∀ {p pc}, q ≠ p → ((s.goto p pc).procs q).pc = (s.procs q).pc := by
    intro p pc hqp
    simp [goto, hqp]
  cases h with
  | block he | begun he =>
    rcases he with ⟨rfl, -⟩ | ⟨rfl, -⟩ <;> exact hgoto hq
  | sleep hpc =>
    have hqp : q ≠ _ := hq
    simp [LogAct.proc] at hqp
    simp [hqp]
  | endOther | finish =>
    rw [foldl_grant_pc]
    exact hgoto hq
  | _ => exact hgoto hq

/-- `_post_sem` touches the `up` flags of the processes it wakes only, and sets
them. -/
theorem foldl_grant_up (procs : Nat → LogProc) (ws : List Nat) (q : Nat) :
    (ws.foldl grant procs q).up = (decide (q ∈ ws) || (procs q).up) := by
  induction ws generalizing procs with
  | nil => simp
  | cons p ws ih =>
    rw [List.foldl_cons, ih]
    obtain rfl | hq := eq_or_ne q p
    · simp [grant]
    · simp [grant, hq]

theorem asleep_goto
    (hs : s'.procs = (s.goto p pc).procs) (hpc : pc.sleeps = false) (h : s'.Asleep q) :
    s.Asleep q := by
  obtain ⟨h1, h2⟩ := h
  rw [hs] at h1 h2
  obtain rfl | hq := eq_or_ne q p
  · simp only [goto, update_self, hpc] at h1
    cases h1
  · simp only [goto, update_of_ne hq] at h1 h2
    exact ⟨h1, h2⟩

/-- After `_post_sem` for the processes `ws`, those asleep were asleep before
and are not in `ws`. -/
theorem asleep_grant {ws : List Nat}
    (hs : s'.procs = ws.foldl grant (s.goto p pc).procs) (hpc : pc.sleeps = false)
    (h : s'.Asleep q) : s.Asleep q ∧ q ∉ ws := by
  obtain ⟨h1, h2⟩ := h
  rw [hs, foldl_grant_pc] at h1
  rw [hs, foldl_grant_up, Bool.or_eq_false_iff, decide_eq_false_iff_not] at h2
  exact ⟨asleep_goto (rfl : (s.goto p pc).procs = _) hpc ⟨h1, h2.2⟩, h2.1⟩

theorem inWindow_goto (hs : s'.pcs = update s.pcs p pc) (hpc : pc.inWindow = false)
    (h : s'.InWindow q) : s.InWindow q := by
  have hq : (s'.pcs q).inWindow = true := h
  rw [hs] at hq
  obtain rfl | hqp := eq_or_ne q p
  · rw [update_self, hpc] at hq
    cases hq
  · rwa [update_of_ne hqp] at hq

/-! ## The invariant -/

/-- Every sleeper is on the list of `op_sem`, and every process that waits or is
about to has a checkpoint or a running operation ahead. -/
structure WaitInv (s : LogState) : Prop where
  listed : ∀ p, s.Asleep p → p ∈ s.log.opSem.sleeplist
  ahead : ∀ p, s.Asleep p ∨ s.InWindow p → s.log.checkpointing = true ∨ 0 < s.log.runningOps

theorem WaitInv.of_init (h : s.Init sb) : s.WaitInv := by
  have hidle : ∀ p, (s.procs p).pc = .idle := fun p => (h.procs p).1
  refine ⟨fun p hp => ?_, fun p hp => ?_⟩
  · rw [Asleep, hidle] at hp
    cases hp.1
  · rw [Asleep, InWindow, hidle] at hp
    rcases hp with hp | hp
    · cases hp.1
    · cases hp

/-- A process moves to a place outside the wait, the list stays as it is, and
something is still ahead of those who wait. -/
theorem WaitInv.move (h : s.WaitInv)
    (hprocs : s'.procs = (s.goto p pc).procs) (hw : pc.inWindow = false)
    (hsl : pc.sleeps = false) (hsem : s'.log.opSem.sleeplist = s.log.opSem.sleeplist)
    (hahead : s.log.checkpointing = true ∨ 0 < s.log.runningOps →
      s'.log.checkpointing = true ∨ 0 < s'.log.runningOps) : s'.WaitInv := by
  have hpcs : s'.pcs = update s.pcs p pc := by
    rw [← pcs_goto]
    funext q
    rw [pcs, hprocs, pcs]
  refine ⟨fun q hq => ?_, fun q hq => hahead (h.ahead q ?_)⟩
  · rw [hsem]
    exact h.listed q (asleep_goto hprocs hsl hq)
  · exact hq.imp (asleep_goto hprocs hsl) (inWindow_goto hpcs hw)

/-- `cache_begin_op` makes a process wait only for a checkpoint or for a running
operation: with neither the header is empty and has room. -/
theorem Inv.ahead_of_mustWait (h : s.Inv) (hw : s.log.mustWait s.header = true) :
    s.log.checkpointing = true ∨ 0 < s.log.runningOps := by
  rcases Log.mustWait_eq_true hw with hck | hfull
  · exact Or.inl hck
  · by_contra hnone
    rw [not_or, Bool.not_eq_true, Nat.not_lt, Nat.le_zero] at hnone
    rw [h.acct.quiet hnone.1 hnone.2, hnone.2, LOG_MAX_SIZE_eq, OP_MAX_NUM_BLOCKS_eq] at hfull
    omega

theorem WaitInv.sleep (h : s.WaitInv) {c : Nat}
    (hpc : (s.procs p).pc = .beginWait c) (hw : s.log.opSem.waitSem p = (sem, false))
    {proc : Proc} (hprocs : s'.procs = update s.procs p ⟨proc, false, .beginSleep c⟩)
    (hlog : s'.log = { s.log with opSem := sem }) : s'.WaitInv := by
  have hsem := Semaphore.sleeplist_of_waitSem_false hw
  have hold : ∀ {q}, q ≠ p → s'.procs q = s.procs q := fun hq => by
    rw [hprocs, update_of_ne hq]
  refine ⟨fun q hq => ?_, fun q hq => ?_⟩
  · rw [hlog, hsem, List.mem_cons]
    by_cases hqp : q = p
    · exact Or.inl hqp
    · rw [Asleep, hold hqp] at hq
      exact Or.inr (h.listed q hq)
  · rw [hlog]
    by_cases hqp : q = p
    · exact h.ahead p (Or.inr (by rw [InWindow, hpc]; rfl))
    · rw [Asleep, InWindow, hold hqp] at hq
      exact h.ahead q hq

theorem WaitInv.post (h : s.WaitInv) (hsem : s.log.opSem.WF)
    {w : Option Nat} (hw : s.log.opSem.postSem = some (sem, w))
    (hprocs : s'.procs = w.toList.foldl grant (s.goto p .idle).procs)
    (hlog : s'.log.opSem = sem) (hahead : 0 < s'.log.runningOps) : s'.WaitInv := by
  refine ⟨fun q hq => ?_, fun _ _ => Or.inr hahead⟩
  obtain ⟨hq, hnew⟩ := asleep_grant hprocs rfl hq
  have hmem := h.listed q hq
  rcases Semaphore.postSem_cases hsem with ⟨hnil, -, he⟩ | ⟨rest, r, hl, -, he⟩
  · rw [hnil] at hmem
    cases hmem
  · rw [he] at hw
    cases hw
    rw [hl, List.mem_append] at hmem
    rw [hlog]
    exact hmem.resolve_right hnew

/-- `post_all_sem` wakes the whole list; with an empty window nobody waits
afterwards. -/
theorem WaitInv.postAll (h : s.WaitInv) (hsem : s.log.opSem.WF) {ret : Int} {woken : List Nat}
    (hw : s.log.opSem.postAllSem = some (sem, ret, woken))
    (hprocs : s'.procs = woken.foldl grant (s.goto p .idle).procs)
    (hpcs : s'.pcs = update s.pcs p .idle) (hempty : ∀ q, ¬ s.InWindow q) :
    s'.WaitInv := by
  rw [Semaphore.postAllSem_eq hsem, Option.some.injEq, Prod.mk.injEq, Prod.mk.injEq] at hw
  obtain ⟨-, -, rfl⟩ := hw
  have hnone : ∀ q, ¬ s'.Asleep q := fun q hq => by
    obtain ⟨hq, hnew⟩ := asleep_grant hprocs rfl hq
    exact hnew (List.mem_reverse.mpr (h.listed q hq))
  refine ⟨fun q hq => absurd hq (hnone q), fun q hq => ?_⟩
  rcases hq with hq | hq
  · exact absurd hq (hnone q)
  · exact absurd (inWindow_goto hpcs rfl hq) (hempty q)

theorem WaitInv.step (hinv : s.Inv)
    (h : s.WaitInv) (hok : s.WindowEmpty a) (hstep : LogState.step sb s a = .ok s') :
    s'.WaitInv := by
  cases LogStep.of_step hstep with
  | block he hw =>
    have hahead := hinv.ahead_of_mustWait hw
    exact ⟨fun q hq => h.listed q (asleep_goto rfl rfl hq), fun _ _ => hahead⟩
  | begun he hw => exact h.move rfl rfl rfl rfl fun _ => Or.inr (Nat.succ_pos _)
  | take hpc hw =>
    exact h.move rfl rfl rfl (Semaphore.sleeplist_of_waitSem hw) id
  | sleep hpc hw => exact h.sleep hpc hw rfl rfl
  | wake hpc hawake hup hw =>
    rw [Semaphore.wakeSem, if_pos rfl, Option.some.injEq] at hw
    exact h.move rfl rfl rfl (by rw [hw]) id
  | endLast => exact h.move rfl rfl rfl rfl fun _ => Or.inl rfl
  | endOther hpc hc hck hlast hw =>
    exact h.post hinv.sem hw rfl rfl (Nat.pos_of_ne_zero hlast)
  | finish hpc hw =>
    exact h.postAll hinv.sem hw rfl (pcs_foldl_grant s _ _ _) (hok _ _ rfl hpc)
  | _ => exact h.move rfl rfl rfl rfl id

/-- No lost wake-up.  In every run in which no process is between its test and
its wait when a checkpoint ends, a process asleep on `op_sem` without a token
has a checkpoint or a running operation ahead of it. -/
theorem no_lost_wakeup (sb : SuperBlock) (s : LogState) (h : ReachWhen sb WindowEmpty s) :
    ¬ ∃ p, s.Asleep p ∧ s.log.checkpointing = false ∧ s.log.runningOps = 0 := by
  have hwait : s.WaitInv :=
    Runs.Reach.invariant_of (fun _ hs => inv_of_reach hs) (fun _ hs => WaitInv.of_init hs)
      (fun _ _ _ hJ hI hok hs => hI.step hJ hok hs) h
  rintro ⟨p, hp, hck, hops⟩
  rcases hwait.ahead p (Or.inl hp) with hck' | hops'
  · rw [hck] at hck'
    cases hck'
  · omega

/-- Process 0 ends the only operation and checkpoints; process 1 tests during
the checkpoint and goes to sleep after its end.  Nothing is left to wake it. -/
theorem lost_wakeup : ∃ s, Reachable Mkfs.superBlock s ∧ s.Asleep 1 ∧ s.log.checkpointing = false ∧
      s.log.runningOps = 0 ∧ s.log.opSem.val = -1 := by
  obtain ⟨s, hs, hw⟩ := Runs.Reach.of_execTest boot_mkfs
    (show Runs.execTest (step Mkfs.superBlock) (boot fun _ => Bytes.zero)
      ([.beginOp 0 0, .endOp 0 0, .beginOp 1 1] ++ List.replicate 5 (.ckpt 0) ++ [.wait 1])
      (fun s => s.Asleep 1 ∧ s.log.checkpointing = false ∧ s.log.runningOps = 0 ∧
        s.log.opSem.val = -1) = true by decide +kernel)
  exact ⟨s, hs, of_decide_eq_true hw⟩

/-! A run of finitely many processes, in which the window can be tested. -/

/-- A test for `WindowEmpty` in the runs of the first `n` processes. -/
def windowEmpty (n : Nat) (s : LogState) (a : LogAct) : Bool :=
  decide (a.proc < n) && (!(s.pcs a.proc).isCleared || (List.range n).all fun q => !s.InWindow q)

theorem WindowEmpty.of_test {n : Nat}
    (hidle : ∀ q, n ≤ q → s.pcs q = .idle) (h : windowEmpty n s a = true) : s.WindowEmpty a := by
  rintro p e rfl hpc q hq
  have hcl : (s.pcs p).isCleared = true := by rw [pcs, hpc]; rfl
  simp only [windowEmpty, LogAct.proc, hcl, Bool.not_true, Bool.false_or, Bool.and_eq_true,
    List.all_eq_true, List.mem_range, Bool.not_eq_true', decide_eq_false_iff_not] at h
  by_cases hqn : q < n
  · exact h.2 q hqn hq
  · have hpcq : (s.procs q).pc = .idle := hidle q (Nat.le_of_not_lt hqn)
    rw [InWindow, hpcq] at hq
    cases hq

theorem idle_of_guarded {n : Nat}
    (h : Runs.Reach (Runs.guarded (step sb) (windowEmpty n) .disabled) Runs.always (Init sb) s) :
    ∀ q, n ≤ q → s.pcs q = .idle := by
  refine Runs.Reach.invariant (I := fun s => ∀ q, n ≤ q → s.pcs q = .idle)
    (fun s hs q _ => (hs.procs q).1) (fun s a s' hI _ hs q hq => ?_) h
  obtain ⟨hg, hs⟩ := Runs.step_of_guarded hs
  simp only [windowEmpty, Bool.and_eq_true, decide_eq_true_eq] at hg
  have hne : q ≠ a.proc := by omega
  exact ((LogStep.of_step hs).pc_of_ne hne).trans (hI q hq)

/-- Process 1 sleeps through the checkpoint of process 0 and is woken at its
end. -/
theorem no_lost_wakeup_two_procs :
    ∃ s, ReachWhen Mkfs.superBlock WindowEmpty s ∧ (s.procs 1).up = true ∧
      ¬ ∃ p, s.Asleep p ∧ s.log.checkpointing = false ∧ s.log.runningOps = 0 := by
  obtain ⟨s, hs, hw⟩ := Runs.Reach.of_execTest boot_mkfs
    (show Runs.execTest (Runs.guarded (step Mkfs.superBlock) (windowEmpty 2) .disabled)
      (boot fun _ => Bytes.zero)
      ([.beginOp 0 0, .endOp 0 0, .beginOp 1 1, .wait 1] ++ List.replicate 5 (.ckpt 0))
      (fun s => (s.procs 1).up = true) = true by decide +kernel)
  have hreach : ReachWhen Mkfs.superBlock WindowEmpty s :=
    Runs.Reach.of_guarded (fun _ hr => idle_of_guarded hr) (fun _ _ hI hq => .of_test hI hq) hs
  exact ⟨s, hreach, of_decide_eq_true hw, no_lost_wakeup _ s hreach⟩

end LogState

end OsKernel
