import OsKernel.Lib.Runs
import OsKernel.Kernel.Sched
import OsKernel.Common.Sem

/-!
# Runs of one semaphore

Any number of processes call the functions of `common/sem.c` on one semaphore
that starts at `init_sem(v)`.  Each stretch under the semaphore's lock is one
step.  A process inside `_wait_sem` owns a `WaitData`; it goes on when the
scheduler may pick it, because a post, an alert or a kill woke it, or because
it was killed and `sched` did not put it to sleep.

A process that has to sleep takes the lock of the scheduler before it releases the
semaphore's, and has it when `sched` tests `killed`.  A post and an alert need that
lock, but `kill` sets the flag without it, so the test may find a kill that came
after the decrement: whether it does is an argument of the step.

Three fields record history and are read by no step: `clock` and
`WaitData.arrival` count the waits that slept, `posts` counts the calls of
`_post_sem`, and `takes` the tokens taken, by a call that returned success or
by a waiter at the moment a post hands it the token.
-/

namespace OsKernel

open Function List Semaphore
open Runs (Stop not_guard_ok)

/-- `WaitData`, with the moment it was linked. -/
structure WaitData where
  up : Bool
  arrival : Nat
deriving DecidableEq, Repr

/-- A process, and the `WaitData` of the `_wait_sem` it is in. -/
structure Waiter where
  proc : Proc
  wait : Option WaitData
deriving DecidableEq, Repr

variable {procs : Nat → Waiter}

structure SemState where
  sem : Semaphore
  procs : Nat → Waiter
  clock : Nat
  posts : Nat
  takes : Nat

/-- One locked stretch of a call on the semaphore, or an event that wakes. -/
inductive SemAct where
  /-- `wait_sem` or `unalertable_wait_sem`, up to the sleep.  `killed`: the flag has been set
  between the decrement and the test in `sched`. -/
  | wait (p : Nat) (alertable killed : Bool)
  /-- The rest of the wait, after `sched` has returned. -/
  | wake (p : Nat)
  | post
  | get
  | getAll
  | postAll
  | alert (p : Nat)
  | kill (p : Nat)
deriving DecidableEq, Repr

variable {a : SemAct}

namespace SemState

/-- What `_post_sem` does to the waiter it takes off the list. -/
def grant (procs : Nat → Waiter) (p : Nat) : Nat → Waiter :=
  update procs p
    { proc := (procs p).proc.activateProc
      wait := (procs p).wait.map fun w => { w with up := true } }

/-- `_post_sem` and the waiter it wakes, if any. -/
def grantOption (procs : Nat → Waiter) : Option Nat → Nat → Waiter
  | none => procs
  | some p => grant procs p

def step (s : SemState) : SemAct → Except Stop SemState
  | .wait p alertable killed =>
    let q := s.procs p
    if q.proc.awake && q.wait.isNone then
      match s.sem.waitSem p with
      | (sem, true) =>
        .ok { s with
          sem := sem
          procs := update s.procs p { q with proc := q.proc.run }
          takes := s.takes + 1 }
      | (sem, false) =>
        .ok { s with
          sem := sem
          clock := s.clock + 1
          procs := update s.procs p
            { proc := { q.proc with killed := q.proc.killed || killed }.run.sched
                (if alertable then .SLEEPING else .DEEPSLEEPING)
              wait := some ⟨false, s.clock⟩ } }
    else .error .disabled
  | .wake p =>
    let q := s.procs p
    match q.proc.awake, q.wait with
    | true, some w =>
      match s.sem.wakeSem p w.up with
      | none => .error .panic
      | some sem =>
        .ok { s with
          sem := sem
          procs := update s.procs p { proc := q.proc.run, wait := none } }
    | _, _ => .error .disabled
  | .post =>
    -- `++sem->val` wraps around to a negative value, and the list is empty
    if INT_MAX ≤ s.sem.val then .error .panic
    else
      match s.sem.postSem with
      | none => .error .panic
      | some (sem, w) =>
        .ok { s with
          sem := sem
          procs := grantOption s.procs w
          posts := s.posts + 1
          takes := s.takes + w.toList.length }
  | .get =>
    match s.sem.getSem with
    | (sem, true) => .ok { s with sem := sem, takes := s.takes + 1 }
    | (sem, false) => .ok { s with sem := sem }
  | .getAll =>
    .ok { s with sem := s.sem.getAllSem.1, takes := s.takes + s.sem.getAllSem.2.toNat }
  | .postAll =>
    if INT_MAX ≤ s.sem.val then .error .panic
    else
      match s.sem.postAllSem with
      | none => .error .panic
      | some (sem, _, woken) =>
        .ok { s with
          sem := sem
          procs := woken.foldl grant s.procs
          posts := s.posts + (woken.length + 1)
          takes := s.takes + (woken.length + 1) }
  | .alert p =>
    .ok { s with
      procs := update s.procs p { s.procs p with proc := (s.procs p).proc.alertProc } }
  | .kill p =>
    .ok { s with
      procs := update s.procs p { s.procs p with proc := (s.procs p).proc.kill } }

/-- After `init_sem(v)`, with every process outside the semaphore. -/
def Init (v : Int) (s : SemState) : Prop :=
  s.sem = .initSem v ∧ (∀ p, (s.procs p).wait = none) ∧ s.clock = 0 ∧ s.posts = 0 ∧ s.takes = 0

/-- The states of all runs from `init_sem(v)`. -/
def Reachable (v : Int) : SemState → Prop := Runs.Reach step Runs.always (Init v)

/-- When the `WaitData` of a process was linked. -/
def arrival (s : SemState) (p : Nat) : Nat :=
  match (s.procs p).wait with
  | some w => w.arrival
  | none => 0

/-- The process is in `_wait_sem` and has not been handed a token. -/
def Waiting (s : SemState) (p : Nat) : Prop :=
  ∃ w, (s.procs p).wait = some w ∧ w.up = false

/-! ## Handing out tokens -/

theorem grant_wait_same (procs : Nat → Waiter) (p : Nat) :
    (grant procs p p).wait = (procs p).wait.map fun w => { w with up := true } := by
  simp [grant]

variable {p q : Nat} {s s' : SemState} {v : Int}

theorem grant_ne (procs : Nat → Waiter) (h : q ≠ p) : grant procs p q = procs q := by
  simp [grant, h]

theorem foldl_grant_ne (procs : Nat → Waiter) (ws : List Nat) (h : q ∉ ws) :
    ws.foldl grant procs q = procs q := by
  induction ws generalizing procs with
  | nil => rfl
  | cons p ws ih =>
    rw [mem_cons, not_or] at h
    rw [foldl_cons, ih _ h.2, grant_ne _ h.1]

theorem foldl_grant_wait (procs : Nat → Waiter) (ws : List Nat) (h : q ∈ ws) :
    (ws.foldl grant procs q).wait = (procs q).wait.map fun w => { w with up := true } := by
  induction ws generalizing procs with
  | nil => cases h
  | cons p ws ih =>
    rw [foldl_cons]
    by_cases hq : q ∈ ws
    · rw [ih _ hq]
      obtain rfl | hp := eq_or_ne q p
      · rw [grant_wait_same, Option.map_map]
        rfl
      · rw [grant_ne _ hp]
    · have hp : q = p := (mem_cons.mp h).resolve_right hq
      subst hp
      rw [foldl_grant_ne _ _ hq, grant_wait_same]

/-! ## Waiters have not exited -/

/-- A process inside `_wait_sem` is not a zombie. -/
def Alive (s : SemState) : Prop :=
  ∀ p, (s.procs p).wait.isSome = true → (s.procs p).proc.state ≠ .ZOMBIE

theorem Alive.update (h : s.Alive) (p : Nat) {q : Waiter}
    (hq : q.wait.isSome = true → q.proc.state ≠ .ZOMBIE) :
    ∀ r, (update s.procs p q r).wait.isSome = true →
      (update s.procs p q r).proc.state ≠ .ZOMBIE := by
  intro r hr
  obtain rfl | hrp := eq_or_ne r p
  · rw [update_self] at hr ⊢
    exact hq hr
  · rw [update_of_ne hrp] at hr ⊢
    exact h r hr

theorem Alive.foldl_grant
    (h : ∀ p, (procs p).wait.isSome = true → (procs p).proc.state ≠ .ZOMBIE) (ws : List Nat) :
    ∀ p, (ws.foldl grant procs p).wait.isSome = true →
      (ws.foldl grant procs p).proc.state ≠ .ZOMBIE := by
  induction ws generalizing procs with
  | nil => exact h
  | cons q ws ih =>
    refine ih fun p hp => ?_
    obtain rfl | hpq := eq_or_ne p q
    · rw [grant_wait_same, Option.isSome_map] at hp
      simpa [grant, Proc.activateProc] using Proc.state_activate_ne_zombie false (h p hp)
    · rw [grant_ne _ hpq] at hp ⊢
      exact h p hp

theorem foldl_grant_awake
    (h : ∀ p, (procs p).wait.isSome = true → (procs p).proc.state ≠ .ZOMBIE) (ws : List Nat)
    (hp : p ∈ ws) (hw : (procs p).wait.isSome = true) :
    (ws.foldl grant procs p).proc.awake = true := by
  induction ws generalizing procs with
  | nil => cases hp
  | cons q ws ih =>
    rw [foldl_cons]
    by_cases hmem : p ∈ ws
    · refine ih (Alive.foldl_grant h [q]) hmem ?_
      obtain rfl | hpq := eq_or_ne p q
      · rwa [grant_wait_same, Option.isSome_map]
      · rwa [grant_ne _ hpq]
    · have hpq : p = q := (mem_cons.mp hp).resolve_right hmem
      subst hpq
      rw [foldl_grant_ne _ _ hmem]
      simpa [grant] using Proc.awake_activateProc (h p hw)

theorem Alive.step (h : s.Alive) (hs : s.step a = .ok s') : s'.Alive := by
  cases a with
  | wait p alertable killed =>
    obtain ⟨hen, hs⟩ := Runs.guard_ok hs
    rw [Bool.and_eq_true, Option.isNone_iff_eq_none] at hen
    split at hs <;> cases hs
    · exact h.update p fun hq => by simp [hen.2] at hq
    · exact h.update p fun _ =>
        Proc.state_sched_ne_zombie _ (by cases alertable <;> simp)
  | wake p =>
    simp only [SemState.step] at hs
    split at hs
    next =>
      split at hs <;> cases hs
      exact h.update p fun hq => by simp at hq
    next => cases hs
  | post =>
    obtain ⟨-, hs⟩ := not_guard_ok hs
    split at hs
    · cases hs
    next w _ =>
      cases hs
      cases w with
      | none => exact h
      | some q => exact Alive.foldl_grant h [q]
  | get =>
    simp only [SemState.step] at hs
    split at hs <;> cases hs <;> exact h
  | getAll =>
    cases hs
    exact h
  | postAll =>
    obtain ⟨-, hs⟩ := not_guard_ok hs
    split at hs <;> cases hs
    exact Alive.foldl_grant h _
  | alert p =>
    cases hs
    exact h.update p fun hq => Proc.state_activate_ne_zombie true (h p hq)
  | kill p =>
    cases hs
    exact h.update p fun hq =>
      Proc.state_activate_ne_zombie (p := { (s.procs p).proc with killed := true }) true (h p hq)

theorem Reachable.alive (h : Reachable v s) : s.Alive :=
  Runs.Reach.invariant (fun s hs p hp => by simp [hs.2.1 p] at hp)
    (fun _ _ _ hi _ hs => Alive.step hi hs) h

/-! ## The invariant -/

structure Inv (v : Int) (s : SemState) : Prop where
  wf : s.sem.WF
  nodup : s.sem.sleeplist.Nodup
  linked : ∀ p, p ∈ s.sem.sleeplist ↔ s.Waiting p
  order : s.sem.sleeplist.Pairwise fun p q => s.arrival q < s.arrival p
  past : ∀ p w, (s.procs p).wait = some w → w.arrival < s.clock
  account : v + s.posts = s.takes + max s.sem.val 0

theorem Inv.of_init (hv : 0 ≤ v) (h : s.Init v) : s.Inv v := by
  obtain ⟨hs, hw, -, hp, ht⟩ := h
  refine ⟨hs ▸ .init hv, by simp [hs, initSem], fun p => ?_, ?_, fun p w hpw => ?_, ?_⟩
  · simp [hs, initSem, Waiting, hw p]
  · simp [hs, initSem]
  · rw [hw p] at hpw
    cases hpw
  · rw [hs, hp, ht]
    simp only [initSem]
    omega

section

variable (h : s.Inv v)

include h

/-- A step that leaves the semaphore, the clock, the counters and every
`WaitData` alone keeps the invariant. -/
theorem Inv.congr (hsem : s'.sem = s.sem)
    (hclock : s'.clock = s.clock) (hposts : s'.posts = s.posts) (htakes : s'.takes = s.takes)
    (hwait : ∀ p, (s'.procs p).wait = (s.procs p).wait) : s'.Inv v := by
  have harr : s'.arrival = s.arrival := by
    funext p
    rw [arrival, arrival, hwait p]
  refine ⟨hsem ▸ h.wf, hsem ▸ h.nodup, fun p => ?_, ?_, fun p w hp => ?_, ?_⟩
  · rw [hsem, h.linked p, Waiting, Waiting, hwait p]
  · rw [hsem, harr]
    exact h.order
  · rw [hclock]
    exact h.past p w (hwait p ▸ hp)
  · rw [hsem, hposts, htakes]
    exact h.account

theorem Inv.join (hp : (s.procs p).wait = none) (hv : s.sem.val ≤ 0) (q : Proc) : Inv v { s with
      sem := ⟨s.sem.val - 1, p :: s.sem.sleeplist⟩
      clock := s.clock + 1
      procs := update s.procs p { proc := q, wait := some ⟨false, s.clock⟩ } } := by
  have hnot : p ∉ s.sem.sleeplist := by
    rw [h.linked p]
    rintro ⟨w, hw, -⟩
    rw [hp] at hw
    cases hw
  have hne : ∀ {r}, r ∈ s.sem.sleeplist → r ≠ p := fun hr e => hnot (e ▸ hr)
  refine ⟨?_, ?_, fun r => ?_, ?_, fun r w hr => ?_, ?_⟩
  · have hwf := h.wf
    rw [Semaphore.WF] at hwf ⊢
    simp only [length_cons]
    omega
  · exact nodup_cons.mpr ⟨hnot, h.nodup⟩
  · rw [mem_cons, h.linked r]
    obtain rfl | hr := eq_or_ne r p
    · simp [Waiting]
    · simp [Waiting, hr]
  · refine pairwise_cons.mpr ⟨fun r hr => ?_, h.order.imp_of_mem ?_⟩
    · obtain ⟨w, hw, -⟩ := (h.linked r).mp hr
      simp [arrival, hne hr, hw, h.past r w hw]
    · intro a b ha hb hab
      simpa [arrival, hne ha, hne hb] using hab
  · obtain rfl | hrp := eq_or_ne r p
    · simp only [update_self, Option.some.injEq] at hr
      subst hr
      exact Nat.lt_succ_self _
    · simp only [update_of_ne hrp] at hr
      exact Nat.lt_succ_of_lt (h.past r w hr)
  · have hacc := h.account
    dsimp only
    omega

theorem Inv.leave (hp : p ∈ s.sem.sleeplist) (q : Proc) : Inv v { s with
      sem := ⟨s.sem.val + 1, s.sem.sleeplist.erase p⟩
      procs := update s.procs p { proc := q, wait := none } } := by
  have hneg := h.wf.neg_of_mem hp
  refine ⟨h.wf.erase hp, h.nodup.erase p, fun r => ?_, ?_, fun r w hr => ?_, ?_⟩
  · rw [h.nodup.mem_erase_iff, h.linked r]
    obtain rfl | hr := eq_or_ne r p
    · simp [Waiting]
    · simp [Waiting, hr]
  · refine (h.order.sublist erase_sublist).imp_of_mem ?_
    intro a b ha hb hab
    have hap := (h.nodup.mem_erase_iff.mp ha).1
    have hbp := (h.nodup.mem_erase_iff.mp hb).1
    simpa [arrival, hap, hbp] using hab
  · obtain rfl | hrp := eq_or_ne r p
    · simp at hr
    · simp only [update_of_ne hrp] at hr
      exact h.past r w hr
  · have hacc := h.account
    dsimp only
    omega

theorem Inv.granted {w : WaitData} (hp : (s.procs p).wait = some w) (hup : w.up = true) (q : Proc) :
    Inv v { s with procs := update s.procs p { proc := q, wait := none } } := by
  have hnot : p ∉ s.sem.sleeplist := by
    rw [h.linked p]
    rintro ⟨w', hw', hf⟩
    rw [hp, Option.some.injEq] at hw'
    rw [← hw', hup] at hf
    cases hf
  refine ⟨h.wf, h.nodup, fun r => ?_, ?_, fun r w' hr => ?_, h.account⟩
  · obtain rfl | hr := eq_or_ne r p
    · simp [Waiting, hnot]
    · rw [h.linked r]
      simp [Waiting, hr]
  · refine h.order.imp_of_mem ?_
    intro a b ha hb hab
    have hap : a ≠ p := fun e => hnot (e ▸ ha)
    have hbp : b ≠ p := fun e => hnot (e ▸ hb)
    simpa [arrival, hap, hbp] using hab
  · obtain rfl | hrp := eq_or_ne r p
    · simp at hr
    · simp only [update_of_ne hrp] at hr
      exact h.past r w' hr

/-- Tokens handed to a suffix of the list, the oldest waiters: those waiters
leave the list and every other process is as before. -/
theorem Inv.handOut (rest ws : List Nat)
    (hl : s.sem.sleeplist = rest ++ ws.reverse) (sem : Semaphore) (hlist : sem.sleeplist = rest)
    (hwf : sem.WF) (k t : Nat) (hval : max sem.val 0 + t = max s.sem.val 0 + k) :
    Inv v { s with
      sem := sem
      procs := ws.foldl grant s.procs
      posts := s.posts + k
      takes := s.takes + t } := by
  have hnd := h.nodup
  rw [hl, nodup_append'] at hnd
  have hdisj : ∀ {r}, r ∈ rest → r ∉ ws := fun hr hw => hnd.2.2 hr (mem_reverse.mpr hw)
  have hkeep : ∀ {r}, r ∈ rest → ws.foldl grant s.procs r = s.procs r := fun hr =>
    foldl_grant_ne _ _ (hdisj hr)
  refine ⟨hwf, hlist ▸ hnd.1, fun r => ?_, ?_, fun r w hr => ?_, ?_⟩
  · dsimp only [Waiting]
    rw [hlist]
    by_cases hw : r ∈ ws
    · have hr : r ∉ rest := fun hr => hdisj hr hw
      rw [foldl_grant_wait _ _ hw]
      simp only [hr, false_iff]
      rintro ⟨w, hw', hup⟩
      rw [Option.map_eq_some_iff] at hw'
      obtain ⟨w', -, rfl⟩ := hw'
      cases hup
    · rw [foldl_grant_ne _ _ hw]
      have := h.linked r
      rw [hl, mem_append, mem_reverse, Waiting] at this
      rw [← this]
      simp [hw]
  · dsimp only
    rw [hlist]
    have hord := h.order
    rw [hl, pairwise_append] at hord
    refine hord.1.imp_of_mem ?_
    intro a b ha hb hab
    simpa [arrival, hkeep ha, hkeep hb] using hab
  · dsimp only at hr ⊢
    by_cases hw : r ∈ ws
    · rw [foldl_grant_wait _ _ hw, Option.map_eq_some_iff] at hr
      obtain ⟨w', hw', rfl⟩ := hr
      exact h.past r w' hw'
    · rw [foldl_grant_ne _ _ hw] at hr
      exact h.past r w hr
  · have hacc := h.account
    push_cast
    omega

theorem Inv.take (sem : Semaphore) (t : Nat)
    (hlist : sem.sleeplist = s.sem.sleeplist) (hwf : sem.WF)
    (hval : max sem.val 0 + t = max s.sem.val 0) :
    Inv v { s with sem := sem, takes := s.takes + t } := by
  refine ⟨hwf, hlist ▸ h.nodup, fun p => ?_, ?_, h.past, ?_⟩
  · rw [hlist, h.linked p]
    rfl
  · rw [hlist]
    exact h.order
  · have hacc := h.account
    push_cast
    omega

theorem Inv.post_cases (hmax : ¬ INT_MAX ≤ s.sem.val) : (s.sem.sleeplist = [] ∧ 0 ≤ s.sem.val ∧
      s.step .post = .ok { s with sem := ⟨s.sem.val + 1, []⟩, posts := s.posts + 1 }) ∨
    (∃ rest p, s.sem.sleeplist = rest ++ [p] ∧ s.sem.val < 0 ∧ s.step .post = .ok { s with
        sem := ⟨s.sem.val + 1, rest⟩
        procs := grant s.procs p
        posts := s.posts + 1
        takes := s.takes + 1 }) := by
  rcases postSem_cases h.wf with ⟨hnil, hv, he⟩ | ⟨rest, p, hl, hv, he⟩
  · exact Or.inl ⟨hnil, hv, by simp [step, hmax, he, grantOption]⟩
  · exact Or.inr ⟨rest, p, hl, hv, by simp [step, hmax, he, grantOption]⟩

theorem Inv.postAll_eq (hmax : ¬ INT_MAX ≤ s.sem.val) : s.step .postAll = .ok { s with
      sem := ⟨max s.sem.val 0, []⟩
      procs := s.sem.sleeplist.reverse.foldl grant s.procs
      posts := s.posts + (s.sem.sleeplist.length + 1)
      takes := s.takes + (s.sem.sleeplist.length + 1) } := by
  simp only [step, if_neg hmax, postAllSem_eq h.wf, length_reverse]

theorem Inv.step (hs : s.step a = .ok s') : s'.Inv v := by
  cases a with
  | wait p alertable killed =>
    obtain ⟨hen, hs⟩ := Runs.guard_ok hs
    rw [Bool.and_eq_true, Option.isNone_iff_eq_none] at hen
    rcases waitSem_cases h.wf p with ⟨hv, hnil, he⟩ | ⟨hv, he⟩
    · rw [he] at hs
      cases hs
      have hwf : (⟨s.sem.val - 1, []⟩ : Semaphore).WF := by
        have := h.wf.waitSem p
        rwa [he] at this
      have htake := h.take ⟨s.sem.val - 1, []⟩ 1 hnil.symm hwf (by dsimp only; omega)
      refine htake.congr rfl rfl rfl rfl fun q => ?_
      obtain rfl | hq := eq_or_ne q p
      · simp
      · simp [hq]
    · rw [he] at hs
      cases hs
      exact h.join hen.2 hv _
  | wake p =>
    simp only [SemState.step] at hs
    split at hs
    next w _ hw =>
      cases hup : w.up with
      | true =>
        rw [hup, wakeSem, if_pos rfl] at hs
        cases hs
        exact h.granted hw hup _
      | false =>
        have hp := (h.linked p).mpr ⟨w, hw, hup⟩
        rw [hup, wakeSem_of_mem h.wf hp] at hs
        cases hs
        exact h.leave hp _
    next => cases hs
  | post =>
    rcases h.post_cases (not_guard_ok hs).1 with ⟨hnil, hv, he⟩ | ⟨rest, p, hl, hv, he⟩
    · rw [he] at hs
      cases hs
      exact h.handOut [] [] (by simp [hnil]) ⟨s.sem.val + 1, []⟩ rfl
        (by rw [Semaphore.WF]; simp only [length_nil]; omega) 1 0 (by dsimp only; omega)
    rw [he] at hs
    cases hs
    have hlen := h.wf.length_of_neg hv
    rw [hl, length_append, length_singleton] at hlen
    exact h.handOut rest [p] (by simp [hl]) ⟨s.sem.val + 1, rest⟩ rfl
      (by rw [Semaphore.WF]; dsimp only; omega) 1 1 (by dsimp only; omega)
  | get =>
    simp only [SemState.step] at hs
    have hwf := h.wf.getSem
    rcases getSem_cases s.sem with ⟨hv, he⟩ | ⟨hv, he⟩
    · rw [he] at hs hwf
      cases hs
      exact h.take _ 1 rfl hwf (by dsimp only; omega)
    · rw [he] at hs
      cases hs
      exact h
  | getAll =>
    simp only [SemState.step] at hs
    have hwf := h.wf.getAllSem
    rcases getAllSem_cases s.sem with ⟨hv, he⟩ | ⟨hv, he⟩
    · rw [he] at hs hwf
      cases hs
      exact h.take _ _ rfl hwf (by dsimp only; omega)
    · rw [he] at hs
      cases hs
      exact h
  | postAll =>
    rw [h.postAll_eq (not_guard_ok hs).1] at hs
    cases hs
    exact h.handOut [] _ (by simp) _ rfl .postAllSem _ _ (by dsimp only; push_cast; omega)
  | alert p =>
    cases hs
    refine h.congr rfl rfl rfl rfl fun q => ?_
    obtain rfl | hq := eq_or_ne q p
    · simp
    · simp [hq]
  | kill p =>
    cases hs
    refine h.congr rfl rfl rfl rfl fun q => ?_
    obtain rfl | hq := eq_or_ne q p
    · simp
    · simp [hq]

theorem Inv.no_panic (hmax : ¬ INT_MAX ≤ s.sem.val) (a : SemAct) : s.step a ≠ .error .panic := by
  cases a with
  | wait p alertable killed =>
    simp only [SemState.step]
    split
    · split <;> exact fun he => by cases he
    · exact fun he => by cases he
  | wake p =>
    simp only [SemState.step]
    split
    next w _ hw =>
      cases hup : w.up with
      | true => simp [wakeSem]
      | false => simp [wakeSem_of_mem h.wf ((h.linked p).mpr ⟨w, hw, hup⟩)]
    next => exact fun he => by cases he
  | post =>
    rcases h.post_cases hmax with ⟨-, -, he⟩ | ⟨rest, p, -, -, he⟩ <;> rw [he] <;>
      exact fun hc => by cases hc
  | get =>
    simp only [SemState.step]
    split <;> exact fun he => by cases he
  | getAll => exact fun he => by cases he
  | postAll =>
    rw [h.postAll_eq hmax]
    exact fun he => by cases he
  | alert p | kill p => exact fun he => by cases he

end

theorem Reachable.inv (hv : 0 ≤ v) (h : Reachable v s) : s.Inv v :=
  Runs.Reach.invariant (fun _ hs => .of_init hv hs) (fun _ _ _ hi _ hs => hi.step hs) h

/-! ## Semaphore accounting -/

/-- The process has been handed a token and will find it when it runs. -/
def Granted (s : SemState) (p : Nat) : Prop :=
  (s.procs p).proc.awake = true ∧ ∃ w, (s.procs p).wait = some w ∧ w.up = true

theorem granted_of_mem (ha : s.Alive) {ws : List Nat} (hp : p ∈ ws)
    (hw : s.Waiting p) : Granted { s with procs := ws.foldl grant s.procs } p := by
  obtain ⟨w, hw, -⟩ := hw
  refine ⟨foldl_grant_awake ha ws hp (by rw [hw]; rfl), { w with up := true }, ?_, rfl⟩
  rw [foldl_grant_wait _ _ hp, hw, Option.map_some]

theorem Inv.in_range (h : s.Inv v) (hmax : v + s.posts < INT_MAX) : ¬ INT_MAX ≤ s.sem.val := by
  have hacc := h.account
  omega

/-- In every state of every run from `init_sem(v)` with `v ≥ 0`: the sleep list
has `max(0, -val)` entries, all waiting without a token and newest first, and the
tokens put in are those taken and those left.  As long as one more post does not
make `v + posts` larger than `INT_MAX`, a post makes one more token available or
hands it to the oldest sleeper and changes no other process, no assertion fails,
and `post_all_sem` returns the number of sleepers, wakes exactly these and leaves
`max(val, 0)`. -/
theorem sem_accounting (v : Int) (hv : 0 ≤ v) (s : SemState) (h : Reachable v s) :
    (s.sem.sleeplist.length : Int) = max 0 (-s.sem.val) ∧
    (∀ p ∈ s.sem.sleeplist, s.Waiting p) ∧
    (s.sem.sleeplist.Pairwise fun p q => s.arrival q < s.arrival p) ∧
    v + s.posts = s.takes + max s.sem.val 0 ∧
    (v + s.posts < INT_MAX →
      (∃ s', s.step .post = .ok s' ∧
        ((s.sem.sleeplist = [] ∧ max s'.sem.val 0 = max s.sem.val 0 + 1 ∧
            s'.sem.sleeplist = [] ∧ s'.procs = s.procs) ∨
          (∃ rest p, s.sem.sleeplist = rest ++ [p] ∧ (∀ q ∈ rest, s.arrival p < s.arrival q) ∧
            max s'.sem.val 0 = max s.sem.val 0 ∧ s'.sem.sleeplist = rest ∧
            s'.Granted p ∧ ∀ q ≠ p, s'.procs q = s.procs q))) ∧
      (∀ a, s.step a ≠ .error .panic) ∧
      (∃ s' ret woken, s.sem.postAllSem = some (s'.sem, ret, woken) ∧ s.step .postAll = .ok s' ∧
        ret = s.sem.sleeplist.length ∧ s'.sem = ⟨max s.sem.val 0, []⟩ ∧
        (∀ p ∈ s.sem.sleeplist, s'.Granted p) ∧
        ∀ p, p ∉ s.sem.sleeplist → s'.procs p = s.procs p)) := by
  have hi := h.inv hv
  refine ⟨hi.wf, fun p hp => (hi.linked p).mp hp, hi.order, hi.account, fun hmax => ?_⟩
  have hrange := hi.in_range hmax
  refine ⟨?_, hi.no_panic hrange, ?_⟩
  · rcases hi.post_cases hrange with ⟨hnil, hv0, he⟩ | ⟨rest, p, hl, hneg, he⟩
    · exact ⟨_, he, Or.inl ⟨hnil, by dsimp only; omega, rfl, rfl⟩⟩
    have hord := hi.order
    rw [hl, pairwise_append] at hord
    have hw : s.Waiting p := (hi.linked p).mp (by simp [hl])
    exact ⟨_, he, Or.inr ⟨rest, p, hl,
      fun q hq => hord.2.2 q hq p (mem_singleton.mpr rfl), by dsimp only; omega, rfl,
      granted_of_mem h.alive (mem_singleton.mpr rfl : p ∈ [p]) hw,
      fun q hq => grant_ne _ hq⟩⟩
  · refine ⟨_, _, _, postAllSem_eq hi.wf, hi.postAll_eq hrange, rfl, rfl, fun p hp => ?_,
      fun p hp => ?_⟩
    · exact granted_of_mem h.alive (mem_reverse.mpr hp) ((hi.linked p).mp hp)
    · exact foldl_grant_ne _ _ fun hm => hp (mem_reverse.mp hm)

/-- A semaphore with value `v` and processes that all run. -/
def start (v : Int) : SemState where
  sem := .initSem v
  procs := fun _ => ⟨⟨false, .RUNNING⟩, none⟩
  clock := 0
  posts := 0
  takes := 0

/-- Three waits on one token, of which two sleep, and an alert of the older
sleeper. -/
theorem sem_accounting_two_sleepers :
    ∃ s, Reachable 1 s ∧ s.sem = ⟨-2, [2, 1]⟩ ∧ (s.procs 1).proc.awake = true ∧
      (1 : Int) + s.posts = s.takes + max s.sem.val 0 ∧ ∀ a, s.step a ≠ .error .panic := by
  have hinit : Init 1 (start 1) := ⟨rfl, fun _ => rfl, rfl, rfl, rfl⟩
  obtain ⟨s, hs, hq⟩ := Runs.Reach.of_execTest hinit
    (show Runs.execTest step (start 1)
      [.wait 0 true false, .wait 1 true false, .wait 2 false false, .alert 1, .alert 2]
      (fun s => s.sem = ⟨-2, [2, 1]⟩ ∧ (s.procs 1).proc.awake ∧ s.posts = 0) = true by decide)
  obtain ⟨hsem, hawake, hposts⟩ := of_decide_eq_true hq
  obtain ⟨-, -, -, hacc, hpost⟩ := sem_accounting 1 (by decide) s hs
  exact ⟨s, hs, hsem, hawake, hacc, (hpost (by rw [hposts]; decide)).2.1⟩

/-- A post to a semaphore with `INT_MAX` tokens fails the assertion of `_post_sem`. -/
theorem post_overflows : ∃ s, Reachable INT_MAX s ∧ s.step .post = .error .panic :=
  ⟨start INT_MAX, .init ⟨rfl, fun _ => rfl, rfl, rfl, rfl⟩, rfl⟩

end SemState

end OsKernel
