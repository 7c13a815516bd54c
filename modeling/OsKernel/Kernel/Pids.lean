import OsKernel.Kernel.Reparent

/-!
# Process ids

`pid_get`, `pid_reuse` and `kill` of `kernel/proc.c` on the process tree.  `init_proc` takes an id
and the `wait` that cleans up a child gives its id back, both with `plock`.  The free ids are the
list `freepid`, the first one at its head.

The ids in use and the free ones are those that have been given out, each once, as long as only
processes without children exit.  A list that `exit` has spliced may still lead to a child that has
been cleaned up, and a later `wait` cleans it up again.

`kill` searches the tree with a stack of its own, which has room for 128 processes.
-/

namespace OsKernel

open Function TreeNode List

structure PidTree where
  tree : ProcTree
  pid : Nat → Nat
  nextPid : Nat
  freepid : List Nat

namespace PidTree

variable (s : PidTree)

/-- `p->pid = pid_get(&pmanager)`. -/
def pidGet (p : Nat) : PidTree :=
  match s.freepid with
  | [] => { s with pid := update s.pid p s.nextPid, nextPid := s.nextPid + 1 }
  | id :: rest => { s with pid := update s.pid p id, freepid := rest }

def pidReuse (pid : Nat) : PidTree := { s with freepid := pid :: s.freepid }

/-- The child that `wait` of `p` cleans up. -/
def znode (p : Nat) : Option Nat :=
  if emptyList s.tree.links (children p) then none
  else (s.tree.findZombie (children p) s.tree.fuel (s.tree.links.next (children p))).join

def step (a : TreeAct) : Except Runs.Stop PidTree :=
  match s.tree.step a with
  | .error e => .error e
  | .ok t =>
    match a with
    | .createProc p => .ok { s.pidGet p with tree := t }
    | .wait p =>
      match s.znode p with
      | some c => .ok { s.pidReuse (s.pid c) with tree := t }
      | none => .ok { s with tree := t }
    | .setParentToThis _ _ | .startProc _ | .exit _ => .ok { s with tree := t }

/-- After `init_kproc`, which has given the id `0` to `root_proc`. -/
def Init : Prop :=
  s.tree.Init ∧ s.pid rootProc = 0 ∧ s.nextPid = 1 ∧ s.freepid = []

abbrev ExitsChildless (a : TreeAct) : Prop := s.tree.ExitsChildless a

/-- The ids of the processes and the free ids are those below `next_pid`, each once. -/
def Partition : Prop :=
  (s.tree.live.map s.pid ++ s.freepid).Perm (List.range s.nextPid)

variable {s s' : PidTree} {kids : Nat → List Nat} {t : ProcTree} {a : TreeAct} {p c : Nat}

theorem Partition.create (h : s.Partition) (hp : p ∉ s.tree.live) (ht : t.live = p :: s.tree.live) :
    Partition { s.pidGet p with tree := t } := by
  have hmap : ∀ x, s.tree.live.map (update s.pid p x) = s.tree.live.map s.pid := fun x =>
    map_congr_left fun q hq => update_of_ne (ne_of_mem_of_not_mem hq hp) _ _
  rw [Partition] at h ⊢
  rw [pidGet]
  cases hfree : s.freepid with
  | nil =>
    rw [hfree, append_nil] at h
    simp only [ht, map_cons, update_self, hmap, append_nil, range_succ]
    exact (h.cons _).trans (perm_append_singleton _ _).symm
  | cons id rest =>
    rw [hfree] at h
    simp only [ht, map_cons, update_self, hmap, cons_append]
    exact perm_middle.symm.trans h

theorem Partition.reap (h : s.Partition) (hc : c ∈ s.tree.live) (ht : t.live = s.tree.live.erase c) :
    Partition { s.pidReuse (s.pid c) with tree := t } := by
  have hlive := (perm_cons_erase hc).map s.pid
  rw [Partition] at h ⊢
  simp only [pidReuse, ht]
  exact perm_middle.trans ((hlive.append_right s.freepid).symm.trans h)

theorem Partition.step (h : s.Partition) (hwf : s.tree.WF kids) (hs : s.step a = .ok s') :
    s'.Partition := by
  rw [PidTree.step] at hs
  split at hs
  · cases hs
  next t ht =>
    cases a with
    | createProc p =>
      cases hs
      rw [ProcTree.step] at ht
      split at ht
      · cases ht
      next hp =>
        cases ht
        exact h.create hp rfl
    | setParentToThis this p =>
      cases hs
      obtain ⟨-, ⟨⟩⟩ := Runs.guard_ok ht
      exact h
    | startProc p =>
      cases hs
      obtain ⟨-, ⟨⟩⟩ := Runs.guard_ok ht
      rw [Partition]
      split <;> exact h
    | wait p =>
      obtain ⟨hc, ht⟩ := Runs.guard_ok ht
      by_cases hempty : emptyList s.tree.links (children p) = true
      · rw [if_pos hempty] at ht
        simp only [znode, if_pos hempty] at hs
        cases ht
        cases hs
        exact h
      rw [if_neg hempty, hwf.findZombie_eq hc.1] at ht
      simp only [znode, if_neg hempty, hwf.findZombie_eq hc.1, Option.join_some] at hs
      cases hfind : (kids p).find? fun c => s.tree.state c = .ZOMBIE with
      | none =>
        rw [hfind] at hs ht
        cases ht
        cases hs
        exact h
      | some c =>
        rw [hfind] at hs ht
        cases ht
        cases hs
        exact h.reap ((hwf.mem_kids p hc.1 c).mp (mem_of_find?_eq_some hfind)).1 rfl
    | exit p =>
      cases hs
      obtain ⟨-, ht⟩ := Runs.guard_ok ht
      split at ht
      · cases ht
      · split at ht <;> cases ht
        exact h

theorem Partition.init (h : Init s) : s.Partition := by
  obtain ⟨⟨hlive, -⟩, hpid, hnext, hfree⟩ := h
  rw [Partition, hlive, hnext, hfree, map_singleton, hpid]
  exact .refl _

theorem step_tree (hs : s.step a = .ok s') : s.tree.step a = .ok s'.tree := by
  rw [PidTree.step] at hs
  split at hs
  · cases hs
  next t ht =>
    rw [ht]
    split at hs
    · cases hs; rfl
    · split at hs <;> cases hs <;> rfl
    all_goals cases hs; rfl

theorem wf_partition (h : Runs.Reach step ExitsChildless Init s) :
    (∃ kids, s.tree.WF kids) ∧ s.Partition :=
  h.invariant (I := fun s => (∃ kids, s.tree.WF kids) ∧ s.Partition)
    (fun _ hs => ⟨⟨_, .init hs.1⟩, .init hs⟩)
    fun _ _ _ ⟨⟨_, hwf⟩, hi⟩ hok hs => ⟨hwf.step hok (step_tree hs), hi.step hwf hs⟩

end PidTree

/-- In every run in which only processes without children exit, the ids of the processes that have
been initialised and not cleaned up, followed by the free ids, are a permutation of the numbers below
`next_pid`: all are different, none is both in use and free, and none is missing. -/
theorem pids_partition {s : PidTree} (h : Runs.Reach PidTree.step PidTree.ExitsChildless PidTree.Init s) :
    (s.tree.live.map s.pid ++ s.freepid).Perm (List.range s.nextPid) :=
  (PidTree.wf_partition h).2

namespace PidTree

def start : PidTree := ⟨ProcTree.start, fun _ => 0, 1, []⟩

theorem start_init : start.Init := ⟨ProcTree.start_init, rfl, rfl, rfl⟩

theorem reach_childless {a : List TreeAct} {q : PidTree → Bool} (h : Runs.execTest
      (Runs.guarded step (fun s b => decide (s.tree.ExitsChildless b)) .disabled) start a q = true) :
    ∃ s, Runs.Reach step ExitsChildless Init s ∧ q s = true :=
  Runs.Reach.of_guardedTest start_init h

/-- Process 1 is cleaned up, and the next process gets its id. -/
theorem pids_partition_reused : ∃ s : PidTree, s.tree.live = [3, 2, 0] ∧ s.pid 3 = 1 ∧
    (s.tree.live.map s.pid ++ s.freepid).Perm (List.range s.nextPid) := by
  obtain ⟨s, hs, hq⟩ := reach_childless
    (a := [.createProc 1, .startProc 1, .createProc 2, .exit 1, .wait 0, .createProc 3])
    (q := fun s => s.tree.live = [3, 2, 0] ∧ s.pid 3 = 1) (by decide)
  obtain ⟨hlive, hpid⟩ := of_decide_eq_true hq
  exact ⟨s, hlive, hpid, pids_partition hs⟩

/-- Process 1 has the child 2 and process 3 the child 4.  After the exit of 1 and of 2 the list of
`root_proc` still leads from 3 to 2, and after the exit of 3 from there to 4: when 4 exits, `wait`
finds 2 once more. -/
theorem pid_freed_twice : ∃ s, Runs.Reach step Runs.always Init s ∧ s.freepid = [3, 1, 3, 2] := by
  obtain ⟨s, hs, hq⟩ := Runs.Reach.of_execTest start_init
    (show Runs.execTest step start
      [.createProc 3, .startProc 3, .createProc 1, .startProc 1, .createProc 2,
        .setParentToThis 1 2, .startProc 2, .createProc 4, .setParentToThis 3 4, .startProc 4,
        .exit 1, .wait 0, .exit 2, .wait 0, .exit 3, .wait 0, .exit 4, .wait 0]
      (fun s => s.freepid = [3, 1, 3, 2]) = true by decide)
  exact ⟨s, hs, of_decide_eq_true hq⟩

/-! ## `kill` -/

/-- The processes that a path of children leads to from `root_proc`. -/
inductive InTree (t : ProcTree) : Nat → Prop
  | root : InTree t rootProc
  | child {p q : Nat} :
      InTree t q → p ∈ t.live → p ≠ rootProc → t.parent p = some q → InTree t p

section

variable (s : PidTree) (pid : Int)

/-- A pass of the loop over the children of a process: `stack` has 128 entries. -/
def push (list : TreeNode) (stack : List Nat) (node : TreeNode) : Except Runs.Stop (List Nat) :=
  if node = list then .ok stack
  else
    match node with
    | ptnode child => if stack.length < 128 then .ok (child :: stack) else .error .panic
    | children _ => .error .disabled

abbrev Target (p : Nat) : Prop := (s.pid p : Int) = pid ∧ s.tree.state p ≠ .UNUSED

/-- The search of `kill`, as long as the stack is not empty. -/
def killLoop : Nat → List Nat → Except Runs.Stop (Option Nat)
  | _, [] => .ok none
  | 0, _ => .error .disabled
  | fuel + 1, current :: stack =>
    if s.Target pid current then .ok (some current)
    else
      let list := children current
      match forInList s.tree.links list s.tree.fuel (s.tree.links.next list) with
      | none => .error .disabled
      | some nodes =>
        match nodes.foldlM (push list) stack with
        | .ok stack => killLoop fuel stack
        | .error e => .error e

def kill (procs : Nat → Proc) : Except Runs.Stop (Int × (Nat → Proc)) :=
  match s.killLoop pid s.tree.fuel [rootProc] with
  | .ok (some p) => .ok (0, update procs p (procs p).kill)
  | .ok none => .ok (-1, procs)
  | .error e => .error e

/-- The process with the id is not among `q` and the processes below it. -/
def Absent (kids : Nat → List Nat) (q : Nat) : Prop :=
  ∀ p, Relation.ReflTransGen (fun q p => p ∈ kids q) q p → ¬ s.Target pid p

/-- The search of `q` and the processes below it, with `n` processes on the stack under `q`, needs
more than the 128 entries.  While it is below the child `c` of `q`, the children of `q` in front of
`c` wait on the stack; those behind `c` have been searched before it. -/
inductive Overflows (kids : Nat → List Nat) : Nat → Nat → Prop
  | here {q n : Nat} : ¬ s.Target pid q → 128 < n + (kids q).length → Overflows kids q n
  | child {q n c : Nat} {xs ys : List Nat} : ¬ s.Target pid q → kids q = xs ++ c :: ys →
      (∀ y ∈ ys, s.Absent pid kids y) → Overflows kids c (n + xs.length) → Overflows kids q n

/-- The search of what is on the stack needs more than the 128 entries. -/
def StackOverflows (kids : Nat → List Nat) : List Nat → Prop
  | [] => False
  | c :: stack => s.Overflows pid kids c stack.length ∨
      s.Absent pid kids c ∧ StackOverflows kids stack

/-- What the search may end with: with at most 129 processes the stack does not overflow. -/
def Found : Except Runs.Stop (Option Nat) → Prop
  | .ok (some p) => InTree s.tree p ∧ s.Target pid p
  | .ok none => ∀ p, InTree s.tree p → ¬ s.Target pid p
  | .error e => e = .panic ∧ 129 < s.tree.live.length

/-- What has been visited and what is on the stack. -/
structure Searched (kids : Nat → List Nat) (V S : List Nat) : Prop where
  nodup : (V ++ S).Nodup
  inTree : ∀ p ∈ V ++ S, InTree s.tree p
  root : rootProc ∈ V ++ S
  parent : ∀ p ∈ V ++ S, p ≠ rootProc → ∃ q ∈ V, s.tree.parent p = some q
  kids : ∀ q ∈ V, ∀ p ∈ kids q, p ∈ V ++ S
  missed : ∀ q ∈ V, ¬ s.Target pid q

end

theorem push_kids {p : Nat} (xs : List Nat) {stack : List Nat} (hs : stack.length ≤ 128) :
    (xs.map ptnode ++ [children p]).foldlM (push (children p)) stack =
      if xs.length + stack.length ≤ 128 then .ok (xs.reverse ++ stack) else .error .panic := by
  induction xs generalizing stack with
  | nil => simp [push, hs]
  | cons c xs ih =>
    rw [map_cons, cons_append, foldlM_cons, push, if_neg nofun]
    split
    next hlt =>
      have hlt : (c :: stack).length ≤ 128 := hlt
      refine (ih hlt).trans ?_
      simp [Nat.succ_add_eq_add_succ]
    next hge =>
      rw [if_neg (by simp; omega)]
      rfl

section

variable {s : PidTree} {kids : Nat → List Nat} {pid : Int} {q n : Nat} {S : List Nat}

theorem absent_iff : s.Absent pid kids q ↔
    ¬ s.Target pid q ∧ ∀ c ∈ kids q, s.Absent pid kids c := by
  constructor
  · exact fun h => ⟨h q .refl, fun c hc p hp => h p (.head hc hp)⟩
  · rintro ⟨hq, hkids⟩ p hp
    rcases hp.cases_head with rfl | ⟨c, hc, hp⟩
    · exact hq
    · exact hkids c hc p hp

theorem overflows_iff (hq : ¬ s.Target pid q) : s.Overflows pid kids q n ↔
    128 < n + (kids q).length ∨ ∃ xs c ys, kids q = xs ++ c :: ys ∧
      (∀ y ∈ ys, s.Absent pid kids y) ∧ s.Overflows pid kids c (n + xs.length) := by
  constructor
  · rintro (⟨-, hfull⟩ | ⟨-, hk, hys, hc⟩)
    · exact .inl hfull
    · exact .inr ⟨_, _, _, hk, hys, hc⟩
  · rintro (hfull | ⟨xs, c, ys, hk, hys, hc⟩)
    · exact .here hq hfull
    · exact .child hq hk hys hc

/-- Children are taken from the stack in the order opposite to that of their list. -/
theorem stackOverflows_kids (ks : List Nat) : s.StackOverflows pid kids (ks.reverse ++ S) ↔
    (∃ xs c ys, ks = xs ++ c :: ys ∧ (∀ y ∈ ys, s.Absent pid kids y) ∧
      s.Overflows pid kids c (S.length + xs.length)) ∨
    (∀ y ∈ ks, s.Absent pid kids y) ∧ s.StackOverflows pid kids S := by
  induction ks using List.reverseRecOn with
  | nil => simp
  | append_singleton ks k ih =>
    rw [reverse_concat, cons_append, StackOverflows, ih]
    constructor
    · rintro (hover | ⟨hk, ⟨xs, c, ys, rfl, hys, hover⟩ | ⟨hks, hS⟩⟩)
      · refine .inl ⟨ks, k, [], rfl, by simp, ?_⟩
        rwa [length_append, length_reverse, Nat.add_comm] at hover
      · refine .inl ⟨xs, c, ys ++ [k], by simp, fun y hy => ?_, hover⟩
        rcases mem_append.mp hy with hy | hy
        · exact hys y hy
        · rwa [mem_singleton.mp hy]
      · exact .inr ⟨by simpa [or_imp, forall_and] using ⟨hks, hk⟩, hS⟩
    · rintro (⟨xs, c, ys, heq, hys, hover⟩ | ⟨hks, hS⟩)
      · rcases ys.eq_nil_or_concat with rfl | ⟨ys, y, rfl⟩
        · obtain ⟨rfl, rfl⟩ := append_singleton_inj.mp heq
          rw [length_append, length_reverse, Nat.add_comm]
          exact .inl hover
        · rw [concat_eq_append] at heq hys
          rw [← cons_append, ← append_assoc] at heq
          obtain ⟨rfl, rfl⟩ := append_singleton_inj.mp heq
          exact .inr ⟨hys k (by simp),
            .inl ⟨xs, c, ys, rfl, fun y hy => hys y (by simp [hy]), hover⟩⟩
      · exact .inr ⟨hks k (by simp), .inr ⟨fun y hy => hks y (by simp [hy]), hS⟩⟩

/-- A search that goes on from `q` overflows if it does so at a child of `q` or later. -/
theorem stackOverflows_visit (hq : ¬ s.Target pid q) (hfit : (kids q).length + S.length ≤ 128) :
    s.StackOverflows pid kids ((kids q).reverse ++ S) ↔ s.StackOverflows pid kids (q :: S) := by
  rw [stackOverflows_kids, StackOverflows, overflows_iff hq, absent_iff,
    or_iff_right (a := 128 < _) (by omega)]
  simp only [hq, not_false_eq_true, true_and]

end

section

variable {s : PidTree} {kids : Nat → List Nat} {pid : Int} {V S : List Nat} {p c fuel : Nat}
  (hwf : s.tree.WF kids)

include hwf

theorem InTree.live (h : InTree s.tree p) : p ∈ s.tree.live := by
  cases h with
  | root => exact hwf.root_mem
  | child _ hp => exact hp

theorem Searched.length_le (h : s.Searched pid kids V S) :
    V.length + S.length ≤ s.tree.live.length := by
  rw [← length_append]
  exact (h.nodup.subperm fun p hp => (h.inTree p hp).live hwf).length_le

/-- The process on top of the stack is not the one: its children replace it. -/
theorem Searched.visit (h : s.Searched pid kids V (c :: S))
    (hc : ¬ s.Target pid c) : s.Searched pid kids (c :: V) ((kids c).reverse ++ S) := by
  have hin := h.inTree c (by simp)
  have hlive := hin.live hwf
  have hkid : ∀ p ∈ kids c, _ := fun p => (hwf.mem_kids c hlive p).mp
  have hperm : (c :: V ++ ((kids c).reverse ++ S)).Perm (V ++ c :: S ++ kids c) :=
    perm_iff_count.mpr fun a => by simp [count_cons]; omega
  have hmem : ∀ p, _ ↔ p ∈ V ++ c :: S ∨ p ∈ kids c := fun p => hperm.mem_iff.trans mem_append
  refine ⟨hperm.nodup_iff.mpr (h.nodup.append ?_ fun p hp hk => ?_), fun p hp => ?_,
    (hmem _).mpr (.inl h.root), fun p hp hr => ?_,
    forall_mem_cons.mpr ⟨?_, fun q hq p hp => ?_⟩, forall_mem_cons.mpr ⟨hc, h.missed⟩⟩
  · exact (nodup_cons.mp (hwf.ring c hlive).nodup).2.of_map
  · -- a child of `c` is pushed when `c` is visited, and `c` has not been
    obtain ⟨q, hq, hpar⟩ := h.parent p hp (hkid p hk).2.1
    cases (hkid p hk).2.2.symm.trans hpar
    exact (nodup_append.mp h.nodup).2.2 c hq c (by simp) rfl
  · rcases (hmem p).mp hp with hp | hp
    · exact h.inTree p hp
    · exact hin.child (hkid p hp).1 (hkid p hp).2.1 (hkid p hp).2.2
  · rcases (hmem p).mp hp with hp | hp
    · exact (h.parent p hp hr).imp fun q hq => ⟨mem_cons_of_mem _ hq.1, hq.2⟩
    · exact ⟨c, mem_cons_self, (hkid p hp).2.2⟩
  · exact fun p hp => (hmem p).mpr (.inr hp)
  · exact (hmem p).mpr (.inl (h.kids q hq p hp))

theorem Searched.killLoop (h : s.Searched pid kids V S) (hS : S.length ≤ 128)
    (hf : s.tree.live.length < fuel + V.length) : s.Found pid (s.killLoop pid fuel S) ∧
      (s.killLoop pid fuel S = .error .panic ↔ s.StackOverflows pid kids S) := by
  have hlen := h.length_le hwf
  induction fuel generalizing V S with
  | zero => omega
  | succ fuel ih =>
    cases S with
    | nil =>
      refine ⟨fun p hp => h.missed p ?_, by simp [PidTree.killLoop, StackOverflows]⟩
      induction hp with
      | root => simpa using h.root
      | child hq hp hr hpar ih =>
        simpa using h.kids _ ih _ ((hwf.mem_kids _ (hq.live hwf) _).mpr ⟨hp, hr, hpar⟩)
    | cons c S =>
      have hin := h.inTree c (by simp)
      rw [length_cons] at hS
      rw [PidTree.killLoop]
      split
      next hc =>
        refine ⟨⟨hin, hc⟩, iff_of_false nofun ?_⟩
        -- the search ends at `c`, and what is under `c` is left
        rintro ((⟨hq, -⟩ | ⟨hq, -⟩) | ⟨habs, -⟩)
        · exact hq hc
        · exact hq hc
        · exact habs c .refl hc
      next hc =>
        have hv := h.visit hwf hc
        have hlen := hv.length_le hwf
        simp only [hwf.forInList_eq (hin.live hwf), push_kids (kids c) (Nat.le_of_succ_le hS)]
        by_cases hfit : (kids c).length + S.length ≤ 128
        · rw [if_pos hfit]
          have := ih hv (by simpa using hfit) (by simp; omega) hlen
          rwa [stackOverflows_visit hc hfit] at this
        · rw [if_neg hfit]
          simp only [length_cons, length_append, length_reverse] at hlen
          exact ⟨⟨rfl, by omega⟩, iff_of_true rfl (.inl (.here hc (by omega)))⟩

end

/-- On every well-formed tree with different ids `kill` leaves its stack if and only if the search
needs more than 128 entries, which takes more than 129 processes.  Otherwise it marks and alerts the
only started process in the tree that has the id and returns 0, or there is none and it returns -1
and changes nothing. -/
theorem kill_finds {s : PidTree} {kids : Nat → List Nat} (hwf : s.tree.WF kids)
    (hpid : (s.tree.live.map s.pid).Nodup) (pid : Int) (procs : Nat → Proc) :
    (s.kill pid procs = .error .panic ↔ s.Overflows pid kids rootProc 0) ∧
    (s.Overflows pid kids rootProc 0 → 129 < s.tree.live.length) ∧
    (¬ s.Overflows pid kids rootProc 0 →
      (∃ p, s.kill pid procs = .ok (0, update procs p (procs p).kill) ∧
        ∀ q, InTree s.tree q ∧ s.Target pid q ↔ q = p) ∨
      s.kill pid procs = .ok (-1, procs) ∧ ∀ q, InTree s.tree q → ¬ s.Target pid q) := by
  have hsearch : s.Found pid (s.killLoop pid s.tree.fuel [rootProc]) ∧
      (s.killLoop pid s.tree.fuel [rootProc] = .error .panic ↔
        s.StackOverflows pid kids [rootProc]) :=
    Searched.killLoop (V := []) hwf
      ⟨by simp, by simp [InTree.root], by simp, by simp, nofun, nofun⟩ (by decide)
      (Nat.lt_succ_self _)
  obtain ⟨hfound, hover⟩ := hsearch
  rw [StackOverflows, StackOverflows, and_false, or_false] at hover
  have hkill : s.kill pid procs = .error .panic ↔
      s.killLoop pid s.tree.fuel [rootProc] = .error .panic := by
    rw [kill]
    split <;> simp_all
  refine ⟨hkill.trans hover, fun ho => ?_, fun ho => ?_⟩
  · rw [hover.mpr ho] at hfound
    exact hfound.2
  rw [kill]
  split
  next p hs =>
    rw [hs] at hfound
    obtain ⟨hp, hm⟩ := hfound
    refine .inl ⟨p, rfl, fun q => ⟨fun ⟨hq, hmq⟩ => ?_, ?_⟩⟩
    · exact inj_on_of_nodup_map hpid (hq.live hwf) (hp.live hwf)
        (Int.natCast_inj.mp (hmq.1.trans hm.1.symm))
    · rintro rfl
      exact ⟨hp, hm⟩
  next hs =>
    rw [hs] at hfound
    exact .inr ⟨rfl, hfound⟩
  next e hs =>
    rw [hs] at hfound
    exact absurd (hover.mp (hs.trans (by rw [hfound.1]))) ho

/-- Process 2 is a child of process 1. -/
theorem kill_finds_grandchild : ∃ s : PidTree, s.tree.parent 2 = some 1 ∧ ∀ procs,
    s.kill 2 procs = .ok (0, update procs 2 (procs 2).kill) := by
  obtain ⟨s, hs, hq⟩ := reach_childless
    (a := [.createProc 1, .startProc 1, .createProc 2, .setParentToThis 1 2, .startProc 2])
    (q := fun s => s.tree.live = [2, 1, 0] ∧ s.tree.parent 1 = some 0 ∧ s.tree.parent 2 = some 1 ∧
      s.Target 2 2) (by decide)
  obtain ⟨hlive, hone, htwo, hm⟩ := of_decide_eq_true hq
  obtain ⟨⟨kids, hwf⟩, hpart⟩ := wf_partition hs
  have hin : InTree s.tree 2 := .child (.child .root (by simp [hlive]) (by decide) hone)
    (by simp [hlive]) (by decide) htwo
  refine ⟨s, htwo, fun procs => ?_⟩
  have hnd := (nodup_append.mp (hpart.nodup_iff.mpr nodup_range)).1
  obtain ⟨-, hlen, hfinds⟩ := kill_finds hwf hnd 2 procs
  rcases hfinds fun ho => by simpa [hlive] using hlen ho with ⟨p, hk, hp⟩ | ⟨-, hnone⟩
  · rwa [(hp 2).mp ⟨hin, hm⟩]
  · exact absurd hm (hnone 2 hin)

/-- `root_proc` with 129 children: the last one is written behind the end of the stack. -/
theorem kill_overflows : ∃ s, Runs.Reach step ExitsChildless Init s ∧
    ∀ procs, s.kill 1 procs = .error .panic := by
  obtain ⟨s, hs, hq⟩ := reach_childless
    (a := (List.range 129).flatMap fun n => [.createProc (n + 1), .startProc (n + 1)])
    (q := fun s => s.killLoop 1 s.tree.fuel [rootProc] = .error .panic) (by decide +kernel)
  refine ⟨s, hs, fun procs => ?_⟩
  rw [kill, of_decide_eq_true hq]

end PidTree

end OsKernel
