import OsKernel.Kernel.ProcTree
import Mathlib.Data.List.Perm.Subperm

/-!
# Exit and the tree

The loops over a children list and the list splice of `exit`.

On a well-formed tree every loop ends after the children of its process
(`findZombie_eq`, `reparent_eq`).  The splice itself is wrong: the four
assignments move the children to the end of the list of `root_proc`, but the
`_detach_from_list` that follows still finds the first and the last child as the
neighbours of the old head and links the last child back to the first
(`transferChildren_eq`).  So the list of `root_proc` does not return to its head once
a process with children has exited (`WF.exit_looped`), and the tree stays well
formed in the runs in which only processes without children exit.
-/

namespace OsKernel

variable {node : TreeNode} {xs : List Nat}

namespace ProcTree

open TreeNode Function

variable {t t' : ProcTree} {kids : Nat → List Nat} {p : Nat}

/-! ## The loops -/

theorem findZombie_of_chain (hc : (xs.map ptnode ++ [children p]).IsChain t.links.Linked ∧
      (xs.map ptnode ++ [children p]).head? = some node) {fuel : Nat} (hf : xs.length < fuel) :
    t.findZombie (children p) fuel node = some (xs.find? fun c => t.state c = .ZOMBIE) := by
  induction xs generalizing node fuel with
  | nil =>
    obtain ⟨k, rfl⟩ := Nat.exists_eq_add_of_lt hf
    have : node = children p := by simpa using hc.2.symm
    simp [findZombie, this]
  | cons c xs ih =>
    obtain ⟨k, rfl⟩ := Nat.exists_eq_add_of_lt hf
    obtain rfl : node = ptnode c := by simpa using hc.2.symm
    simp only [findZombie, reduceCtorEq, ↓reduceIte]
    by_cases hz : t.state c = .ZOMBIE
    · simp [hz]
    · rw [if_neg hz, ih (Links.chain_step hc.1) (by simp; omega),
        List.find?_cons_of_neg (by simpa using hz)]

theorem reparent_of_chain (hc : (xs.map ptnode ++ [children p]).IsChain t.links.Linked ∧
      (xs.map ptnode ++ [children p]).head? = some node) {fuel : Nat} (hf : xs.length < fuel)
    (parent : Nat → Option Nat) :
    t.reparent (children p) fuel node parent =
      some (xs.foldl (fun parent c => update parent c (some rootProc)) parent) := by
  induction xs generalizing node fuel parent with
  | nil =>
    obtain ⟨k, rfl⟩ := Nat.exists_eq_add_of_lt hf
    have : node = children p := by simpa using hc.2.symm
    simp [reparent, this]
  | cons c xs ih =>
    obtain ⟨k, rfl⟩ := Nat.exists_eq_add_of_lt hf
    obtain rfl : node = ptnode c := by simpa using hc.2.symm
    simp only [reparent, reduceCtorEq, ↓reduceIte]
    rw [ih (Links.chain_step hc.1) (by simp; omega), List.foldl_cons]

section

variable (h : t.WF kids) (hp : p ∈ t.live)

include h hp

theorem WF.length_kids : (kids p).length < t.fuel := by
  have hnd : (kids p).Nodup := (List.nodup_cons.mp (h.ring p hp).nodup).2.of_map
  have hsub : kids p ⊆ t.live := fun c hc => ((h.mem_kids p hp c).mp hc).1
  exact Nat.lt_succ_of_le (hnd.subperm hsub).length_le

theorem WF.findZombie_eq : t.findZombie (children p) t.fuel (t.links.next (children p)) =
      some ((kids p).find? fun c => t.state c = .ZOMBIE) :=
  findZombie_of_chain (Links.chain_step (h.ring p hp).chain) (h.length_kids hp)

theorem WF.reparent_eq : t.reparent (children p) t.fuel (t.links.next (children p)) t.parent =
      some ((kids p).foldl (fun parent c => update parent c (some rootProc)) t.parent) :=
  reparent_of_chain (Links.chain_step (h.ring p hp).chain) (h.length_kids hp) t.parent

/-- A loop `_for_in_list` over a children list, as in `wait` and `kill`, passes
the children and ends. -/
theorem WF.forInList_eq : forInList t.links (children p) t.fuel (t.links.next (children p)) =
      some ((kids p).map ptnode ++ [children p]) :=
  ring_forInList (h.ring p hp) (by simpa using h.length_kids hp)

theorem WF.emptyList_iff : emptyList t.links (children p) = true ↔ kids p = [] := by
  simp [emptyList, (h.ring p hp).next_eq_head]

end

/-! ## Exit of a process without children -/

def ExitsChildless (t : ProcTree) (a : TreeAct) : Prop :=
  ∀ p, a = .exit p → emptyList t.links (children p) = true

instance (t : ProcTree) : ∀ a, Decidable (t.ExitsChildless a)
  | .exit p => decidable_of_iff (emptyList t.links (children p) = true)
      ⟨fun h _ he => TreeAct.exit.inj he ▸ h, fun h => h p rfl⟩
  | .createProc _ | .setParentToThis _ _ | .startProc _ | .wait _ => .isTrue nofun

theorem WF.exit_eq (h : t.WF kids) (hp : p ∈ t.live) (hs : t.state p = .RUNNABLE)
    (hr : p ≠ rootProc) (hk : kids p = []) :
    t.step (.exit p) = .ok { t with state := update t.state p .ZOMBIE } := by
  have hempty := (h.emptyList_iff hp).mpr hk
  simp only [step, if_pos (And.intro hp hs), if_neg hr, h.reparent_eq hp, hk, List.foldl_nil,
    transferChildren, hempty, if_true]

theorem WF.step {a : TreeAct} (h : t.WF kids) (hok : t.ExitsChildless a) (hs : t.step a = .ok t') :
    ∃ kids', t'.WF kids' := by
  cases a with
  | createProc p =>
    simp only [ProcTree.step] at hs
    split at hs
    · cases hs
    next hp =>
      cases hs
      exact ⟨_, h.create hp⟩
  | setParentToThis this p =>
    obtain ⟨hc, ⟨⟩⟩ := Runs.guard_ok hs
    exact ⟨_, h.attach hc.1 (by simp [hc.2.1]) hc.2.2.1 hc.2.2.2.2⟩
  | startProc p =>
    obtain ⟨hc, ⟨⟩⟩ := Runs.guard_ok hs
    split
    next hnone => exact ⟨_, (h.attach h.root_mem h.root_state hc.1 hnone).setState p .RUNNABLE nofun⟩
    next => exact ⟨_, h.setState p .RUNNABLE nofun⟩
  | wait p =>
    obtain ⟨hc, hs⟩ := Runs.guard_ok hs
    split at hs
    · cases hs
      exact ⟨_, h⟩
    rw [h.findZombie_eq hc.1] at hs
    split at hs
    next c hf =>
      cases hs
      have hf := Option.some_inj.mp hf
      exact h.reap hc.1 (List.mem_of_find?_eq_some hf)
        (by simpa using List.find?_some hf)
    next =>
      cases hs
      exact ⟨_, h⟩
    next => cases hs
  | exit p =>
    have hempty := hok p rfl
    by_cases hc : p ∈ t.live ∧ t.state p = .RUNNABLE
    · by_cases hr : p = rootProc
      · simp [ProcTree.step, hr, hr ▸ hc.1, hr ▸ hc.2] at hs
      · have hk := (h.emptyList_iff hc.1).mp hempty
        rw [h.exit_eq hc.1 hc.2 hr hk] at hs
        cases hs
        exact ⟨kids, h.setState p .ZOMBIE fun _ => ⟨hk, hr⟩⟩
    · simp [ProcTree.step, hc] at hs

/-! ## Exit of a process with children -/

section

variable {l : Links TreeNode} {as : List Nat} {ns : List TreeNode} (hp : p ≠ rootProc)
  (hroot : l.Ring (children rootProc) (as.map ptnode)) (hring : l.Ring (children p) ns)
  (hns : ns ≠ []) (hd : ∀ z ∈ children p :: ns, z ∉ children rootProc :: as.map ptnode)

include hp hroot hring hns hd

/-- Of the four assignments of `exit` only those to the list of `root_proc` are left after the
`_detach_from_list`. -/
theorem transferChildren_eq (y : TreeNode) :
    (transferChildren l p).next y = (if y = l.prev (children rootProc) then l.next (children p)
      else (detachFromList l (children p)).1.next y) ∧
    (transferChildren l p).prev y = (if y = children rootProc then l.prev (children p)
      else (detachFromList l (children p)).1.prev y) := by
  have hne : children p ≠ children rootProc := by simpa using hp
  have hempty : emptyList l (children p) = false := by
    simpa [emptyList, hring.next_eq_head] using hns
  have hfirst : children p ≠ l.next (children p) := fun e => hns (hring.next_eq_head.mp e.symm)
  have hlast : children p ≠ l.prev (children p) := fun e => hns (hring.prev_eq_head.mp e.symm)
  have hroot' : children rootProc ≠ l.next (children p) := fun e =>
    hd _ hring.next_mem (e ▸ List.mem_cons_self)
  have hend : children p ≠ l.prev (children rootProc) := fun e =>
    hd _ List.mem_cons_self (e ▸ hroot.prev_mem)
  have hends : l.prev (children rootProc) ≠ l.prev (children p) := fun e =>
    hd _ hring.prev_mem (e ▸ hroot.prev_mem)
  rw [transferChildren, hempty]
  simp only [Bool.false_eq_true, next_detachFromList, prev_detachFromList, Links.next_setNext,
    Links.prev_setPrev, Links.prev_setNext, Links.next_setPrev, hne, hfirst, hlast, hroot', hend,
    ↓reduceIte]
  constructor
  · by_cases hy : y = l.prev (children rootProc)
    · simp [hy, hends, hend.symm]
    · by_cases hy' : y = l.prev (children p) <;> simp [hy, hy', hends.symm]
  · by_cases hy : y = children rootProc
    · simp [hy, hroot', hne.symm]
    · by_cases hy' : y = l.next (children p) <;> simp [hy, hy', hroot'.symm]

end

theorem foldl_update_root {c : Nat} (parent : Nat → Option Nat)
    (h : c ∈ xs ∨ parent c = some rootProc) :
    xs.foldl (fun parent c => update parent c (some rootProc)) parent c = some rootProc := by
  induction xs generalizing parent with
  | nil => exact h.resolve_left List.not_mem_nil
  | cons x xs ih =>
    refine ih _ ?_
    obtain rfl | hcx := eq_or_ne c x
    · exact .inr (update_self ..)
    · refine h.imp (fun hm => (List.mem_cons.mp hm).resolve_left hcx) fun hc => ?_
      exact (update_of_ne hcx ..).trans hc

/-- What the exit of a process with the children `first :: rest` leaves: a walk from the head of
the list of `root_proc`, forwards or backwards, comes to the children and does not return, since they
are a circular list of their own. -/
structure Looped (t' : ProcTree) (kids : Nat → List Nat) (p first : Nat) (rest : List Nat) :
    Prop where
  enters : (children rootProc :: ((kids rootProc).map ptnode ++ [ptnode first])).IsChain
    fun x y => t'.links.next x = y
  loop : t'.links.Ring (ptnode first) (rest.map ptnode)
  back : t'.links.prev (children rootProc) ∈ (first :: rest).map ptnode
  own : t'.links.Ring (children p) []
  parents : ∀ c ∈ kids p, t'.parent c = some rootProc

variable {first : Nat} {rest : List Nat}

/-- A loop over the list of `root_proc` does not end. -/
theorem Looped.forInList_none (h : t'.Looped kids p first rest) (fuel : Nat) :
    forInList t'.links (children rootProc) fuel (t'.links.next (children rootProc)) = none := by
  have hsucc : ∀ {x : TreeNode} {ys : List TreeNode},
      (x :: (ys ++ [ptnode first])).IsChain (fun x y => t'.links.next x = y) →
      ∀ y ∈ x :: ys, t'.links.next y ∈ ys ++ [ptnode first] := by
    intro x ys hc
    induction ys generalizing x with
    | nil => simpa using hc
    | cons z ys ih =>
      rw [List.cons_append, List.isChain_cons_cons] at hc
      intro y hy
      obtain rfl | hy := List.mem_cons.mp hy
      · simp [hc.1]
      · exact List.mem_cons_of_mem _ (ih hc.2 y hy)
  have hnext := hsucc h.enters
  refine forInList_of_closed (S := fun z =>
    z ∈ (kids rootProc).map ptnode ∨ z ∈ ptnode first :: rest.map ptnode) ?_ (by simp) ?_ fuel
  · rintro z (hz | hz)
    · have := hnext z (List.mem_cons_of_mem _ hz)
      simp only [List.mem_append, List.mem_cons, List.not_mem_nil, or_false] at this ⊢
      tauto
    · exact .inr (h.loop.next_mem_of_mem hz)
  · have := hnext _ List.mem_cons_self
    simp only [List.mem_append, List.mem_cons, List.not_mem_nil, or_false] at this ⊢
    tauto

theorem Looped.not_ring (h : t'.Looped kids p first rest) (ns : List TreeNode) :
    ¬ t'.links.Ring (children rootProc) ns := fun hr => by
  have hloop := ring_forInList hr (Nat.lt_succ_self _)
  rw [h.forInList_none] at hloop
  cases hloop

theorem WF.exit_looped (h : t.WF kids) (hp : p ∈ t.live) (hs : t.state p = .RUNNABLE)
    (hr : p ≠ rootProc) (hk : kids p = first :: rest) :
    ∃ t', t.step (.exit p) = .ok t' ∧ t'.Looped kids p first rest := by
  have hring := h.ring p hp
  rw [hk, List.map_cons] at hring
  have hd : ∀ z ∈ children p :: ptnode first :: rest.map ptnode,
      z ∉ children rootProc :: (kids rootProc).map ptnode := fun z hz =>
    h.disjoint hp h.root_mem hr (by rwa [hk])
  have hlinks := transferChildren_eq hr (h.ring _ h.root_mem) hring (by simp) hd
  have hfirst : t.links.next (children p) = ptnode first :=
    (List.isChain_cons_cons.mp hring.chain).1.1
  have hstep : t.step (.exit p) = .ok { t with
      parent := (kids p).foldl (fun parent c => update parent c (some rootProc)) t.parent
      links := transferChildren t.links p
      state := update t.state p .ZOMBIE } := by
    rw [ProcTree.step, if_pos ⟨hp, hs⟩, if_neg hr, h.reparent_eq hp]
  refine ⟨_, hstep, ?_, ?_, ?_, ?_, fun c hc => foldl_update_root _ (.inl hc)⟩
  · refine (h.ring _ h.root_mem).redirect ?_ fun y hy hne => ?_
    · rw [(hlinks _).1, if_pos rfl, hfirst]
    · -- the nodes of the other list are not written
      have hyp : y ≠ children p := fun e => hd _ List.mem_cons_self (e ▸ hy)
      have hyl : y ≠ t.links.prev (children p) := fun e => hd _ hring.prev_mem (e ▸ hy)
      rw [(hlinks y).1, if_neg hne, next_detachFromList, if_neg hyp, if_neg hyl]
  · refine (ring_after_detached hring).congr (fun y hy => ?_) fun y hy => ?_
    · rw [(hlinks y).1, if_neg]
      exact fun e => hd y (List.mem_cons_of_mem _ hy) (e ▸ (h.ring _ h.root_mem).prev_mem)
    · rw [(hlinks y).2, if_neg]
      exact fun e => hd y (List.mem_cons_of_mem _ hy) (e ▸ List.mem_cons_self)
  · rw [(hlinks _).2, if_pos rfl]
    refine (List.mem_cons.mp hring.prev_mem).resolve_left fun e => ?_
    simpa using hring.prev_eq_head.mp e
  · have hown : t.links.prev (children rootProc) ≠ children p := fun e =>
      hd _ List.mem_cons_self (e ▸ (h.ring _ h.root_mem).prev_mem)
    have hne : children p ≠ children rootProc := by simpa using hr
    rw [Links.ring_nil, (hlinks _).1, (hlinks _).2, if_neg hown.symm, if_neg hne]
    exact Links.ring_nil.mp ring_detached

/-! ## Runs -/

/-- The children list of `root_proc` after the exit of `p`: its former elements
followed by the children of `p`, in both directions; `p` has none left, and
`root_proc` is the parent of each. -/
structure Reparented (t' : ProcTree) (kids : Nat → List Nat) (p : Nat) : Prop where
  root : t'.links.Ring (children rootProc) ((kids rootProc ++ kids p).map ptnode)
  own : t'.links.Ring (children p) []
  parents : ∀ c ∈ kids p, t'.parent c = some rootProc

theorem WF.of_reach (h : Runs.Reach ProcTree.step ExitsChildless Init t) : ∃ kids, t.WF kids :=
  Runs.Reach.invariant (I := fun t => ∃ kids, t.WF kids) (fun _ ht => ⟨_, .init ht⟩)
    (fun _ _ _ ⟨_, hi⟩ hok hs => hi.step hok hs) h

/-- In every run in which only processes without children exit: every children
list is a circular list of the processes whose parent its owner is, and the loops of
`wait`, `kill` and `exit` over it end.  The next exit of a process `p` ends too, and
it leaves the children of `root_proc` and of `p` as they should be if and only if `p` has no
children; otherwise no loop over the list of `root_proc` ends any more. -/
theorem exit_reparents (t : ProcTree) (h : Runs.Reach ProcTree.step ExitsChildless Init t) :
    ∃ kids, t.WF kids ∧
      (∀ p ∈ t.live, forInList t.links (children p) t.fuel (t.links.next (children p)) =
            some ((kids p).map ptnode ++ [children p]) ∧
          t.findZombie (children p) t.fuel (t.links.next (children p)) =
            some ((kids p).find? fun c => t.state c = .ZOMBIE)) ∧
      ∀ p ∈ t.live, t.state p = .RUNNABLE → p ≠ rootProc → ∃ t', t.step (.exit p) = .ok t' ∧
        (t'.Reparented kids p ↔ t.ExitsChildless (.exit p)) ∧
        ∀ first rest, kids p = first :: rest → t'.Looped kids p first rest ∧
          ∀ fuel, forInList t'.links (children rootProc) fuel
            (t'.links.next (children rootProc)) = none := by
  obtain ⟨kids, hwf⟩ := WF.of_reach h
  refine ⟨kids, hwf, fun p hp => ⟨hwf.forInList_eq hp, hwf.findZombie_eq hp⟩,
    fun p hp hs hr => ?_⟩
  have hempty : t.ExitsChildless (.exit p) ↔ kids p = [] := by
    rw [← hwf.emptyList_iff hp]
    exact ⟨fun hok => hok p rfl, fun he q hq => TreeAct.exit.inj hq ▸ he⟩
  cases hk : kids p with
  | nil =>
    refine ⟨_, hwf.exit_eq hp hs hr hk, iff_of_true ⟨?_, ?_, ?_⟩ (hempty.mpr hk), nofun⟩
    · rw [hk, List.append_nil]
      exact hwf.ring rootProc hwf.root_mem
    · have := hwf.ring p hp
      rwa [hk] at this
    · rw [hk]
      nofun
  | cons first rest =>
    obtain ⟨t', hstep, hloop⟩ := hwf.exit_looped hp hs hr hk
    refine ⟨t', hstep, iff_of_false (fun hrep => hloop.not_ring _ hrep.root) ?_, ?_⟩
    · rw [hempty, hk]
      nofun
    · rintro _ _ ⟨⟩
      exact ⟨hloop, hloop.forInList_none⟩

/-- `root_proc` after `init_kproc`. -/
def start : ProcTree where
  links := ⟨id, id⟩
  parent := fun _ => some rootProc
  state := fun _ => .RUNNABLE
  live := [rootProc]

theorem start_init : start.Init := ⟨rfl, Links.ring_nil.mpr ⟨rfl, rfl⟩, rfl, rfl⟩

/-- Process 1 starts process 2, which exits and is waited for; process 1 has no
children again and exits. -/
theorem exit_reparents_leaves :
    ∃ t kids t', Runs.Reach ProcTree.step ExitsChildless Init t ∧ t.live = [1, 0] ∧ t.WF kids ∧
      t.step (.exit 1) = .ok t' ∧ t'.Reparented kids 1 := by
  obtain ⟨t, ht, hq⟩ := Runs.Reach.of_guardedTest start_init
    (show Runs.execTest (Runs.guarded ProcTree.step (fun t a => decide (t.ExitsChildless a)) .disabled)
      start [.createProc 1, .startProc 1, .createProc 2, .setParentToThis 1 2, .startProc 2, .exit 2,
        .wait 1]
      (fun t => t.live = [1, 0] ∧ t.state 1 = .RUNNABLE ∧ emptyList t.links (children 1)) = true
      by decide)
  obtain ⟨hlive, hstate, hempty⟩ := of_decide_eq_true hq
  obtain ⟨kids, hwf, -, hexit⟩ := exit_reparents t ht
  obtain ⟨t', hs, hrep, -⟩ := hexit 1 (by simp [hlive]) hstate (by decide)
  exact ⟨t, kids, t', ht, hlive, hwf, hs, hrep.mpr (by rintro p ⟨⟩; exact hempty)⟩

/-- Process 1 has one child, process 2, and exits: process 2 is its own successor
in the list of `root_proc`, so a loop over this list passes process 2 for
ever. -/
theorem exit_with_child_fails :
    ∃ t t', Runs.Reach ProcTree.step Runs.always Init t ∧ t.step (.exit 1) = .ok t' ∧
      t'.links.next (children rootProc) = ptnode 1 ∧ t'.links.next (ptnode 1) = ptnode 2 ∧
      t'.links.next (ptnode 2) = ptnode 2 ∧
      (∀ fuel, forInList t'.links (children rootProc) fuel
        (t'.links.next (children rootProc)) = none) ∧
      ∀ xs, ¬ t'.links.Ring (children rootProc) xs := by
  obtain ⟨t, ht, hq⟩ := Runs.Reach.of_execTest start_init
    (show Runs.execTest ProcTree.step start
      [.createProc 1, .startProc 1, .createProc 2, .setParentToThis 1 2, .startProc 2]
      (fun t => match t.step (.exit 1) with
        | .ok t' => t'.links.next (children rootProc) = ptnode 1 ∧
            t'.links.next (ptnode 1) = ptnode 2 ∧ t'.links.next (ptnode 2) = ptnode 2
        | .error _ => false) = true by decide)
  split at hq
  next t' hs =>
    obtain ⟨h0, h1, h2⟩ := of_decide_eq_true hq
    have hloop : ∀ fuel, forInList t'.links (children rootProc) fuel
        (t'.links.next (children rootProc)) = none := by
      rw [h0]
      refine forInList_of_closed (S := fun z => z = ptnode 1 ∨ z = ptnode 2) ?_ (by simp) (.inl rfl)
      rintro z (rfl | rfl)
      · exact .inr h1
      · exact .inr h2
    refine ⟨t, t', ht, hs, h0, h1, h2, hloop, fun xs hr => ?_⟩
    have := ring_forInList hr (Nat.lt_succ_self _)
    rw [hloop] at this
    cases this
  next => cases hq

end ProcTree

end OsKernel
