import OsKernel.Common.RbInsert
import OsKernel.Common.RbRemove
import OsKernel.Lib.Runs

/-!
# Sequences of insertions and removals

A tree whose nodes are put in and taken out by `_rb_insert` and `_rb_erase`, in any order.  Beside
the memory the state has the nodes that are in the tree; the loops get one turn more than there are
nodes.
-/

namespace OsKernel

open RedBlack

/-- The nodes reachable from the pointer `a` are those of the tree, with `p` as the parent of the
topmost one. -/
def Stored (s : RbTree) : ColorTree Nat → Nat → Nat → Prop
  | .nil, _, a => a = 0
  | .node c l b r, p, a =>
    a = b ∧ b ≠ 0 ∧ s.rbParent b = p ∧ pcColor (s.node b).parentColor = colorBit c ∧
      Stored s l b (s.node b).left ∧ Stored s r b (s.node b).right

theorem Holds.stored {s : RbTree} {t : ColorTree Nat} {p : Nat} {R : Cells}
    (h : Holds s (cells t p + R)) (hp : p % 8 = 0) : Stored s t p (ptr t) := by
  induction t generalizing p R with
  | nil => rfl
  | node c l a r ihl ihr =>
    have ha : Holds s ({(a, .of (p ||| colorBit c) .left (ptr l) (ptr r))} +
        (cells l a + cells r a + R)) := by
      refine h.congr ?_
      rw [cells_node]
      abel
    have hl : Holds s (cells l a + ({(a, .of (p ||| colorBit c) .left (ptr l) (ptr r))} +
        cells r a + R)) := ha.congr (by abel)
    have hr : Holds s (cells r a + ({(a, .of (p ||| colorBit c) .left (ptr l) (ptr r))} +
        cells l a + R)) := ha.congr (by abel)
    have hread := ha.read
    refine ⟨rfl, ha.isAddr.1, ?_, ?_, ?_, ?_⟩
    · rw [RbTree.rbParent, hread, RbNode.parentColor_of, pcParent_or hp]
    · rw [hread, RbNode.parentColor_of, pcColor_or hp]
    · rw [hread]
      exact ihl hl ha.isAddr.2
    · rw [hread]
      exact ihr hr ha.isAddr.2

structure RbState where
  tree : RbTree
  members : List Nat

inductive RbOp where
  | insert (node : Nat)
  | erase (node : Nat)

namespace RbState

def step (cmp : Nat → Nat → Bool) (s : RbState) : RbOp → Except Runs.Stop RbState
  | .insert node =>
    match rbInsert cmp (s.members.length + 1) node s.tree with
    | none => .error .disabled
    | some (r, tree) => .ok ⟨tree, if r = 0 then node :: s.members else s.members⟩
  | .erase node =>
    match rbErase (s.members.length + 1) node s.tree with
    | none => .error .disabled
    | some tree => .ok ⟨tree, s.members.erase node⟩

/-- A node is put in at an address that a node can have, and taken out of a tree it is in. -/
def Aligned (s : RbState) : RbOp → Prop
  | .insert node => IsAddr node
  | .erase node => node ∈ s.members

/-- Besides, a node that is put in is not in the tree. -/
def Ok (s : RbState) : RbOp → Prop
  | .insert node => IsAddr node ∧ node ∉ s.members
  | .erase node => node ∈ s.members

def Init (s : RbState) : Prop := s.tree.root = 0 ∧ s.members = []

instance (a : Nat) : Decidable (IsAddr a) := inferInstanceAs (Decidable (_ ∧ _))

instance (s : RbState) (op : RbOp) : Decidable (Aligned s op) := by
  cases op <;> unfold Aligned <;> infer_instance

instance (s : RbState) (op : RbOp) : Decidable (Ok s op) := by
  cases op <;> unfold Ok <;> infer_instance

/-- The memory has a balanced search tree of the members. -/
def Inv (cmp : Nat → Nat → Bool) (s : RbState) : Prop :=
  ∃ t m, RbAt s.tree [] t ∧ Balanced t .black m ∧ t.toList.Pairwise (cmp · · = true) ∧
    t.toList.Perm s.members

section

variable {cmp : Nat → Nat → Bool} {s s' : RbState}

theorem Inv.init (h : Init s) : Inv cmp s := by
  obtain ⟨hroot, hmembers⟩ := h
  refine ⟨.nil, 0, ⟨⟨?_, ?_, ?_⟩, hroot⟩, .nil, .nil, ?_⟩
  · simp [ctxCells]
  · simp [ctxCells]
  · simp [ctxCells]
  · rw [hmembers]
    exact .nil

theorem Inv.insert [IsStrictTotalOrder Nat (cmp · · = true)] (h : Inv cmp s) {node : Nat}
    (hok : Ok s (.insert node)) :
    ∃ tree, rbInsert cmp (s.members.length + 1) node s.tree = some (0, tree) ∧
      Inv cmp ⟨tree, node :: s.members⟩ := by
  obtain ⟨t, m, hat, hbal, hsorted, hperm⟩ := h
  have hnew : node ∉ t.toList := fun hmem => hok.2 (hperm.mem_iff.mp hmem)
  have hfuel : t.toList.length < s.members.length + 1 := by
    rw [hperm.length_eq]
    omega
  have hcmp : ∀ b ∈ t.toList, cmp node b = true ∨ cmp b node = true := by
    intro b hb
    rcases trichotomous_of (cmp · · = true) node b with hlt | rfl | hgt
    · exact Or.inl hlt
    · exact absurd hb hnew
    · exact Or.inr hgt
  obtain ⟨tree, t', m', hrun, hat', hbal', xs, ys, hlist, hlist', hxs, hys⟩ :=
    rbInsert_spec hat hbal hsorted hok.1 hnew hcmp hfuel
  refine ⟨tree, hrun, t', m', hat', hbal', ?_, ?_⟩
  · rw [hlist] at hsorted
    rw [hlist']
    exact pairwise_place hsorted hxs hys
  · rw [hlist] at hperm
    rw [hlist']
    exact List.perm_middle.trans (hperm.cons node)

theorem Inv.erase (h : Inv cmp s) {node : Nat} (hok : Ok s (.erase node)) :
    ∃ tree, rbErase (s.members.length + 1) node s.tree = some tree ∧
      Inv cmp ⟨tree, s.members.erase node⟩ := by
  obtain ⟨t, m, hat, hbal, hsorted, hperm⟩ := h
  have hmem : node ∈ t.toList := hperm.mem_iff.mpr hok
  have hfuel : t.toList.length ≤ s.members.length + 1 := by
    rw [hperm.length_eq]
    omega
  obtain ⟨tree, t', m', hrun, hat', hbal', xs, ys, hlist, hlist'⟩ :=
    rbErase_spec hat hbal hmem hfuel
  refine ⟨tree, hrun, t', m', hat', hbal', ?_, ?_⟩
  · rw [hlist] at hsorted
    rw [hlist']
    exact hsorted.sublist ((List.sublist_cons_self node ys).append_left xs)
  have hcons : (node :: (xs ++ ys)).Perm s.members := by
    refine List.Perm.trans ?_ hperm
    rw [hlist]
    exact List.perm_middle.symm
  have herase := hcons.erase node
  rw [List.erase_cons_head] at herase
  rw [hlist']
  exact herase

theorem Inv.step [IsStrictTotalOrder Nat (cmp · · = true)] (h : Inv cmp s) {op : RbOp}
    (hok : Ok s op) (hstep : step cmp s op = .ok s') : Inv cmp s' := by
  cases op with
  | insert node =>
    obtain ⟨tree, hrun, hinv⟩ := h.insert hok
    rw [RbState.step, hrun] at hstep
    cases hstep
    exact hinv
  | erase node =>
    obtain ⟨tree, hrun, hinv⟩ := h.erase hok
    rw [RbState.step, hrun] at hstep
    cases hstep
    exact hinv

end

end RbState

/-- Whatever nodes are put in and taken out, the structure below the root is a search tree of the
members with a black root, no red node has a red child, all paths have the same number of black
nodes, and every node names its parent.  Every insertion and removal returns, an insertion with
`0`. -/
theorem rb_tree_invariants (cmp : Nat → Nat → Bool) [IsStrictTotalOrder Nat (cmp · · = true)]
    {s : RbState} (h : Runs.Reach (RbState.step cmp) RbState.Ok RbState.Init s) :
    (∃ t n, Stored s.tree t 0 s.tree.root ∧ t.toList.Pairwise (cmp · · = true) ∧
      t.toList.Perm s.members ∧ t.color = .black ∧ t.NoRedRed ∧ ∀ k ∈ t.blackCounts, k = n) ∧
    (∀ node, RbState.Ok s (.insert node) →
      ∃ tree, rbInsert cmp (s.members.length + 1) node s.tree = some (0, tree)) ∧
    ∀ node, RbState.Ok s (.erase node) →
      ∃ tree, rbErase (s.members.length + 1) node s.tree = some tree := by
  have hinv : RbState.Inv cmp s := h.invariant (fun _ hs => RbState.Inv.init hs)
    (fun _ _ _ hI hok hstep => RbState.Inv.step hI hok hstep)
  refine ⟨?_, ?_, ?_⟩
  · obtain ⟨t, m, hat, hbal, hsorted, hperm⟩ := hinv
    refine ⟨t, m, ?_, hsorted, hperm, hbal.color_eq, hbal.noRedRed, hbal.blackCounts_eq⟩
    rw [hat.root]
    exact hat.holds.stored rfl
  · intro node hok
    obtain ⟨tree, hrun, _⟩ := hinv.insert hok
    exact ⟨tree, hrun⟩
  · intro node hok
    obtain ⟨tree, hrun, _⟩ := hinv.erase hok
    exact ⟨tree, hrun⟩

def byAddress (a b : Nat) : Bool := decide (a < b)

instance byAddress_strict : IsStrictTotalOrder Nat (byAddress · · = true) where
  irrefl a h := Nat.lt_irrefl a (of_decide_eq_true h)
  trans a b c hab hbc :=
    decide_eq_true (Nat.lt_trans (of_decide_eq_true hab) (of_decide_eq_true hbc))
  trichotomous a b hab hba := by
    simp only [byAddress, decide_eq_true_eq] at hab hba
    omega

theorem rb_tree_invariants_seven_nodes :
    ∃ s : RbState, Runs.Reach (RbState.step byAddress) RbState.Ok RbState.Init s ∧
      s.members = [40, 32, 24, 16, 8] ∧
      ∃ t n, Stored s.tree t 0 s.tree.root ∧ t.toList.Pairwise (byAddress · · = true) ∧
        t.toList.Perm s.members ∧ t.color = .black ∧ t.NoRedRed ∧ ∀ k ∈ t.blackCounts, k = n := by
  have hinit : RbState.Init ⟨⟨fun _ => ⟨0, 0, 0⟩, 0⟩, []⟩ := ⟨rfl, rfl⟩
  have hrun : Runs.execTest (Runs.guarded (RbState.step byAddress)
      (fun s op => decide (RbState.Ok s op)) .disabled) ⟨⟨fun _ => ⟨0, 0, 0⟩, 0⟩, []⟩
      [.insert 8, .insert 16, .insert 24, .insert 32, .insert 56, .insert 40, .insert 48,
        .erase 48, .erase 56]
      (fun s => s.members = [40, 32, 24, 16, 8]) = true := by decide +kernel
  obtain ⟨s, hs, hmembers⟩ := Runs.Reach.of_guardedTest hinit hrun
  exact ⟨s, hs, of_decide_eq_true hmembers, (rb_tree_invariants byAddress hs).1⟩

/-- A node that is put in again loses its links: the root of a tree of three nodes is red then and
has no children. -/
theorem rb_insert_member_corrupts :
    ∃ s : RbState, Runs.Reach (RbState.step byAddress) RbState.Aligned RbState.Init s ∧
      s.members = [24, 16, 8] ∧ s.tree.root = 16 ∧ s.tree.rbIsRed 16 = true ∧
      (s.tree.node 16).left = 0 ∧ (s.tree.node 16).right = 0 := by
  have hinit : RbState.Init ⟨⟨fun _ => ⟨0, 0, 0⟩, 0⟩, []⟩ := ⟨rfl, rfl⟩
  have hrun : Runs.execTest (Runs.guarded (RbState.step byAddress)
      (fun s op => decide (RbState.Aligned s op)) .disabled) ⟨⟨fun _ => ⟨0, 0, 0⟩, 0⟩, []⟩
      [.insert 8, .insert 16, .insert 24, .insert 16]
      (fun s => s.members = [24, 16, 8] ∧ s.tree.root = 16 ∧ s.tree.rbIsRed 16 = true ∧
        (s.tree.node 16).left = 0 ∧ (s.tree.node 16).right = 0) = true := by decide +kernel
  obtain ⟨s, hs, hq⟩ := Runs.Reach.of_guardedTest hinit hrun
  exact ⟨s, hs, of_decide_eq_true hq⟩

end OsKernel
