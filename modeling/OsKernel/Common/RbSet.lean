import OsKernel.Common.RbRuns

/-!
# A red-black tree is a set

The calls of `common/rbtree.h` against a set of nodes, kept as the list of its nodes in their order
(`RbCall.spec`).  Two nodes are equivalent if neither comes before the other.  The nodes of the list
are those of the tree from left to right, which is all that the calls depend on: a search goes to
the side on which an equivalent node can be (`rbLookupLoop_spec`), and ends there.
-/

namespace OsKernel

open RedBlack List

/-- Neither of the nodes comes before the other. -/
def rbEquiv (cmp : Nat → Nat → Bool) (a b : Nat) : Bool := !cmp a b && !cmp b a

inductive RbCall where
  | insert (node : Nat)
  | erase (node : Nat)
  | lookup (node : Nat)
  | first

inductive RbResult where
  | code (r : Int)
  | none
  | node (a : Nat)
deriving DecidableEq

namespace RbCall

def run (cmp : Nat → Nat → Bool) (fuel : Nat) (s : RbTree) : RbCall → Option (RbResult × RbTree)
  | .insert node => (rbInsert cmp fuel node s).map fun r => (.code r.1, r.2)
  | .erase node => (rbErase fuel node s).map fun s' => (.none, s')
  | .lookup node => (rbLookup cmp fuel node s).map fun a => (.node a, s)
  | .first => (rbFirst fuel s).map fun a => (.node a, s)

/-- The call on a set of nodes, in their order. -/
def spec (cmp : Nat → Nat → Bool) (xs : List Nat) : RbCall → RbResult × List Nat
  | .insert node =>
    if xs.any (rbEquiv cmp node) then (.code (-1), xs)
    else (.code 0, xs.takeWhile (cmp · node) ++ node :: xs.dropWhile (cmp · node))
  | .erase node => (.none, xs.erase node)
  | .lookup node => (.node ((xs.find? (rbEquiv cmp node)).getD 0), xs)
  | .first => (.node (xs.headD 0), xs)

end RbCall

section

variable {cmp : Nat → Nat → Bool} {s : RbTree} {t : ColorTree Nat} {node e : Nat}

variable {a p : Nat} {c : Color} {l r : ColorTree Nat}

theorem rbEquiv_eq_true {b : Nat} : rbEquiv cmp a b = true ↔ cmp a b = false ∧ cmp b a = false := by
  simp [rbEquiv]

theorem rbEquiv_eq_false {b : Nat} (h : ¬ rbEquiv cmp a b = true) :
    cmp a b = true ∨ cmp b a = true := by
  simp only [rbEquiv, Bool.and_eq_true, Bool.not_eq_true', not_and_or, Bool.not_eq_false] at h
  exact h

theorem pairwise_node (h : (ColorTree.node c l a r).toList.Pairwise (cmp · · = true)) :
    l.toList.Pairwise (cmp · · = true) ∧ r.toList.Pairwise (cmp · · = true) ∧
      (∀ b ∈ l.toList, cmp b a = true) ∧ ∀ b ∈ r.toList, cmp a b = true := by
  rw [ColorTree.toList, pairwise_append, pairwise_cons] at h
  obtain ⟨hl, ⟨har, hr⟩, hlar⟩ := h
  exact ⟨hl, hr, fun b hb => hlar b hb a mem_cons_self, har⟩

theorem Stored.nil_of_zero (h : Stored s t p 0) : t = .nil := by
  cases t with
  | nil => rfl
  | node c l b r => exact absurd h.1.symm h.2.1

variable [IsStrictOrder Nat (cmp · · = true)]

section

variable (h : (ColorTree.node c l a r).toList.Pairwise (cmp · · = true))

include h

theorem mem_left_of_lt (hlt : cmp node a = true)
    (he : e ∈ (ColorTree.node c l a r).toList) (heq : rbEquiv cmp node e = true) :
    e ∈ l.toList := by
  obtain ⟨_, _, _, hr⟩ := pairwise_node h
  have hnot : ¬ cmp node e = true := by
    rw [(rbEquiv_eq_true.mp heq).1]
    decide
  rw [ColorTree.toList, mem_append, mem_cons] at he
  rcases he with he | rfl | he
  · exact he
  · exact absurd hlt hnot
  · exact absurd (trans_of (cmp · · = true) hlt (hr e he)) hnot

theorem mem_right_of_gt (hgt : cmp a node = true)
    (he : e ∈ (ColorTree.node c l a r).toList) (heq : rbEquiv cmp node e = true) :
    e ∈ r.toList := by
  obtain ⟨_, _, hl, _⟩ := pairwise_node h
  have hnot : ¬ cmp e node = true := by
    rw [(rbEquiv_eq_true.mp heq).2]
    decide
  rw [ColorTree.toList, mem_append, mem_cons] at he
  rcases he with he | rfl | he
  · exact absurd (trans_of (cmp · · = true) (hl e he) hgt) hnot
  · exact absurd hgt hnot
  · exact he

end

theorem rbLookupLoop_spec (node : Nat) (fuel : Nat) (h : Stored s t p a)
    (hsorted : t.toList.Pairwise (cmp · · = true)) (hfuel : t.depth < fuel) :
    ∃ r, rbLookupLoop cmp node s fuel a = some r ∧
      (r ∈ t.toList ∧ rbEquiv cmp node r = true ∨
        r = 0 ∧ ∀ e ∈ t.toList, ¬ rbEquiv cmp node e = true) := by
  induction t generalizing p a fuel with
  | nil =>
    obtain ⟨fuel, rfl⟩ := Nat.exists_eq_add_one.mpr (Nat.zero_lt_of_lt hfuel)
    obtain rfl : a = 0 := h
    exact ⟨0, by rw [rbLookupLoop, if_pos rfl], Or.inr ⟨rfl, by simp [ColorTree.toList]⟩⟩
  | node c l b r ihl ihr =>
    obtain ⟨fuel, rfl⟩ := Nat.exists_eq_add_one.mpr (Nat.zero_lt_of_lt hfuel)
    obtain ⟨rfl, hne, _, _, hl, hr⟩ := h
    obtain ⟨hsl, hsr, _, _⟩ := pairwise_node hsorted
    have hdepth : max l.depth r.depth < fuel := Nat.lt_of_succ_lt_succ hfuel
    rw [rbLookupLoop, if_neg hne]
    split
    next hlt =>
      obtain ⟨x, hx, hspec⟩ := ihl fuel hl hsl (by omega)
      refine ⟨x, hx, ?_⟩
      rcases hspec with ⟨hmem, heq⟩ | ⟨rfl, hnone⟩
      · exact Or.inl ⟨by simp [ColorTree.toList, hmem], heq⟩
      · exact Or.inr ⟨rfl, fun e he heq => hnone e (mem_left_of_lt hsorted hlt he heq) heq⟩
    next hlt =>
      split
      next hgt =>
        obtain ⟨x, hx, hspec⟩ := ihr fuel hr hsr (by omega)
        refine ⟨x, hx, ?_⟩
        rcases hspec with ⟨hmem, heq⟩ | ⟨rfl, hnone⟩
        · exact Or.inl ⟨by simp [ColorTree.toList, hmem], heq⟩
        · exact Or.inr ⟨rfl, fun e he heq => hnone e (mem_right_of_gt hsorted hgt he heq) heq⟩
      next hgt =>
        refine ⟨a, rfl, Or.inl ⟨by simp [ColorTree.toList], ?_⟩⟩
        rw [Bool.not_eq_true] at hlt hgt
        exact rbEquiv_eq_true.mpr ⟨hlt, hgt⟩

theorem Stored.ne_zero (h : Stored s t p a) (he : e ∈ t.toList) : a ≠ 0 := by
  rintro rfl
  rw [h.nil_of_zero] at he
  simp [ColorTree.toList] at he

theorem rbInsertLoop_found (fuel : Nat) (h : Stored s t p a)
    (hsorted : t.toList.Pairwise (cmp · · = true)) (hfuel : t.toList.length < fuel)
    (he : e ∈ t.toList) (heq : rbEquiv cmp node e = true) :
    rbInsertLoop cmp node fuel a s = some none := by
  induction t generalizing p a fuel with
  | nil => simp [ColorTree.toList] at he
  | node c l b r ihl ihr =>
    obtain ⟨fuel, rfl⟩ := Nat.exists_eq_add_one.mpr (Nat.zero_lt_of_lt hfuel)
    obtain ⟨rfl, hne, _, _, hl, hr⟩ := h
    obtain ⟨hsl, hsr, _, _⟩ := pairwise_node hsorted
    have hlen : l.toList.length + r.toList.length < fuel := by
      simp only [ColorTree.toList, length_append, length_cons] at hfuel
      omega
    rw [rbInsertLoop, if_neg hne]
    -- the subtree with the node is not empty, so that nothing is attached
    split
    next hlt =>
      have hmem := mem_left_of_lt hsorted hlt he heq
      dsimp only
      rw [if_neg (hl.ne_zero hmem)]
      exact ihl fuel hl hsl (by omega) hmem
    next hlt =>
      split
      next hgt =>
        have hmem := mem_right_of_gt hsorted hgt he heq
        dsimp only
        rw [if_neg (hr.ne_zero hmem)]
        exact ihr fuel hr hsr (by omega) hmem
      next => rfl

end

theorem rbFirstLoop_spec {s : RbTree} {t : ColorTree Nat} {p a : Nat} (fuel : Nat)
    (h : Stored s t p a) (hne : t ≠ .nil) (hfuel : t.toList.length < fuel) :
    rbFirstLoop s fuel a = some (t.toList.headD 0) := by
  induction t generalizing p a fuel with
  | nil => exact absurd rfl hne
  | node c l b r ihl _ =>
    obtain ⟨fuel, rfl⟩ := Nat.exists_eq_add_one.mpr (Nat.zero_lt_of_lt hfuel)
    obtain ⟨rfl, _, _, _, hl, _⟩ := h
    simp only [ColorTree.toList, length_append, length_cons] at hfuel
    rw [rbFirstLoop]
    cases l with
    | nil =>
      have hleft : (s.node a).left = 0 := hl
      rw [if_neg (by simp [hleft]), ColorTree.toList]
      rfl
    | node c' l' b' r' =>
      have hleft : (s.node a).left ≠ 0 := by
        rw [hl.1]
        exact hl.2.1
      rw [if_pos hleft, ihl fuel hl (by simp) (by omega)]
      simp [ColorTree.toList, headD_eq_head?_getD, List.head?_append]

/-! ## Runs -/

/-- The tree, and the set of its nodes in their order. -/
structure RbSet where
  tree : RbTree
  nodes : List Nat

namespace RbSet

/-- A call on the tree and on the set; the loops get one turn more than there are nodes. -/
def step (cmp : Nat → Nat → Bool) (s : RbSet) (call : RbCall) : Except Runs.Stop RbSet :=
  match call.run cmp (s.nodes.length + 1) s.tree with
  | none => .error .disabled
  | some (_, tree) => .ok ⟨tree, (call.spec cmp s.nodes).2⟩

/-- A node that is put in has an address that a node can have and is not in the tree; one that is
taken out is in the tree. -/
def Ok (s : RbSet) : RbCall → Prop
  | .insert node => IsAddr node ∧ node ∉ s.nodes
  | .erase node => node ∈ s.nodes
  | .lookup _ | .first => True

instance (s : RbSet) : (call : RbCall) → Decidable (Ok s call)
  | .insert _ => inferInstanceAs (Decidable (_ ∧ _))
  | .erase _ => inferInstanceAs (Decidable (_ ∈ _))
  | .lookup _ | .first => .isTrue trivial

def Init (s : RbSet) : Prop := s.tree.root = 0 ∧ s.nodes = []

/-- The memory has a balanced search tree with the nodes of the set. -/
def Inv (cmp : Nat → Nat → Bool) (s : RbSet) : Prop :=
  s.nodes.Pairwise (cmp · · = true) ∧
    ∃ t m, RbAt s.tree [] t ∧ Balanced t .black m ∧ t.toList = s.nodes

/-- The result of the call on the set, and nodes left alone by a call that leaves the set alone. -/
def Meets (cmp : Nat → Nat → Bool) (s : RbSet) (call : RbCall) : Prop :=
  ∃ tree, call.run cmp (s.nodes.length + 1) s.tree = some ((call.spec cmp s.nodes).1, tree) ∧
    Inv cmp ⟨tree, (call.spec cmp s.nodes).2⟩ ∧
    ((call.spec cmp s.nodes).2 = s.nodes →
      tree.root = s.tree.root ∧ ∀ a ∈ s.nodes, tree.node a = s.tree.node a)

variable {cmp : Nat → Nat → Bool} {s s' : RbSet}

theorem Inv.init (h : Init s) : Inv cmp s := by
  obtain ⟨hroot, hnodes⟩ := h
  rw [Inv, hnodes]
  refine ⟨.nil, .nil, 0, ⟨⟨?_, ?_, ?_⟩, hroot⟩, .nil, rfl⟩
  · simp [ctxCells]
  · simp [ctxCells]
  · simp [ctxCells]

theorem Inv.stored (h : Inv cmp s) : ∃ t, Stored s.tree t 0 s.tree.root ∧ t.toList = s.nodes := by
  obtain ⟨_, t, _, hat, _, hlist⟩ := h
  refine ⟨t, ?_, hlist⟩
  rw [hat.root]
  exact hat.holds.stored rfl

variable {node : Nat}

theorem Inv.fresh (h : Inv cmp s) (hok : Ok s (.insert node)) :
    Inv cmp ⟨{ s.tree with node := Function.update s.tree.node node ⟨0, 0, 0⟩ }, s.nodes⟩ := by
  obtain ⟨hsorted, t, m, hat, hbal, hlist⟩ := h
  have hfree : node ∉ (cells t (ctxParent []) + ctxCells [] (ptr t)).map Prod.fst := by
    rw [ctxCells, add_zero, map_fst_cells, hlist]
    exact hok.2
  exact ⟨hsorted, t, m, ⟨(hat.holds.alloc hfree hok.1 ⟨0, 0, 0⟩).of_add, hat.root⟩, hbal, hlist⟩

section

variable [IsStrictOrder Nat (cmp · · = true)]

theorem Inv.insert_found (h : Inv cmp s) (hok : Ok s (.insert node))
    (hany : s.nodes.any (rbEquiv cmp node) = true) : Meets cmp s (.insert node) := by
  have hfresh := h.fresh hok
  obtain ⟨t, hstored, hlist⟩ := hfresh.stored
  obtain ⟨e, he, heq⟩ := any_eq_true.mp hany
  have hsorted : t.toList.Pairwise (cmp · · = true) := by
    rw [hlist]
    exact h.1
  have hloop := rbInsertLoop_found (s.nodes.length + 1) hstored hsorted
    (by rw [hlist]; exact Nat.lt_succ_self _) (hlist ▸ he) heq
  have hspec : (RbCall.insert node).spec cmp s.nodes = (.code (-1), s.nodes) := by
    rw [RbCall.spec, if_pos hany]
  rw [Meets, hspec]
  refine ⟨_, ?_, hfresh, fun _ => ⟨rfl, fun a ha => ?_⟩⟩
  · rw [RbCall.run, rbInsert]
    rw [hloop]
    rfl
  · refine Function.update_of_ne ?_ _ _
    rintro rfl
    exact hok.2 ha

theorem takeWhile_place {xs ys : List Nat} (hxs : ∀ b ∈ xs, cmp b node = true)
    (hys : ∀ b ∈ ys, cmp node b = true) :
    (xs ++ ys).takeWhile (cmp · node) = xs ∧ (xs ++ ys).dropWhile (cmp · node) = ys := by
  have hnot : ∀ b ∈ ys, ¬ cmp b node = true := fun b hb hlt =>
    irrefl_of (cmp · · = true) node (trans_of (cmp · · = true) (hys b hb) hlt)
  rw [takeWhile_append_of_pos hxs, dropWhile_append_of_pos hxs]
  cases ys with
  | nil => simp
  | cons y ys =>
    have hy := hnot y mem_cons_self
    simp [hy]

theorem Inv.insert_new (h : Inv cmp s) (hok : Ok s (.insert node))
    (hany : ¬ s.nodes.any (rbEquiv cmp node) = true) : Meets cmp s (.insert node) := by
  obtain ⟨hsorted, t, m, hat, hbal, hlist⟩ := h
  have hcmp : ∀ b ∈ t.toList, cmp node b = true ∨ cmp b node = true := by
    intro b hb
    refine rbEquiv_eq_false fun heq => hany (any_eq_true.mpr ⟨b, ?_, heq⟩)
    rwa [← hlist]
  have hfuel : t.toList.length < s.nodes.length + 1 := by
    rw [hlist]
    exact Nat.lt_succ_self _
  obtain ⟨tree, t', m', hrun, hat', hbal', xs, ys, hold, hnew, hxs, hys⟩ :=
    rbInsert_spec hat hbal (hlist ▸ hsorted) hok.1 (hlist ▸ hok.2) hcmp hfuel
  have hnodes : s.nodes = xs ++ ys := hlist ▸ hold
  have hspec : (RbCall.insert node).spec cmp s.nodes = (.code 0, xs ++ node :: ys) := by
    rw [RbCall.spec, if_neg hany, hnodes, (takeWhile_place hxs hys).1, (takeWhile_place hxs hys).2]
  rw [Meets, hspec]
  refine ⟨tree, ?_, ⟨?_, t', m', hat', hbal', hnew⟩, fun hsame => ?_⟩
  · rw [RbCall.run, hrun]
    rfl
  · rw [hnodes] at hsorted
    exact pairwise_place hsorted hxs hys
  · have hlen := congrArg List.length hsame
    simp [hnodes] at hlen

end

theorem Inv.erase [IsStrictOrder Nat (cmp · · = true)] (h : Inv cmp s)
    (hok : Ok s (.erase node)) : Meets cmp s (.erase node) := by
  obtain ⟨hsorted, t, m, hat, hbal, hlist⟩ := h
  have hmem : node ∈ t.toList := by
    rw [hlist]
    exact hok
  have hfuel : t.toList.length ≤ s.nodes.length + 1 := by
    rw [hlist]
    exact Nat.le_succ _
  obtain ⟨tree, t', m', hrun, hat', hbal', xs, ys, hold, hnew⟩ := rbErase_spec hat hbal hmem hfuel
  have hnodes : s.nodes = xs ++ node :: ys := hlist ▸ hold
  rw [hnodes] at hsorted
  -- no node comes before itself, so that `node` occurs once
  have hxs : node ∉ xs := fun hmem => irrefl_of (cmp · · = true) node
    ((pairwise_append.mp hsorted).2.2 node hmem node mem_cons_self)
  have herase : s.nodes.erase node = xs ++ ys := by
    rw [hnodes, erase_append_right _ hxs, erase_cons_head]
  have hspec : (RbCall.erase node).spec cmp s.nodes = (.none, xs ++ ys) := by
    rw [RbCall.spec, herase]
  rw [Meets, hspec]
  refine ⟨tree, ?_, ⟨?_, t', m', hat', hbal', hnew⟩, fun hsame => ?_⟩
  · rw [RbCall.run, hrun]
    rfl
  · exact hsorted.sublist ((sublist_cons_self node ys).append_left xs)
  · have hlen := congrArg List.length hsame
    simp [hnodes] at hlen

theorem find_rbEquiv [IsStrictWeakOrder Nat (cmp · · = true)] {xs : List Nat} {r : Nat}
    (hsorted : xs.Pairwise (cmp · · = true)) (hr : r ∈ xs) (heq : rbEquiv cmp node r = true) :
    xs.find? (rbEquiv cmp node) = some r := by
  induction xs with
  | nil => simp at hr
  | cons x xs ih =>
    rw [pairwise_cons] at hsorted
    cases hx : rbEquiv cmp node x with
    | false =>
      rw [List.find?_cons_of_neg (by simp [hx])]
      refine ih hsorted.2 ?_
      rcases mem_cons.mp hr with rfl | hr
      · rw [hx] at heq
        cases heq
      · exact hr
    | true =>
      rw [List.find?_cons_of_pos hx]
      rcases mem_cons.mp hr with rfl | hr
      · rfl
      · obtain ⟨h1, h2⟩ := rbEquiv_eq_true.mp hx
        obtain ⟨h3, h4⟩ := rbEquiv_eq_true.mp heq
        have hincomp := @IsStrictWeakOrder.incomp_trans Nat (cmp · · = true) _ x node r
          ⟨by simp [h2], by simp [h1]⟩ ⟨by simp [h3], by simp [h4]⟩
        exact absurd (hsorted.1 r hr) hincomp.1

theorem Inv.rbLookup_eq [IsStrictWeakOrder Nat (cmp · · = true)] (h : Inv cmp s)
    {t : ColorTree Nat} (hstored : Stored s.tree t 0 s.tree.root) (hlist : t.toList = s.nodes)
    {fuel : Nat} (hfuel : t.depth < fuel) (node : Nat) :
    rbLookup cmp fuel node s.tree = some ((s.nodes.find? (rbEquiv cmp node)).getD 0) := by
  have hsorted : t.toList.Pairwise (cmp · · = true) := by
    rw [hlist]
    exact h.1
  obtain ⟨r, hrun, hr⟩ := rbLookupLoop_spec node fuel hstored hsorted hfuel
  rw [hlist] at hr
  rw [rbLookup, hrun]
  rcases hr with ⟨hmem, heq⟩ | ⟨rfl, hnone⟩
  · rw [find_rbEquiv h.1 hmem heq]
    rfl
  · rw [List.find?_eq_none.mpr hnone]
    rfl

theorem Inv.lookup [IsStrictWeakOrder Nat (cmp · · = true)] (h : Inv cmp s) (node : Nat) :
    Meets cmp s (.lookup node) := by
  obtain ⟨t, hstored, hlist⟩ := h.stored
  refine ⟨s.tree, ?_, h, fun _ => ⟨rfl, fun _ _ => rfl⟩⟩
  rw [RbCall.run, h.rbLookup_eq hstored hlist (Nat.lt_succ_of_le (hlist ▸ t.depth_le_length))]
  rfl

theorem Inv.first (h : Inv cmp s) : Meets cmp s .first := by
  obtain ⟨t, hstored, hlist⟩ := h.stored
  refine ⟨s.tree, ?_, h, fun _ => ⟨rfl, fun _ _ => rfl⟩⟩
  rw [RbCall.run, RbCall.spec, rbFirst]
  split
  next h0 =>
    rw [h0] at hstored
    rw [← hlist, hstored.nil_of_zero]
    rfl
  next h0 =>
    have hne : t ≠ .nil := by
      rintro rfl
      exact h0 hstored
    rw [rbFirstLoop_spec _ hstored hne (by rw [hlist]; exact Nat.lt_succ_self _), hlist]
    rfl

theorem Inv.meets [IsStrictWeakOrder Nat (cmp · · = true)] (h : Inv cmp s) {call : RbCall}
    (hok : Ok s call) : Meets cmp s call := by
  cases call with
  | insert node =>
    cases hany : s.nodes.any (rbEquiv cmp node) with
    | true => exact h.insert_found hok hany
    | false => exact h.insert_new hok (by simp [hany])
  | erase node => exact h.erase hok
  | lookup node => exact h.lookup node
  | first => exact h.first

theorem Inv.step [IsStrictWeakOrder Nat (cmp · · = true)] (h : Inv cmp s) {call : RbCall}
    (hok : Ok s call) (hstep : step cmp s call = .ok s') : Inv cmp s' := by
  obtain ⟨tree, hrun, hinv, _⟩ := h.meets hok
  rw [RbSet.step, hrun] at hstep
  cases hstep
  exact hinv

end RbSet

/-- The tree is a set: after every sequence of calls the nodes below the root, from left to right,
are those of the set in their order, and every call returns what it returns on the set, which it
leaves as the call on the set does: `_rb_insert` adds a node in its place and returns `0`, or
returns `-1` if the set has an equivalent node, `_rb_erase` takes out the node, `_rb_lookup` returns
the equivalent node and `_rb_first` the smallest one, or `NULL`.  A call that leaves the set alone
leaves its nodes alone. -/
theorem rb_tree_is_set (cmp : Nat → Nat → Bool) [IsStrictWeakOrder Nat (cmp · · = true)] {s : RbSet}
    (h : Runs.Reach (RbSet.step cmp) RbSet.Ok RbSet.Init s) :
    (∃ t, Stored s.tree t 0 s.tree.root ∧ t.toList = s.nodes) ∧
    s.nodes.Pairwise (cmp · · = true) ∧
    ∀ call, RbSet.Ok s call →
      ∃ tree, call.run cmp (s.nodes.length + 1) s.tree = some ((call.spec cmp s.nodes).1, tree) ∧
        (∃ t, Stored tree t 0 tree.root ∧ t.toList = (call.spec cmp s.nodes).2) ∧
        ((call.spec cmp s.nodes).2 = s.nodes →
          tree.root = s.tree.root ∧ ∀ a ∈ s.nodes, tree.node a = s.tree.node a) := by
  have hinv : RbSet.Inv cmp s := h.invariant (fun _ hs => RbSet.Inv.init hs)
    (fun _ _ _ hI hok hstep => RbSet.Inv.step hI hok hstep)
  refine ⟨hinv.stored, hinv.1, fun call hok => ?_⟩
  obtain ⟨tree, hrun, hinv', hsame⟩ := hinv.meets hok
  exact ⟨tree, hrun, hinv'.stored, hsame⟩

/-- On a tree of `n` nodes `_rb_lookup` finds the node, or that there is none, in at most
`2 * log2 (n + 1)` steps down the tree. -/
theorem rb_lookup_logarithmic (cmp : Nat → Nat → Bool) [IsStrictWeakOrder Nat (cmp · · = true)]
    {s : RbSet} (h : Runs.Reach (RbSet.step cmp) RbSet.Ok RbSet.Init s) (node : Nat) :
    rbLookup cmp (2 * Nat.log2 (s.nodes.length + 1) + 1) node s.tree =
      some ((s.nodes.find? (rbEquiv cmp node)).getD 0) := by
  have hinv : RbSet.Inv cmp s :=
    h.invariant (fun _ hs => .init hs) fun _ _ _ hI hok hstep => hI.step hok hstep
  obtain ⟨-, t, m, hat, hbal, hlist⟩ := id hinv
  exact hinv.rbLookup_eq (hat.root ▸ hat.holds.stored rfl) hlist
    (Nat.lt_succ_of_le (hlist ▸ hbal.depth_le_log)) node

/-- An order by keys, with two addresses to each key. -/
def byKey (a b : Nat) : Bool := decide (a / 16 < b / 16)

instance byKey_weak : IsStrictWeakOrder Nat (byKey · · = true) where
  irrefl a h := Nat.lt_irrefl (a / 16) (of_decide_eq_true h)
  trans a b c hab hbc :=
    decide_eq_true (Nat.lt_trans (of_decide_eq_true hab) (of_decide_eq_true hbc))
  incomp_trans a b c hab hbc := by
    simp only [byKey, decide_eq_true_eq] at hab hbc ⊢
    omega

theorem rb_lookup_logarithmic_four :
    ∃ s : RbSet, s.nodes = [16, 32, 48, 64] ∧ rbLookup byKey 5 56 s.tree = some 48 := by
  have hinit : RbSet.Init ⟨⟨fun _ => ⟨0, 0, 0⟩, 0⟩, []⟩ := ⟨rfl, rfl⟩
  obtain ⟨s, hs, hq⟩ := Runs.Reach.of_guardedTest hinit
    (show Runs.execTest (Runs.guarded (RbSet.step byKey) (fun s call => decide (RbSet.Ok s call))
      .disabled) _ [.insert 48, .insert 16, .insert 64, .insert 32]
      (fun s => s.nodes = [16, 32, 48, 64]) = true by decide +kernel)
  have hnodes := of_decide_eq_true hq
  have hfound := rb_lookup_logarithmic byKey hs 56
  rw [hnodes] at hfound
  exact ⟨s, hnodes, hfound⟩

/-- Nodes `16` and `24` have the same key. -/
theorem rb_tree_is_set_equivalent_nodes :
    ∃ s : RbSet, Runs.Reach (RbSet.step byKey) RbSet.Ok RbSet.Init s ∧ s.nodes = [16, 32, 48] ∧
      (∃ tree, (RbCall.insert 24).run byKey 4 s.tree = some (.code (-1), tree)) ∧
      ∃ tree, (RbCall.lookup 24).run byKey 4 s.tree = some (.node 16, tree) := by
  have hinit : RbSet.Init ⟨⟨fun _ => ⟨0, 0, 0⟩, 0⟩, []⟩ := ⟨rfl, rfl⟩
  have hrun : Runs.execTest (Runs.guarded (RbSet.step byKey)
      (fun s call => decide (RbSet.Ok s call)) .disabled) ⟨⟨fun _ => ⟨0, 0, 0⟩, 0⟩, []⟩
      [.insert 48, .insert 16, .insert 24, .insert 64, .insert 32, .lookup 24, .erase 64, .first]
      (fun s => s.nodes = [16, 32, 48]) = true := by decide +kernel
  obtain ⟨s, hs, hnodes⟩ := Runs.Reach.of_guardedTest hinit hrun
  have hnodes : s.nodes = [16, 32, 48] := of_decide_eq_true hnodes
  obtain ⟨_, _, hcalls⟩ := rb_tree_is_set byKey hs
  obtain ⟨tree, hinsert, _⟩ := hcalls (.insert 24) (by rw [RbSet.Ok, hnodes]; decide)
  obtain ⟨tree', hlookup, _⟩ := hcalls (.lookup 24) trivial
  rw [hnodes] at hinsert hlookup
  exact ⟨s, hs, hnodes, ⟨tree, hinsert⟩, ⟨tree', hlookup⟩⟩

/-- `_rb_insert` of a node that is in the tree returns `-1` and clears the node: of a tree of three
nodes the two others are lost. -/
theorem rb_insert_clears_member :
    ∃ s : RbSet, Runs.Reach (RbSet.step byAddress) RbSet.Ok RbSet.Init s ∧
      s.nodes = [8, 16, 24] ∧ (s.tree.node 16).left = 8 ∧
      ∃ tree, (RbCall.insert 16).run byAddress 4 s.tree = some (.code (-1), tree) ∧
        (tree.node 16).left = 0 ∧
        (RbCall.lookup 8).run byAddress 4 tree = some (.node 0, tree) := by
  have hinit : RbSet.Init ⟨⟨fun _ => ⟨0, 0, 0⟩, 0⟩, []⟩ := ⟨rfl, rfl⟩
  have hrun : Runs.execTest (Runs.guarded (RbSet.step byAddress)
      (fun s call => decide (RbSet.Ok s call)) .disabled) ⟨⟨fun _ => ⟨0, 0, 0⟩, 0⟩, []⟩
      [.insert 8, .insert 16, .insert 24]
      (fun s => s.nodes = [8, 16, 24] ∧ (s.tree.node 16).left = 8 ∧
        ((RbCall.insert 16).run byAddress 4 s.tree).any fun r =>
          r.1 = .code (-1) ∧ (r.2.node 16).left = 0 ∧ rbLookup byAddress 4 8 r.2 = some 0) =
      true := by decide +kernel
  obtain ⟨s, hs, hq⟩ := Runs.Reach.of_guardedTest hinit hrun
  obtain ⟨hnodes, hleft, hany⟩ := of_decide_eq_true hq
  obtain ⟨⟨r, tree⟩, hinsert, hq⟩ := (Option.any_eq_true _ _).mp hany
  obtain ⟨rfl, hcleared, hlookup⟩ := of_decide_eq_true hq
  exact ⟨s, hs, hnodes, hleft, tree, hinsert, hcleared, by rw [RbCall.run, hlookup]; rfl⟩

end OsKernel
