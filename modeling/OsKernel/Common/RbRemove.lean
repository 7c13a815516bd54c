import OsKernel.Common.RbErase

/-!
# Taking a node out

`__rb_erase` for a node with at most one child and for a node with two.  In the second case the
successor, at the end of the path of left children of the right child, takes its place; the hole is
where the successor was.  `_rb_erase` is this followed by `__rb_erase_fix`.
-/

namespace OsKernel

open RedBlack RbTree List ColorTree RbNode

/-- What `__rb_erase` leaves: a balanced tree, or a hole below `rebalance` in which a black node is
missing. -/
def Erased (rebalance : Nat) (s : RbTree) (xs : List Nat) : Prop :=
  ∃ ctx t, RbAt s ctx t ∧ (plug ctx t).toList = xs ∧
    (rebalance = 0 ∧ (∃ m, Balanced (plug ctx t) .black m) ∨
      rebalance = ctxParent ctx ∧ ctx ≠ [] ∧ t = .nil ∧ ∃ c, Fits ctx c 1)

section

variable {s : RbTree} {ctx : List (Frame Nat)} {l r t u : ColorTree Nat} {d : Side} {c c' : Color}
  {a z y q k n : Nat}

theorem paint_only_child (h : Balanced (.mk c d .nil a u) c' n) : u.paint c = u.paint .black := by
  cases c with
  | red =>
    obtain ⟨_, hnil, hu⟩ := h.of_mkRed
    cases hnil
    rcases hu.height_zero with rfl | ⟨b, rfl⟩
    · rfl
    · cases hu
  | black => rfl

theorem Erased.of_hole {rebalance : Nat} (h : RbAt s ctx (u.paint .black))
    (hbal : Balanced (.mk c d .nil a u) c' n) (hctx : Fits ctx c' n)
    (hsome : u ≠ .nil → rebalance = 0)
    (hnone : u = .nil → rebalance = if c = .black then ctxParent ctx else 0) :
    Erased rebalance s (plug ctx u).toList := by
  refine ⟨ctx, u.paint .black, h, toList_plug_congr (toList_paint _ _), ?_⟩
  cases c with
  | red =>
    obtain ⟨rfl, hnil, hu⟩ := hbal.of_mkRed
    cases hnil
    rcases hu.height_zero with rfl | ⟨b, rfl⟩
    · exact Or.inl ⟨hnone rfl, hctx.toBlack.plug .nil⟩
    · cases hu
  | black =>
    obtain ⟨rfl, m, c1, c2, rfl, hnil, hu⟩ := hbal.of_mkBlack
    cases hnil
    rcases hu.height_zero with rfl | ⟨b, rfl⟩
    · have hreb : rebalance = ctxParent ctx := hnone rfl
      cases ctx with
      | nil => exact Or.inl ⟨hreb, 0, .nil⟩
      | cons f ctx => exact Or.inr ⟨hreb, cons_ne_nil _ _, rfl, _, hctx⟩
    · have hone : Balanced (.node .black .nil b .nil : ColorTree Nat) .black 1 :=
        Balanced.nil.mkBlack (d := .left) .nil
      exact Or.inl ⟨hsome (fun he => by cases he), hctx.plug hone⟩

/-! ## At most one child -/

theorem RbAt.eraseNoLeft (h : RbAt s ctx (.node c .nil z r)) :
    RbAt (s.eraseNoLeft z (ptr r)).2 ctx (r.paint c) ∧
      (r ≠ .nil → (s.eraseNoLeft z (ptr r)).1 = 0) ∧
      (r = .nil → (s.eraseNoLeft z (ptr r)).1 = if c = .black then ctxParent ctx else 0) := by
  have h0 : Holds s ({(z, ⟨ctxParent ctx ||| colorBit c, ptr r, 0⟩)} + cells r z +
      ctxCells ctx z) := by
    refine h.holds.congr ?_
    simp only [cells, ptr]
    abel
  have hread : s.node z = ⟨ctxParent ctx ||| colorBit c, ptr r, 0⟩ := h0.read_mem (by simp)
  have haligned := h0.ctxParent_aligned
  obtain ⟨h1, hroot⟩ := h0.changeChild (by simp) h.root (ptr r)
  rw [add_assoc] at h1
  have h2 := h1.of_add
  rw [RbTree.eraseNoLeft, hread]
  dsimp only
  rw [pcParent_or haligned, pcColor_or haligned]
  cases hr : r with
  | nil =>
    rw [hr] at h2 hroot
    refine ⟨⟨h2, hroot⟩, fun he => absurd rfl he, fun _ => ?_⟩
    cases c <;> rfl
  | node c1 l1 b r1 =>
    have hnil : r ≠ .nil := by
      rw [hr]
      intro he
      cases he
    rw [← hr, if_pos (h2.ptr_ne_zero hnil)]
    refine ⟨⟨?_, ?_⟩, fun _ => rfl, fun he => absurd he hnil⟩
    · rw [ptr_paint]
      exact h2.paint hnil _ c
    · rw [ptr_paint]
      exact hroot

theorem RbAt.eraseNoRight (h : RbAt s ctx (.node c l z .nil)) (hl : l ≠ .nil) :
    RbAt (s.eraseNoRight z (ptr l)).2 ctx (l.paint c) ∧ (s.eraseNoRight z (ptr l)).1 = 0 := by
  have hz : Holds s ({(z, ⟨ctxParent ctx ||| colorBit c, 0, ptr l⟩)} +
      (cells l z + ctxCells ctx z)) := by
    refine h.holds.congr ?_
    simp only [cells, ptr]
    abel
  have h0 : Holds s (cells l z + ({(z, ⟨ctxParent ctx ||| colorBit c, 0, ptr l⟩)} +
      ctxCells ctx z)) := hz.congr (by abel)
  have h1 : Holds _ ({(z, ⟨ctxParent ctx ||| colorBit c, 0, ptr l⟩)} +
      cells (l.paint c) (ctxParent ctx) + ctxCells ctx z) :=
    (h0.paint hl (ctxParent ctx) c).congr (by abel)
  have haligned := h1.ctxParent_aligned
  have hroot : (s.rbSetParentColor (ptr l) (ctxParent ctx) (colorBit c)).root = rootPtr ctx z :=
    h.root
  obtain ⟨h2, hroot2⟩ := h1.changeChild (by simp) hroot (ptr l)
  rw [add_assoc] at h2
  rw [RbTree.eraseNoRight, hz.read]
  dsimp only
  rw [pcParent_or haligned]
  refine ⟨⟨?_, ?_⟩, rfl⟩
  · rw [ptr_paint]
    exact h2.of_add
  · rw [ptr_paint]
    exact hroot2

end

/-! ## Paths -/

/-- The parent of what is in the hole of a path below `q`. -/
def pathParent : List (Frame Nat) → Nat → Nat
  | [], q => q
  | f :: _, _ => f.elem

/-- The cells of a path whose top has the parent `q`, with a tree at `x` in its hole. -/
def pathCells : List (Frame Nat) → Nat → Nat → Cells
  | [], _, _ => 0
  | f :: path, q, x =>
    {(f.elem, RbNode.of (pathParent path q ||| colorBit f.color) f.side x (ptr f.sib))} +
      (cells f.sib f.elem + pathCells path q f.elem)

section

variable {s : RbTree} {R : Cells} {path ctx : List (Frame Nat)} {q x : Nat}

section

variable (path ctx)

theorem ctxParent_append : ctxParent (path ++ ctx) = pathParent path (ctxParent ctx) := by
  cases path <;> rfl

theorem pathParent_append (q : Nat) :
    pathParent (path ++ ctx) q = pathParent path (pathParent ctx q) := by
  cases path <;> rfl

theorem rootPtr_append (x : Nat) : rootPtr (path ++ ctx) x = rootPtr ctx (rootPtr path x) := by
  induction path generalizing x with
  | nil => rfl
  | cons f path ih => exact ih f.elem

theorem ctxCells_append (x : Nat) : ctxCells (path ++ ctx) x =
      pathCells path (ctxParent ctx) x + ctxCells ctx (rootPtr path x) := by
  induction path generalizing x with
  | nil => exact (zero_add _).symm
  | cons f path ih =>
    rw [cons_append, ctxCells, ih, ctxParent_append, pathCells, rootPtr]
    abel

theorem plug_append (t : ColorTree Nat) : plug (path ++ ctx) t = plug ctx (plug path t) := by
  induction path generalizing t with
  | nil => rfl
  | cons f path ih => exact ih _

end

theorem Holds.reparentPath (h : Holds s (pathCells path q x + R)) (hq : q % 8 = 0)
    (hpath : path ≠ []) (q' : Nat) :
    Holds (s.rbSetParent (rootPtr path x) q') (pathCells path q' x + R) := by
  induction path generalizing x R with
  | nil => exact absurd rfl hpath
  | cons f path ih =>
    cases path with
    | nil =>
      have h0 : Holds s ({(f.elem, of (q ||| colorBit f.color) f.side x (ptr f.sib))} +
          (cells f.sib f.elem + R)) := by
        refine h.congr ?_
        simp only [pathCells, pathParent]
        abel
      have h1 := h0.setPc (q' ||| colorBit f.color)
      rw [setPc_of] at h1
      rw [rbSetParent, rootPtr, rootPtr, h0.read, parentColor_of, pcColor_or hq, Nat.or_comm]
      refine h1.congr ?_
      simp only [pathCells, pathParent]
      abel
    | cons g path =>
      have h0 : Holds s (pathCells (g :: path) q f.elem + ({(f.elem,
          of (g.elem ||| colorBit f.color) f.side x (ptr f.sib))} +
            (cells f.sib f.elem + R))) := by
        refine h.congr ?_
        rw [pathCells, pathParent]
        abel
      have hcells : pathCells (f :: g :: path) q' x = {(f.elem,
          of (g.elem ||| colorBit f.color) f.side x (ptr f.sib))} +
            (cells f.sib f.elem + pathCells (g :: path) q' f.elem) := rfl
      have h1 := ih h0 (cons_ne_nil _ _)
      refine h1.congr ?_
      rw [hcells]
      abel

theorem Holds.setChildPath {f : Frame Nat} (h : Holds s (pathCells (f :: path) q x + R))
    (x' : Nat) : Holds (s.setChild f.elem f.side x') (pathCells (f :: path) q x' + R) := by
  have h0 : Holds s ({(f.elem, of (pathParent path q ||| colorBit f.color) f.side x
      (ptr f.sib))} + (cells f.sib f.elem + pathCells path q f.elem + R)) := by
    refine h.congr ?_
    rw [pathCells]
    abel
  have h1 := h0.setChild f.side x'
  rw [setChild_of] at h1
  refine h1.congr ?_
  rw [pathCells]
  abel

theorem before_path (hpath : ∀ f ∈ path, f.side = .left) : before path = [] := by
  induction path with
  | nil => rfl
  | cons f path ih =>
    rw [before, hpath f (mem_cons_self ..)]
    exact ih (fun g hg => hpath g (mem_cons_of_mem _ hg))

/-- The loop that looks for the successor ends at the end of the path of left children. -/
theorem rbSuccessor_spec {t : ColorTree Nat} (fuel : Nat) (h : Holds s (cells t q + R)) (ht : t ≠ .nil)
    (hfuel : t.toList.length ≤ fuel) :
    ∃ path c y r, t = plug path (.node c .nil y r) ∧ (∀ f ∈ path, f.side = .left) ∧
      rbSuccessor s fuel q (ptr t) = some (pathParent path q, y) := by
  induction t generalizing q R fuel with
  | nil => exact absurd rfl ht
  | node c l a r ihl _ =>
    cases fuel with
    | zero => simp [toList] at hfuel
    | succ fuel =>
      have ha : Holds s ({(a, ⟨q ||| colorBit c, ptr r, ptr l⟩)} + (cells l a + cells r a + R)) :=
        h.congr (by
          rw [cells]
          abel)
      rw [ptr, rbSuccessor, ha.read]
      dsimp only
      cases hl : l with
      | nil => exact ⟨[], c, a, r, rfl, by simp, if_neg (fun he => he rfl)⟩
      | node c1 l1 b r1 =>
        have hnil : l ≠ .nil := by
          rw [hl]
          intro he
          cases he
        rw [← hl]
        have hl' : Holds s (cells l a + ({(a, ⟨q ||| colorBit c, ptr r, ptr l⟩)} + cells r a +
            R)) := ha.congr (by abel)
        simp only [toList, length_append, length_cons] at hfuel
        obtain ⟨path, cy, y, ry, hplug, hpath, hrun⟩ := ihl fuel hl' hnil (by omega)
        refine ⟨path ++ [⟨.left, c, a, r⟩], cy, y, ry, ?_, ?_, ?_⟩
        · rw [plug_append, ← hplug]
          rfl
        · intro f hf
          rcases mem_append.mp hf with hf | hf
          · exact hpath f hf
          · rw [mem_singleton.mp hf]
        · rw [if_pos (hl'.ptr_ne_zero hnil), hrun, pathParent_append]
          rfl

end

/-! ## Two children -/

section

variable {s : RbTree} {M : Cells} {path ctx : List (Frame Nat)} {l r u : ColorTree Nat}
  {c cy : Color} {z y q k v w K : Nat}

theorem Holds.eraseReplace (h : Holds s ({(z, .of (holePc ctx c) .left (ptr l) k)} +
      {(y, .of w .left v K)} + cells l z + cells u q + M + ctxCells ctx z))
    (hl : l ≠ .nil) (hroot : s.root = rootPtr ctx z) (parent : Nat) :
    Holds (s.eraseReplace z y parent (ptr u)).2
      ({(y, .of (holePc ctx c) .left (ptr l) K)} + cells l y +
        cells (u.paint .black) parent + M + ctxCells ctx y) ∧
      (s.eraseReplace z y parent (ptr u)).2.root = rootPtr ctx y ∧
      (u ≠ .nil → (s.eraseReplace z y parent (ptr u)).1 = 0) ∧
      (u = .nil → (s.eraseReplace z y parent (ptr u)).1 =
        if pcColor w ≠ RB_RED then parent else 0) := by
  have hz : (z, .of (holePc ctx c) .left (ptr l) k) ∈ {(z, .of (holePc ctx c) .left (ptr l) k)} +
      {(y, .of w .left v K)} + cells l z + cells u q + M + ctxCells ctx z := by simp
  have haligned := h.ctxParent_aligned
  have hread : (s.node z).left = ptr l := congrArg left (h.val _ hz)
  have h0 : Holds s ({(y, .of w .left v K)} +
      ({(z, .of (holePc ctx c) .left (ptr l) k)} + cells l z + cells u q + M +
        ctxCells ctx z)) := h.congr (by abel)
  have h1 := h0.setChild .left (ptr l)
  rw [setChild_of] at h1
  have h2 : Holds _ (cells l z + ({(y, .of w .left (ptr l) K)} +
      {(z, .of (holePc ctx c) .left (ptr l) k)} + cells u q + M +
        ctxCells ctx z)) := h1.congr (by abel)
  have h3 := h2.reparent (h.addr _ hz).2 hl y
  have h4 : Holds _ ({(z, .of (holePc ctx c) .left (ptr l) k)} +
      ({(y, .of w .left (ptr l) K)} + cells l y + cells u q + M + ctxCells ctx z)) :=
    h3.congr (by abel)
  have hpc := h4.read
  have h5 : Holds _ ({(z, .of (holePc ctx c) .left (ptr l) k)} +
      {(y, .of w .left (ptr l) K)} + cells l y + cells u q + M + ctxCells ctx z) :=
    h4.congr (by abel)
  obtain ⟨h6, hroot6⟩ := h5.changeChild (by simp) hroot y
  -- the cell of `z` is left alone
  have hdrop : Holds _ ({(z, .of (holePc ctx c) .left (ptr l) k)} +
      ({(y, .of w .left (ptr l) K)} + (cells l y + cells u q + M + ctxCells ctx y))) :=
    h6.congr (by abel)
  have h7 := hdrop.of_add
  have hw := h7.read
  have h8 := h7.setPc (holePc ctx c)
  rw [setPc_of] at h8
  rw [RbTree.eraseReplace, hread]
  dsimp only
  rw [hpc, parentColor_of, pcParent_or haligned, hw, parentColor_of]
  cases hu : u with
  | nil =>
    rw [hu] at h8
    rw [ptr, if_neg (fun he => he rfl)]
    refine ⟨h8.congr ?_, hroot6, fun he => absurd rfl he, fun _ => rfl⟩
    simp only [cells]
    abel
  | node c1 l1 b r1 =>
    have hnil : u ≠ .nil := by
      rw [hu]
      intro he
      cases he
    have h9 : Holds _ (cells u q + ({(y, .of (holePc ctx c) .left (ptr l) K)} +
        cells l y + M + ctxCells ctx y)) := h8.congr (by abel)
    rw [← hu, if_pos (h9.ptr_ne_zero hnil)]
    refine ⟨(h9.paint hnil parent .black).congr ?_, hroot6, fun _ => rfl, fun he => absurd he hnil⟩
    abel

theorem Holds.eraseDetach {f : Frame Nat}
    (h : Holds s ({(y, .of w .left v (ptr u))} + pathCells (f :: path) z y + M))
    (hz : z % 8 = 0) (hf : f.side = .left) :
    Holds (s.eraseDetach (rootPtr (f :: path) y) y f.elem)
      ({(y, .of w .left v (rootPtr (f :: path) (ptr u)))} + pathCells (f :: path) y (ptr u) + M) := by
  have hread : (s.node y).right = ptr u :=
    congrArg right (h.val (y, .of w .left v (ptr u)) (by simp))
  have h0 : Holds s (pathCells (f :: path) z y + ({(y, .of w .left v (ptr u))} + M)) :=
    h.congr (by abel)
  have h1 := h0.setChildPath (ptr u)
  rw [hf] at h1
  have h2 : Holds _ ({(y, .of w .left v (ptr u))} + (pathCells (f :: path) z (ptr u) + M)) :=
    h1.congr (by abel)
  have h3 := h2.setChild (Side.flip .left) (rootPtr (f :: path) y)
  rw [setChild_flip_of] at h3
  have h4 : Holds _ (pathCells (f :: path) z (ptr u) +
      ({(y, .of w .left v (rootPtr (f :: path) y))} + M)) := h3.congr (by abel)
  have h5 := h4.reparentPath hz (cons_ne_nil _ _) y
  rw [RbTree.eraseDetach, hread]
  refine h5.congr ?_
  rw [rootPtr, rootPtr]
  abel

/-- The tree after the successor `y` at the end of `path` has taken the place of `z`. -/
theorem Erased.of_successor {m p : Nat} (hp : p % 8 = 0)
    (h : Holds s ({(z, .of (holePc ctx c) .left (ptr l) k)} +
      {(y, .of (p ||| colorBit cy) .left v (rootPtr path (ptr u)))} + cells l z + cells u q +
      pathCells path y (ptr u) + ctxCells ctx z))
    (hl : l ≠ .nil) (hroot : s.root = rootPtr ctx z)
    (hbal : Balanced (plug (path ++ ⟨.right, c, z, l⟩ :: ctx) (.node cy .nil y u)) .black m) :
    Erased (s.eraseReplace z y (pathParent path y) (ptr u)).1
      (s.eraseReplace z y (pathParent path y) (ptr u)).2
      (plug (path ++ ⟨.right, c, y, l⟩ :: ctx) u).toList := by
  obtain ⟨h1, hroot1, hsome, hnone⟩ := h.eraseReplace hl hroot (pathParent path y)
  obtain ⟨c', n, hfits, hy⟩ := hbal.unplug
  have hparent : ctxParent (path ++ ⟨.right, c, y, l⟩ :: ctx) = pathParent path y :=
    ctxParent_append _ _
  have hat : RbAt (s.eraseReplace z y (pathParent path y) (ptr u)).2
      (path ++ ⟨.right, c, y, l⟩ :: ctx) (u.paint .black) := by
    constructor
    · refine h1.congr ?_
      rw [hparent, ptr_paint, ctxCells_append, ctxCells, ctxParent]
      have hof : of (holePc ctx c) .right (rootPtr path (ptr u)) (ptr l) =
          of (holePc ctx c) .left (ptr l) (rootPtr path (ptr u)) := rfl
      rw [hof]
      abel
    · rw [rootPtr_append]
      exact hroot1
  refine Erased.of_hole (d := .left) (a := y) (c := cy) hat hy hfits.replace hsome ?_
  intro hu
  rw [hnone hu, hparent, pcColor_or hp]
  cases cy <;> rfl

theorem toList_successor (hpath : ∀ f ∈ path, f.side = .left) :
    (plug (path ++ ⟨.right, c, y, l⟩ :: ctx) u).toList =
      before ctx ++ l.toList ++ (plug path (.node cy .nil y u)).toList ++ after ctx := by
  rw [plug_append, plug, toList_plug, toList_plug path, before_path hpath]
  simp [ColorTree.mk, ColorTree.toList, toList_plug, before_path hpath]

theorem erased_right_child {m : Nat} (h : RbAt s ctx (.node c l z (.node cy .nil y u)))
    (hl : l ≠ .nil) (hbal : Balanced (plug ctx (.node c l z (.node cy .nil y u))) .black m) :
    Erased (s.eraseReplace z y y (ptr u)).1 (s.eraseReplace z y y (ptr u)).2
      (before ctx ++ l.toList ++ (ColorTree.node cy .nil y u).toList ++ after ctx) := by
  have h0 : Holds s ({(z, .of (holePc ctx c) .left (ptr l) y)} +
      {(y, .of (z ||| colorBit cy) .left 0 (rootPtr [] (ptr u)))} + cells l z + cells u y +
      pathCells [] y (ptr u) + ctxCells ctx z) := by
    refine h.holds.congr ?_
    simp only [cells_node, cells_nil, ptr_node, ptr_nil, rootPtr, pathCells]
    abel
  have hz := h0.addr (z, .of (holePc ctx c) .left (ptr l) y) (by simp)
  have hnil : ∀ f ∈ ([] : List (Frame Nat)), f.side = .left := by simp
  have hlist : (plug ([] ++ ⟨.right, c, y, l⟩ :: ctx) u).toList =
      before ctx ++ l.toList ++ (node cy .nil y u).toList ++ after ctx := toList_successor hnil
  rw [← hlist]
  exact Erased.of_successor hz.2 h0 hl h.root hbal

theorem erased_further {m : Nat} (hne : path ≠ [])
    (h : RbAt s ctx (.node c l z (plug path (.node cy .nil y u)))) (hl : l ≠ .nil)
    (hpath : ∀ g ∈ path, g.side = .left)
    (hbal : Balanced (plug ctx (.node c l z (plug path (.node cy .nil y u)))) .black m) :
    (s.node y).right = ptr u ∧
    Erased
      ((s.eraseDetach (rootPtr path y) y (pathParent path z)).eraseReplace z y (pathParent path z)
        (ptr u)).1
      ((s.eraseDetach (rootPtr path y) y (pathParent path z)).eraseReplace z y (pathParent path z)
        (ptr u)).2
      (before ctx ++ l.toList ++ (plug path (.node cy .nil y u)).toList ++ after ctx) := by
  have hplug : plug (path ++ ⟨.right, c, z, l⟩ :: ctx) (.node cy .nil y u) =
      plug ctx (.node c l z (plug path (.node cy .nil y u))) := plug_append _ _ _
  have hat : RbAt s (path ++ ⟨.right, c, z, l⟩ :: ctx) (.node cy .nil y u) := by
    rw [RbAt.iff_plug, hplug]
    exact RbAt.iff_plug.mp h
  cases path with
  | nil => exact absurd rfl hne
  | cons f path =>
    have h0 : Holds s ({(y, .of (f.elem ||| colorBit cy) .left 0 (ptr u))} +
        pathCells (f :: path) z y + (cells u y +
        {(z, .of (holePc ctx c) .left (ptr l) (rootPtr (f :: path) y))} +
        cells l z + ctxCells ctx z)) := by
      refine hat.holds.congr ?_
      have hof : of (holePc ctx c) .right (rootPtr (f :: path) y) (ptr l) =
          of (holePc ctx c) .left (ptr l) (rootPtr (f :: path) y) := rfl
      rw [ctxCells_append, ctxParent_append, cells_node, ctxCells, pathParent, ptr_node, ctxParent,
        ptr_nil, cells_nil, hof]
      abel
    have hy : s.node y = .of (f.elem ||| colorBit cy) .left 0 (ptr u) := h0.read_mem (by simp)
    have hz := h0.addr (z, .of (holePc ctx c) .left (ptr l) (rootPtr (f :: path) y)) (by simp)
    have hf := h0.addr (f.elem, .of (pathParent path z ||| colorBit f.color) f.side y (ptr f.sib))
      (by simp [pathCells])
    refine ⟨congrArg right hy, ?_⟩
    have h1 := h0.eraseDetach hz.2 (hpath f (mem_cons_self ..))
    have h2 : Holds _ ({(z, .of (holePc ctx c) .left (ptr l)
        (rootPtr (f :: path) y))} + {(y, .of (f.elem ||| colorBit cy) .left 0
        (rootPtr (f :: path) (ptr u)))} + cells l z + cells u y +
        pathCells (f :: path) y (ptr u) + ctxCells ctx z) := h1.congr (by abel)
    have hlist : (plug ((f :: path) ++ ⟨.right, c, y, l⟩ :: ctx) u).toList =
        before ctx ++ l.toList ++ (plug (f :: path) (.node cy .nil y u)).toList ++ after ctx :=
      toList_successor hpath
    have hroot : (s.eraseDetach (rootPtr (f :: path) y) y f.elem).root = rootPtr ctx z := h.root
    rw [← hplug] at hbal
    have herased := Erased.of_successor hf.2 h2 hl hroot hbal
    rw [hlist, pathParent] at herased
    exact herased

theorem rbEraseNode_two {m fuel : Nat} (h : RbAt s ctx (.node c l z r)) (hl : l ≠ .nil)
    (hr : r ≠ .nil) (hbal : Balanced (plug ctx (.node c l z r)) .black m)
    (hfuel : r.toList.length ≤ fuel) :
    ∃ rebalance s', rbEraseNode fuel z s = some (rebalance, s') ∧
      Erased rebalance s' (before ctx ++ l.toList ++ r.toList ++ after ctx) := by
  have hz : Holds s ({(z, .of (holePc ctx c) .left (ptr l) (ptr r))} +
      (cells r z + (cells l z + ctxCells ctx z))) := by
    refine h.holds.congr ?_
    rw [cells_node, ptr]
    abel
  have hlz : Holds s (cells l z + ({(z, .of (holePc ctx c) .left (ptr l) (ptr r))} +
      (cells r z + ctxCells ctx z))) := hz.congr (by abel)
  have hrz : Holds s (cells r z + ({(z, .of (holePc ctx c) .left (ptr l) (ptr r))} +
      (cells l z + ctxCells ctx z))) := hz.congr (by abel)
  have hread := hz.read
  have hright : (s.node z).right = ptr r := by
    rw [hread]
    rfl
  have hleft : (s.node z).left = ptr l := by
    rw [hread]
    rfl
  rw [rbEraseNode, hright, hleft, if_neg (hlz.ptr_ne_zero hl), if_neg (hrz.ptr_ne_zero hr)]
  cases r with
  | nil => exact absurd rfl hr
  | node c0 l0 b r0 =>
    have hb : Holds s ({(b, .of (z ||| colorBit c0) .left (ptr l0) (ptr r0))} +
        (cells l0 b + (cells r0 b + ({(z, .of (holePc ctx c) .left (ptr l) b)} +
          (cells l z + ctxCells ctx z))))) := by
      refine hrz.congr ?_
      rw [cells_node, ptr]
      abel
    have hbread := hb.read
    have hbleft : (s.node b).left = ptr l0 := by
      rw [hbread]
      rfl
    have hbright : (s.node b).right = ptr r0 := by
      rw [hbread]
      rfl
    rw [ptr, hbleft, hbright]
    cases hl0 : l0 with
    | nil =>
      rw [hl0] at h hbal
      rw [ptr, if_pos rfl]
      exact ⟨_, _, rfl, erased_right_child h hl hbal⟩
    | node c1 l1 e r1 =>
      have hnil : l0 ≠ .nil := by
        rw [hl0]
        intro he
        cases he
      rw [← hl0]
      have hl0' : Holds s (cells l0 b + ({(b, .of (z ||| colorBit c0) .left (ptr l0) (ptr r0))} +
          (cells r0 b + ({(z, .of (holePc ctx c) .left (ptr l) b)} +
            (cells l z + ctxCells ctx z))))) := hb.congr (by abel)
      simp only [toList, length_append, length_cons] at hfuel
      obtain ⟨path, cy, y, u, hplug, hpath, hrun⟩ := rbSuccessor_spec fuel hl0' hnil (by omega)
      have hpath' : ∀ g ∈ path ++ [⟨.left, c0, b, r0⟩], g.side = .left := by
        intro g hg
        rcases mem_append.mp hg with hg | hg
        · exact hpath g hg
        · rw [mem_singleton.mp hg]
      have hr' : node c0 l0 b r0 =
          plug (path ++ [⟨.left, c0, b, r0⟩]) (.node cy .nil y u) := by
        rw [plug_append, ← hplug]
        rfl
      rw [hr'] at h hbal
      obtain ⟨hu, herased⟩ := erased_further (by simp) h hl hpath' hbal
      rw [rootPtr_append, pathParent_append, ← hr'] at herased
      rw [if_neg (hl0'.ptr_ne_zero hnil), hrun]
      refine ⟨_, _, rfl, ?_⟩
      rw [hu]
      exact herased

end

/-! ## `_rb_erase` -/

section

variable {s : RbTree} {ctx : List (Frame Nat)} {l r t : ColorTree Nat} {c : Color} {z m fuel : Nat}

theorem rbEraseNode_spec (h : RbAt s ctx (.node c l z r))
    (hbal : Balanced (plug ctx (.node c l z r)) .black m) (hfuel : r.toList.length ≤ fuel) :
    ∃ rebalance s', rbEraseNode fuel z s = some (rebalance, s') ∧
      Erased rebalance s' (before ctx ++ l.toList ++ r.toList ++ after ctx) := by
  have hz : Holds s ({(z, .of (holePc ctx c) .left (ptr l) (ptr r))} +
      (cells l z + cells r z + ctxCells ctx z)) := by
    refine h.holds.congr ?_
    rw [cells_node, ptr_node]
    abel
  have hread := hz.read
  have hright : (s.node z).right = ptr r := by
    rw [hread]
    rfl
  have hleft : (s.node z).left = ptr l := by
    rw [hread]
    rfl
  obtain ⟨c', n, hfits, hnode⟩ := hbal.unplug
  cases l with
  | nil =>
    obtain ⟨hat, hsome, hnone⟩ := h.eraseNoLeft
    have hmk : Balanced (.mk c .left .nil z r) c' n := hnode
    rw [paint_only_child hmk] at hat
    refine ⟨(s.eraseNoLeft z (ptr r)).1, (s.eraseNoLeft z (ptr r)).2, ?_, ?_⟩
    · rw [rbEraseNode, hright, hleft, ptr_nil, if_pos rfl]
    · have herased := Erased.of_hole hat hmk hfits hsome hnone
      rw [toList_plug] at herased
      simpa [toList] using herased
  | node c1 l1 b r1 =>
    have hl : node c1 l1 b r1 ≠ .nil := fun he => by cases he
    have hlz : Holds s (cells (.node c1 l1 b r1) z +
        ({(z, .of (holePc ctx c) .left (ptr (.node c1 l1 b r1)) (ptr r))} +
          cells r z + ctxCells ctx z)) := hz.congr (by abel)
    cases r with
    | nil =>
      obtain ⟨hat, hzero⟩ := h.eraseNoRight hl
      have hmk : Balanced (.mk c .right .nil z (.node c1 l1 b r1)) c' n := hnode
      rw [paint_only_child hmk] at hat
      refine ⟨(s.eraseNoRight z b).1, (s.eraseNoRight z b).2, ?_, ?_⟩
      · rw [rbEraseNode, hright, hleft, if_neg (hlz.ptr_ne_zero hl), ptr_nil, if_pos rfl, ptr_node]
      · have herased := Erased.of_hole hat hmk hfits (fun _ => hzero) (fun he => absurd he hl)
        rw [toList_plug] at herased
        simpa [toList] using herased
    | node c2 l2 e r2 => exact rbEraseNode_two h hl (fun he => by cases he) hbal hfuel

theorem rbErase_spec (h : RbAt s [] t) (hbal : Balanced t .black m) (hz : z ∈ t.toList)
    (hfuel : t.toList.length ≤ fuel) :
    ∃ s' t' m', rbErase fuel z s = some s' ∧ RbAt s' [] t' ∧ Balanced t' .black m' ∧
      ∃ xs ys, t.toList = xs ++ z :: ys ∧ t'.toList = xs ++ ys := by
  obtain ⟨ctx, c, l, r, rfl⟩ := exists_plug_of_mem hz
  have hlist : (plug ctx (.node c l z r)).toList =
      (before ctx ++ l.toList) ++ z :: (r.toList ++ after ctx) := by
    rw [toList_plug]
    simp [toList]
  have hlen : r.toList.length ≤ fuel := by
    rw [hlist] at hfuel
    simp only [length_append, length_cons] at hfuel
    omega
  obtain ⟨rebalance, s1, hnode, ctx', t1, hat, hxs, hcase⟩ :=
    rbEraseNode_spec (RbAt.iff_plug.mpr h) hbal hlen
  have hlist1 : (plug ctx' t1).toList = (before ctx ++ l.toList) ++ (r.toList ++ after ctx) := by
    rw [hxs]
    simp
  rw [rbErase, hnode]
  dsimp only
  rcases hcase with ⟨rfl, m', hm'⟩ | ⟨rfl, hne, rfl, c', hfits⟩
  · exact ⟨s1, plug ctx' t1, m', if_neg (fun hne => hne rfl), RbAt.iff_plug.mp hat, hm', _, _, hlist,
      hlist1⟩
  have hfuel' : ctx'.length ≤ fuel := by
    have := length_le_toList_plug ctx' (nil : ColorTree Nat)
    rw [hlist1] at this
    rw [hlist] at hfuel
    simp only [length_append, length_cons] at hfuel this
    omega
  obtain ⟨s', t', m', hrun, hat', hm', hxs'⟩ := rbEraseFix_spec fuel hat hne .nil hfits hfuel'
  have hparent : ctxParent ctx' ≠ 0 := by
    cases ctx' with
    | nil => exact absurd rfl hne
    | cons f ctx' => exact hat.read.1
  rw [if_pos hparent]
  exact ⟨s', t', m', hrun, hat', hm', _, _, hlist, hxs'.trans hlist1⟩

end

end OsKernel
