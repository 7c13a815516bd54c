import OsKernel.Common.RbCells

/-!
# Insertion

Each case of `__rb_insert_fix` as a change of the tree in the hole.  The loop starts with the new
node in the hole, which is red, and moves the hole up by two nodes as long as the uncle is red.
-/

namespace OsKernel

open RedBlack RbTree RbNode ColorTree

namespace Holds

variable {s : RbTree} {R : Cells} {ctx : List (Frame Nat)} {u unc x : ColorTree Nat} {d d' : Side}
  {c : Color} {p g z q v w k l : Nat}

theorem insertRecolor
    (h : Holds s ({(p, .of v d' k l)} + {(g, .of (q ||| colorBit c) d p (ptr unc))} +
      cells unc g + R))
    (hunc : unc ≠ .nil) (hq : q % 8 = 0) :
    Holds (s.insertRecolor (ptr unc) p g)
      ({(p, .of (g ||| colorBit .black) d' k l)} +
        {(g, .of (q ||| colorBit .red) d p (ptr unc))} + cells (unc.paint .black) g + R) := by
  have h0 : Holds s (cells unc g + ({(p, .of v d' k l)} +
      {(g, .of (q ||| colorBit c) d p (ptr unc))} + R)) := h.congr (by abel)
  have h1 := h0.paint hunc g .black
  have h2 : Holds _ ({(p, .of v d' k l)} + (cells (unc.paint .black) g +
      {(g, .of (q ||| colorBit c) d p (ptr unc))} + R)) := h1.congr (by abel)
  have h3 := h2.rbSetParentColor g .black
  rw [setPc_of] at h3
  have h4 : Holds _ ({(g, .of (q ||| colorBit c) d p (ptr unc))} +
      ({(p, .of (g ||| colorBit .black) d' k l)} + cells (unc.paint .black) g + R)) :=
    h3.congr (by abel)
  have hread := h4.read
  have h5 := h4.rbSetParentColor q .red
  rw [setPc_of] at h5
  have hparent : ((s.rbSetParentColor (ptr unc) g (colorBit .black)).rbSetParentColor p g
      (colorBit .black)).rbParent g = q := by
    rw [rbParent, hread, parentColor_of, pcParent_or hq]
  have hs : s.insertRecolor (ptr unc) p g =
      ((s.rbSetParentColor (ptr unc) g (colorBit .black)).rbSetParentColor p g
        (colorBit .black)).rbSetParentColor g q (colorBit .red) := by
    conv_rhs => rw [← hparent]
    rfl
  rw [hs]
  refine h5.congr ?_
  abel

theorem insertRotateInner
    (h : Holds s ({(z, .of w d (ptr x) l)} + {(p, .of v d k z)} + cells x z + R)) :
    Holds (s.insertRotateInner d z p)
      ({(z, .of w d p l)} + {(p, .of (z ||| colorBit .red) d k (ptr x))} +
        cells (x.paint .black) p + R) := by
  have hread : s.node z = .of w d (ptr x) l := h.read_mem (by simp)
  have h0 : Holds s ({(p, .of v d k z)} + ({(z, .of w d (ptr x) l)} + cells x z + R)) :=
    h.congr (by abel)
  have h1 := h0.setChild d.flip (ptr x)
  rw [setChild_flip_of] at h1
  have h2 : Holds _ (cells x z + ({(p, .of v d k (ptr x))} + {(z, .of w d (ptr x) l)} + R)) :=
    h1.congr (by abel)
  have h3 := h2.paintIf p .black
  have h4 : Holds _ ({(z, .of w d (ptr x) l)} + (cells (x.paint .black) p +
      {(p, .of v d k (ptr x))} + R)) := h3.congr (by abel)
  have h5 := h4.setChild d p
  rw [setChild_of] at h5
  have h6 : Holds _ ({(p, .of v d k (ptr x))} + ({(z, .of w d p l)} + cells (x.paint .black) p + R)) :=
    h5.congr (by abel)
  have h7 := h6.rbSetParentColor z .red
  rw [setPc_of] at h7
  rw [RbTree.insertRotateInner, hread, child_of]
  refine h7.congr ?_
  abel

theorem insertRotateOuter (h : Holds s ({(p, .of w d k v)} + {(g, .of (holePc ctx c) d z l)} +
      cells u q + R + ctxCells ctx g))
    (hroot : s.root = rootPtr ctx g) :
    Holds (s.insertRotateOuter d (ptr u) p g)
      ({(p, .of (holePc ctx c) d k g)} + {(g, .of (p ||| colorBit .red) d (ptr u) l)} +
        cells (u.paint .black) g + R + ctxCells ctx p) ∧
      (s.insertRotateOuter d (ptr u) p g).root = rootPtr ctx p := by
  have h0 : Holds s ({(g, .of (holePc ctx c) d z l)} + ({(p, .of w d k v)} +
      cells u q + R + ctxCells ctx g)) := h.congr (by abel)
  have h1 := h0.setChild d (ptr u)
  rw [setChild_of] at h1
  have h2 : Holds _ (cells u q + ({(g, .of (holePc ctx c) d (ptr u) l)} +
      {(p, .of w d k v)} + R + ctxCells ctx g)) := h1.congr (by abel)
  have h3 := h2.paintIf g .black
  have h4 : Holds _ ({(p, .of w d k v)} + (cells (u.paint .black) g +
      {(g, .of (holePc ctx c) d (ptr u) l)} + R + ctxCells ctx g)) :=
    h3.congr (by abel)
  have h5 := h4.setChild d.flip g
  rw [setChild_flip_of] at h5
  have h6 : Holds _ ({(g, .of (holePc ctx c) d (ptr u) l)} + {(p, .of w d k g)} +
      (cells (u.paint .black) g + R) + ctxCells ctx g) := h5.congr (by abel)
  have hroot' : (((s.setChild g d (ptr u)).rbSetParentColorIf (ptr u) g
      (colorBit .black)).setChild p d.flip g).root = rootPtr ctx g := by
    rw [← hroot, RbTree.rbSetParentColorIf]
    split <;> rfl
  obtain ⟨h7, hroot7⟩ := h6.rotateSetParents hroot' .red
  refine ⟨h7.congr ?_, hroot7⟩
  abel

end Holds

namespace RbAt

variable {s : RbTree} {ctx : List (Frame Nat)} {t u unc x y : ColorTree Nat} {d d' : Side}
  {p g z : Nat} {c : Color}

theorem paintRoot (h : Holds s (cells t 0 + ctxCells [] (ptr t))) (ht : t ≠ .nil) :
    RbAt { s.rbSetParentColor (ptr t) 0 RB_BLACK with root := ptr t } [] (t.paint .black) := by
  constructor
  · rw [ptr_paint]
    exact (h.paint ht 0 .black).setRoot _
  · rw [ptr_paint]
    rfl

theorem insertRecolor (h : RbAt s (⟨d', .red, p, u⟩ :: ⟨d, c, g, unc⟩ :: ctx) t)
    (hunc : unc ≠ .nil) :
    RbAt (s.insertRecolor (ptr unc) p g) ctx
      (.mk .red d (.mk .black d' t p u) g (unc.paint .black)) := by
  have h0 : Holds s ({(p, .of (g ||| colorBit .red) d' (ptr t) (ptr u))} +
      {(g, .of (holePc ctx c) d p (ptr unc))} + cells unc g +
      (cells t p + cells u p + ctxCells ctx g)) := by
    refine h.holds.congr ?_
    simp only [ctxCells, holePc, ctxParent]
    abel
  have hctx : Holds s (cells t p + cells u p + {(p, .of (g ||| colorBit .red) d' (ptr t) (ptr u))} +
      {(g, .of (holePc ctx c) d p (ptr unc))} + cells unc g + ctxCells ctx g) :=
    h0.congr (by abel)
  have h1 := h0.insertRecolor hunc hctx.ctxParent_aligned
  constructor
  · refine h1.congr ?_
    rw [cells_mk, cells_mk, ptr_mk, ptr_mk, ptr_paint]
    abel
  · rw [ptr_mk]
    exact h.root

theorem insertRotateOuter (h : RbAt s (⟨d, .red, p, u⟩ :: ⟨d, c, g, unc⟩ :: ctx) t) :
    RbAt (s.insertRotateOuter d (ptr u) p g) ctx
      (.mk c d t p (.mk .red d (u.paint .black) g unc)) := by
  have h0 : Holds s ({(p, .of (g ||| colorBit .red) d (ptr t) (ptr u))} +
      {(g, .of (holePc ctx c) d p (ptr unc))} + cells u p +
      (cells t p + cells unc g) + ctxCells ctx g) := by
    refine h.holds.congr ?_
    simp only [ctxCells, holePc, ctxParent]
    abel
  obtain ⟨h1, hroot⟩ := h0.insertRotateOuter h.root
  constructor
  · refine h1.congr ?_
    rw [cells_mk, cells_mk, ptr_mk, ptr_mk, ptr_paint]
    abel
  · rw [ptr_mk]
    exact hroot

theorem insertRotateInner
    (h : RbAt s (⟨d.flip, .red, p, u⟩ :: ⟨d, c, g, unc⟩ :: ctx) (.mk .red d x z y)) :
    ((s.insertRotateInner d z p).node z).child d.flip = ptr y ∧
    RbAt ((s.insertRotateInner d z p).insertRotateOuter d (ptr y) z g) ctx
      (.mk c d (.mk .red d u p (x.paint .black)) z (.mk .red d (y.paint .black) g unc)) := by
  have h0 : Holds s ({(z, .of (p ||| colorBit .red) d (ptr x) (ptr y))} +
      {(p, .of (g ||| colorBit .red) d (ptr u) z)} + cells x z +
      ({(g, .of (holePc ctx c) d p (ptr unc))} + cells y z + cells u p +
        cells unc g + ctxCells ctx g)) := by
    refine h.holds.congr ?_
    simp only [cells_mk, ctxCells, holePc, ctxParent, ptr_mk, of_flip]
    abel
  have h1 : Holds _ ({(z, .of (p ||| colorBit .red) d p (ptr y))} +
      {(g, .of (holePc ctx c) d p (ptr unc))} + cells y z +
      ({(p, .of (z ||| colorBit .red) d (ptr u) (ptr x))} + cells (x.paint .black) p + cells u p +
        cells unc g) + ctxCells ctx g) := h0.insertRotateInner.congr (by abel)
  have hroot : (s.insertRotateInner d z p).root = rootPtr ctx g := by
    refine Eq.trans ?_ h.root
    rw [RbTree.insertRotateInner, RbTree.rbSetParentColorIf]
    split <;> rfl
  have hz : (s.insertRotateInner d z p).node z = .of (p ||| colorBit .red) d p (ptr y) :=
    h1.read_mem (by simp)
  obtain ⟨h2, hroot2⟩ := h1.insertRotateOuter hroot
  refine ⟨by rw [hz, child_flip_of], ?_⟩
  constructor
  · refine h2.congr ?_
    rw [cells_mk, cells_mk, cells_mk, ptr_mk, ptr_mk, ptr_mk, ptr_paint, ptr_paint]
    abel
  · rw [ptr_mk]
    exact hroot2

end RbAt

/-! ## The loop -/

section

variable {s : RbTree} {ctx : List (Frame Nat)} {t u unc : ColorTree Nat} {d d' : Side} {p g : Nat}
  {c : Color} {n : Nat}

section

variable (h : RbAt s (⟨d', .red, p, u⟩ :: ⟨d, .black, g, unc⟩ :: ctx) t)

include h

/-- What the loop reads when the parent is red: the grandparent, the side of the parent and the
uncle. -/
theorem rbInsertFix_red (fuel node : Nat) : rbInsertFix (fuel + 1) node p s =
      if unc.color = .red then
        rbInsertFix fuel g (ctxParent ctx) (s.insertRecolor (ptr unc) p g)
      else some (s.insertRotate d node p g) := by
  have hp : Holds s ({(p, .of (g ||| colorBit .red) d' (ptr t) (ptr u))} +
      (cells unc g + ({(g, .of (holePc ctx .black) d p (ptr unc))} +
        (cells t p + cells u p) + ctxCells ctx g))) := by
    refine h.holds.congr ?_
    simp only [ctxCells, holePc, ctxParent]
    abel
  have hread : s.node g = .of (holePc ctx .black) d p (ptr unc) := hp.read_mem (by simp)
  have hg := hp.addr (g, .of (holePc ctx .black) d p (ptr unc)) (by simp)
  have hunc : Holds s (cells unc g + ({(p, .of (g ||| colorBit .red) d' (ptr t) (ptr u))} +
      {(g, .of (holePc ctx .black) d p (ptr unc))} +
        (cells t p + cells u p) + ctxCells ctx g)) := hp.congr (by abel)
  have hctx : Holds s (cells unc g + {(p, .of (g ||| colorBit .red) d' (ptr t) (ptr u))} +
      {(g, .of (holePc ctx .black) d p (ptr unc))} +
        (cells t p + cells u p) + ctxCells ctx g) := hunc.congr (by abel)
  have hne : p ≠ ptr unc := hp.ne_ptr (by simp)
  have hparent : s.rbParent g = ctxParent ctx := by
    rw [rbParent, hread, parentColor_of, pcParent_or hctx.ctxParent_aligned]
  have hblack : s.rbIsBlack p = false := by
    rw [rbIsBlack, hp.read, parentColor_of, pcColor_or hg.2]
    rfl
  have hgp : s.rbRedParent p = g := by
    rw [rbRedParent, hp.read, parentColor_of]
    exact Nat.or_zero g
  rw [rbInsertFix, if_neg hp.isAddr.1, hblack, if_neg Bool.false_ne_true]
  dsimp only
  rw [hgp, hread, side_of _ _ hne, child_flip_of, hparent]
  cases hu : unc with
  | nil => rw [if_neg (fun he => he.1 rfl), if_neg (fun he => by cases he)]
  | node c' l b r =>
    have hnil : unc ≠ .nil := by
      rw [hu]
      intro he
      cases he
    have hred := hunc.rbIsRed_ptr hg.2 hnil
    have hzero := hunc.ptr_ne_zero hnil
    rw [← hu]
    simp [hred, hzero]

theorem RbAt.insertRotate
    (ht : Balanced t .red n) (hu : Balanced u .black n) (hunc : Balanced unc .black n) :
    ∃ t', RbAt (s.insertRotate d (ptr t) p g) ctx t' ∧ Balanced t' .black (n + 1) ∧
      t'.toList = (ColorTree.mk .black d (.mk .red d' t p u) g unc).toList := by
  have hp : Holds s (cells t p + (cells u p + ({(p, .of (g ||| colorBit .red) d' (ptr t) (ptr u))} +
      {(g, .of (holePc ctx .black) d p (ptr unc))} + cells unc g +
        ctxCells ctx g))) := by
    refine h.holds.congr ?_
    simp only [ctxCells, holePc, ctxParent]
    abel
  have hread : s.node p = .of (g ||| colorBit .red) d' (ptr t) (ptr u) := hp.read_mem (by simp)
  have hnil : t ≠ .nil := by
    intro he
    rw [he] at ht
    cases ht
  have hne : ptr t ≠ ptr u := hp.ne_ptr (mem_cells_ptr hnil)
  have hpaint : ∀ {v : ColorTree Nat}, Balanced v .black n → v.paint .black = v := by
    intro v hv
    rw [← hv.color_eq]
    exact v.paint_color
  rw [RbTree.insertRotate, hread]
  dsimp only
  cases hd : decide (d' = d) with
  | true =>
    obtain rfl : d' = d := of_decide_eq_true hd
    rw [child_flip_of, if_neg hne]
    refine ⟨_, h.insertRotateOuter, ?_, ?_⟩
    · rw [hpaint hu]
      exact ht.mkBlack (hu.mkRed hunc)
    · rw [hpaint hu]
      cases d' <;> simp [ColorTree.mk, ColorTree.toList]
  | false =>
    have hd' : d' = d.flip := by
      revert hd
      cases d <;> cases d' <;> decide
    subst hd'
    obtain ⟨x, z, y, rfl, hx, hy⟩ := ht.exists_mk_of_red d
    obtain ⟨hchild, hrot⟩ := h.insertRotateInner
    rw [child_of, if_pos rfl, ptr_mk, hchild]
    refine ⟨_, hrot, ?_, ?_⟩
    · rw [hpaint hx, hpaint hy]
      exact (hu.mkRed hx).mkBlack (hy.mkRed hunc)
    · rw [hpaint hx, hpaint hy]
      cases d <;> simp [ColorTree.mk, ColorTree.toList, Side.flip]

end

theorem rbInsertFix_spec (fuel : Nat) (h : Holds s (cells t (ctxParent ctx) + ctxCells ctx (ptr t)))
    (hroot : ctx ≠ [] → s.root = rootPtr ctx (ptr t)) (ht : Balanced t .red n)
    (hctx : Fits ctx .black n) (hfuel : ctx.length < fuel) :
    ∃ s' t' m, rbInsertFix fuel (ptr t) (ctxParent ctx) s = some s' ∧ RbAt s' [] t' ∧
      Balanced t' .black m ∧ t'.toList = (plug ctx t).toList := by
  induction fuel generalizing s ctx t n with
  | zero => exact absurd hfuel (Nat.not_lt_zero _)
  | succ fuel ih =>
    have hnil : t ≠ .nil := by
      intro he
      rw [he] at ht
      cases ht
    cases hctx with
    | root =>
      refine ⟨_, _, _, ?_, RbAt.paintRoot h hnil, ht.paint_black, toList_paint _ _⟩
      rw [rbInsertFix, ctxParent, if_pos rfl]
    | @black d a sib ctx _ _ _ hsib hctx =>
      have hs : RbAt s (⟨d, .black, a, sib⟩ :: ctx) t := ⟨h, hroot (List.cons_ne_nil _ _)⟩
      have ha : Holds s ({(a, .of (holePc ctx .black) d (ptr t) (ptr sib))} +
          (cells t a + (cells sib a + ctxCells ctx a))) := by
        refine h.congr ?_
        simp only [ctxCells, holePc, ctxParent]
        abel
      have hctx' : Holds s (cells t a + {(a, .of (holePc ctx .black) d (ptr t)
          (ptr sib))} + cells sib a + ctxCells ctx a) := ha.congr (by abel)
      have hblack : s.rbIsBlack a = true := by
        rw [rbIsBlack, ha.read, parentColor_of, pcColor_or hctx'.ctxParent_aligned]
        rfl
      obtain ⟨m, hm⟩ := hctx.plug (ht.mkBlack hsib)
      refine ⟨s, _, m, ?_, RbAt.iff_plug.mp hs, hm, rfl⟩
      rw [rbInsertFix, ctxParent, if_neg ha.isAddr.1, if_pos hblack]
    | @red d' p u ctx _ hu hctx =>
      cases hctx with
      | @black d g unc ctx _ c n hunc hctx =>
        have hs : RbAt s (⟨d', .red, p, u⟩ :: ⟨d, .black, g, unc⟩ :: ctx) t :=
          ⟨h, hroot (List.cons_ne_nil _ _)⟩
        rw [ctxParent, rbInsertFix_red hs]
        cases c with
        | red =>
          -- the hole moves up to the grandparent, which is red now
          obtain ⟨x, a, y, rfl, _, _⟩ := hunc.exists_mk_of_red .left
          have hs' := hs.insertRecolor (fun he => by cases he)
          have ht' := (ht.mkBlack (d := d') (a := p) hu).mkRed (d := d) (a := g)
            hunc.paint_black
          have hlen : ctx.length < fuel := by
            simp only [List.length_cons] at hfuel
            omega
          obtain ⟨s', t', m, hrun, hat, hm, hlist⟩ := ih hs'.holds (fun _ => hs'.root) ht' hctx hlen
          rw [ptr_mk] at hrun
          refine ⟨s', t', m, ?_, hat, hm, ?_⟩
          · rw [if_pos hunc.color_eq]
            exact hrun
          · rw [hlist, plug, plug]
            refine toList_plug_congr ?_
            cases d <;> cases d' <;> simp [ColorTree.mk, ColorTree.toList]
        | black =>
          obtain ⟨t', hat, ht', hlist⟩ := hs.insertRotate ht hu hunc
          obtain ⟨m, hm⟩ := hctx.plug ht'
          refine ⟨_, _, m, ?_, RbAt.iff_plug.mp hat, hm, ?_⟩
          · rw [if_neg]
            rw [hunc.color_eq]
            decide
          · rw [plug, plug]
            exact toList_plug_congr hlist

end

/-! ## The search -/

/-- The new node hangs in the hole; `root->rb_node` is not set for a new root. -/
def Attached (s : RbTree) (ctx : List (Frame Nat)) (node : Nat) : Prop :=
  Holds s (cells (.node .red .nil node .nil) (ctxParent ctx) + ctxCells ctx node) ∧
    (ctx ≠ [] → s.root = rootPtr ctx node)

/-- The search has come to `t`, with the new node beside the tree. -/
def Searching (s : RbTree) (ctx : List (Frame Nat)) (t : ColorTree Nat) (node : Nat) : Prop :=
  Holds s ({(node, ⟨0, 0, 0⟩)} + (cells t (ctxParent ctx) + ctxCells ctx (ptr t))) ∧
    s.root = rootPtr ctx (ptr t)

/-- The hole is the place of `node` in the order. -/
def IsPlace (cmp : Nat → Nat → Bool) (node : Nat) (ctx : List (Frame Nat)) : Prop :=
  (∀ b ∈ before ctx, cmp b node = true) ∧ ∀ b ∈ after ctx, cmp node b = true

section

variable {cmp : Nat → Nat → Bool} {node : Nat} {s : RbTree} {ctx : List (Frame Nat)}

variable {c : Color} {d : Side}

theorem Searching.attach {sib : ColorTree Nat} {a : Nat}
    (h : Searching s ctx (.mk c d .nil a sib) node) :
    Attached ((s.setChild a d node).setPc node a) (⟨d, c, a, sib⟩ :: ctx) node := by
  obtain ⟨h, hroot⟩ := h
  rw [ptr_mk] at h hroot
  have h0 : Holds s ({(a, .of (holePc ctx c) d 0 (ptr sib))} +
      ({(node, ⟨0, 0, 0⟩)} + (cells sib a + ctxCells ctx a))) := by
    refine h.congr ?_
    simp only [cells_mk, holePc, cells, ptr]
    abel
  have h1 := h0.setChild d node
  rw [setChild_of] at h1
  have h2 : Holds _ ({(node, ⟨0, 0, 0⟩)} + ({(a, .of (holePc ctx c) d node (ptr sib))} +
        (cells sib a + ctxCells ctx a))) := h1.congr (by abel)
  refine ⟨(h2.setPc a).congr ?_, fun _ => hroot⟩
  have hred : a ||| colorBit .red = a := Nat.or_zero a
  simp only [cells, ctxCells, holePc, ctxParent, ptr, hred]
  abel

theorem Searching.child {x sib : ColorTree Nat} {a : Nat}
    (h : Searching s ctx (.mk c d x a sib) node) : Searching s (⟨d, c, a, sib⟩ :: ctx) x node := by
  obtain ⟨h, hroot⟩ := h
  rw [ptr_mk] at h hroot
  refine ⟨h.congr ?_, hroot⟩
  simp only [cells_mk, ctxCells, ctxParent]
  abel

theorem Searching.read {x sib : ColorTree Nat} {a : Nat}
    (h : Searching s ctx (.mk c d x a sib) node) :
    a ≠ 0 ∧ (s.node a).child d = ptr x := by
  have ha : Holds s ({(a, .of (holePc ctx c) d (ptr x) (ptr sib))} +
      ({(node, ⟨0, 0, 0⟩)} + (cells x a + cells sib a + ctxCells ctx a))) := by
    refine h.1.congr ?_
    rw [ptr_mk, cells_mk]
    abel
  refine ⟨ha.isAddr.1, ?_⟩
  rw [ha.read, child_of]

theorem Searching.turn {x sib : ColorTree Nat} {a : Nat}
    (h : Searching s ctx (.mk c d x a sib) node) :
    (x = .nil → Attached (if ptr x = 0 then (s.setChild a d node).setPc node a else s)
      (⟨d, c, a, sib⟩ :: ctx) node) ∧
    (x ≠ .nil → Searching (if ptr x = 0 then (s.setChild a d node).setPc node a else s)
      (⟨d, c, a, sib⟩ :: ctx) x node) := by
  constructor
  · rintro rfl
    exact h.attach
  intro hx
  have hchild := h.child
  have hcells : Holds s (cells x a + ({(node, ⟨0, 0, 0⟩)} +
      ctxCells (⟨d, c, a, sib⟩ :: ctx) (ptr x))) := by
    refine hchild.1.congr ?_
    rw [ctxParent]
    abel
  rw [if_neg (hcells.ptr_ne_zero hx)]
  exact hchild

theorem pairwise_place {xs ys : List Nat} (h : (xs ++ ys).Pairwise (cmp · · = true))
    (hxs : ∀ b ∈ xs, cmp b node = true) (hys : ∀ b ∈ ys, cmp node b = true) :
    (xs ++ node :: ys).Pairwise (cmp · · = true) := by
  rw [List.pairwise_append] at h
  rw [List.pairwise_append, List.pairwise_cons]
  refine ⟨h.1, ⟨hys, h.2.1⟩, ?_⟩
  intro b hb e he
  rcases List.mem_cons.mp he with rfl | he
  · exact hxs b hb
  · exact h.2.2 b hb e he

variable [IsStrictOrder Nat (cmp · · = true)]

theorem rbInsertLoop_spec {t : ColorTree Nat} (fuel : Nat) (hnil : t = .nil → Attached s ctx node)
    (hnode : t ≠ .nil → Searching s ctx t node) (hplace : IsPlace cmp node ctx)
    (hsorted : t.toList.Pairwise (cmp · · = true))
    (hcmp : ∀ b ∈ t.toList, cmp node b = true ∨ cmp b node = true) (hfuel : t.toList.length < fuel) :
    ∃ s' ctx', rbInsertLoop cmp node fuel (ptr t) s = some (some s') ∧ Attached s' ctx' node ∧
      plug ctx' .nil = plug ctx t ∧ IsPlace cmp node ctx' := by
  induction t generalizing s ctx fuel with
  | nil =>
    cases fuel with
    | zero => exact absurd hfuel (Nat.not_lt_zero _)
    | succ fuel => exact ⟨s, ctx, by rw [rbInsertLoop, ptr, if_pos rfl], hnil rfl, rfl, hplace⟩
  | node c l a r ihl ihr =>
    obtain ⟨fuel, rfl⟩ := Nat.exists_eq_add_one.mpr (Nat.zero_lt_of_lt hfuel)
    have h : Searching s ctx (.mk c .left l a r) node := hnode (fun he => by cases he)
    have h' : Searching s ctx (.mk c .right r a l) node := h
    have hread := h.read
    have hread' := h'.read
    obtain ⟨hl, ⟨hal, hr⟩, hlar⟩ : l.toList.Pairwise (cmp · · = true) ∧
        ((∀ b ∈ r.toList, cmp a b = true) ∧ r.toList.Pairwise (cmp · · = true)) ∧
        ∀ b ∈ l.toList, ∀ e ∈ a :: r.toList, cmp b e = true := by
      simpa [toList, List.pairwise_append] using hsorted
    simp only [toList, List.length_append, List.length_cons] at hfuel
    rw [ptr, rbInsertLoop, if_neg hread.1]
    have hcmpl : ∀ b ∈ l.toList, cmp node b = true ∨ cmp b node = true := fun b hb =>
      hcmp b (List.mem_append_left _ hb)
    have hcmpr : ∀ b ∈ r.toList, cmp node b = true ∨ cmp b node = true := fun b hb =>
      hcmp b (List.mem_append_right _ (List.mem_cons_of_mem _ hb))
    rcases hcmp a (List.mem_append_right _ (List.mem_cons_self ..)) with hlt | hgt
    · -- before `a`: the elements of `r` come after it
      obtain ⟨hn, hs⟩ := h.turn
      rw [if_pos hlt]
      have hnext : (s.node a).left = ptr l := hread.2
      rw [hnext]
      refine ihl fuel hn hs ⟨hplace.1, ?_⟩ hl hcmpl (by omega)
      intro b hb
      rcases List.mem_append.mp hb with hb | hb
      · rcases List.mem_cons.mp hb with rfl | hb
        · exact hlt
        · exact trans_of (cmp · · = true) hlt (hal b hb)
      · exact hplace.2 b hb
    · obtain ⟨hn, hs⟩ := h'.turn
      have hnot : ¬cmp node a = true := fun hlt => irrefl_of (cmp · · = true) a
        (trans_of (cmp · · = true) hgt hlt)
      rw [if_neg hnot, if_pos hgt]
      have hnext : (s.node a).right = ptr r := hread'.2
      rw [hnext]
      refine ihr fuel hn hs ⟨?_, hplace.2⟩ hr hcmpr (by omega)
      intro b hb
      rcases List.mem_append.mp hb with hb | hb
      · exact hplace.1 b hb
      · rcases List.mem_append.mp hb with hb | hb
        · exact trans_of (cmp · · = true) (hlar b hb a (List.mem_cons_self ..)) hgt
        · rw [List.mem_singleton.mp hb]
          exact hgt

/-- `_rb_insert` of a node that is not in the tree, and comes before or after each node of it. -/
theorem rbInsert_spec {t : ColorTree Nat} {m fuel : Nat} (h : RbAt s [] t) (ht : Balanced t .black m)
    (hsorted : t.toList.Pairwise (cmp · · = true)) (haddr : IsAddr node) (hnew : node ∉ t.toList)
    (hcmp : ∀ b ∈ t.toList, cmp node b = true ∨ cmp b node = true)
    (hfuel : t.toList.length < fuel) :
    ∃ s' t' m', rbInsert cmp fuel node s = some (0, s') ∧ RbAt s' [] t' ∧ Balanced t' .black m' ∧
      ∃ xs ys, t.toList = xs ++ ys ∧ t'.toList = xs ++ node :: ys ∧
        (∀ b ∈ xs, cmp b node = true) ∧ ∀ b ∈ ys, cmp node b = true := by
  have hfree : node ∉ (cells t (ctxParent []) + ctxCells [] (ptr t)).map Prod.fst := by
    rw [ctxCells, add_zero, map_fst_cells]
    exact hnew
  have hfresh := h.holds.alloc hfree haddr ⟨0, 0, 0⟩
  have hnil : t = .nil →
      Attached { s with node := Function.update s.node node ⟨0, 0, 0⟩ } [] node := by
    rintro rfl
    refine ⟨hfresh.congr ?_, fun hne => absurd rfl hne⟩
    simp [cells, ctxCells, ctxParent, colorBit, RB_RED, ptr]
  have hempty : IsPlace cmp node [] := ⟨by simp [before], by simp [after]⟩
  obtain ⟨s', ctx, hloop, hs', hplug, hplace⟩ :=
    rbInsertLoop_spec fuel hnil (fun _ => ⟨hfresh, h.root⟩) hempty hsorted hcmp hfuel
  rw [plug] at hplug
  have hunplug := ht
  rw [← hplug] at hunplug
  obtain ⟨c, n, hfits, hn⟩ := hunplug.unplug
  cases hn
  have hlen := length_le_toList_plug ctx (nil : ColorTree Nat)
  rw [hplug] at hlen
  have hred : Balanced (.node .red .nil node .nil : ColorTree Nat) .red 0 := .red .nil .nil
  obtain ⟨s'', t', m', hfix, hat, hbal, hlist⟩ := rbInsertFix_spec fuel hs'.1 hs'.2 hred hfits
    (by omega)
  have hpc : s'.rbRedParent node = ctxParent ctx := by
    have hnode : (node, (⟨ctxParent ctx ||| colorBit .red, 0, 0⟩ : RbNode)) ∈
        cells (.node .red .nil node .nil) (ctxParent ctx) + ctxCells ctx node := by
      simp [cells, ptr]
    rw [rbRedParent, hs'.1.val _ hnode]
    exact Nat.or_zero _
  have hold : t.toList = before ctx ++ after ctx := by
    rw [← hplug, toList_plug]
    simp [toList]
  have hnewlist : t'.toList = before ctx ++ node :: after ctx := by
    rw [hlist, toList_plug]
    simp [toList]
  refine ⟨s'', t', m', ?_, hat, hbal, before ctx, after ctx, hold, hnewlist, hplace⟩
  have hroot : s.root = ptr t := h.root
  rw [← hroot] at hloop
  rw [rbInsert, hloop]
  dsimp only
  rw [hpc]
  have hfix' : rbInsertFix fuel node (ctxParent ctx) s' = some s'' := hfix
  rw [hfix']

end

end OsKernel
