import OsKernel.Common.RbCells

/-!
# Removal

The cases of `__rb_erase_fix`, with a hole on side `d` of `parent` in which every path has one black
node too few, and the three shapes in which `__rb_erase` takes a node out.
-/

namespace OsKernel

open RedBlack RbTree RbNode

/-! ## Rotations -/

namespace Holds

variable {s : RbTree} {R : Cells} {ctx : List (Frame Nat)} {x z : ColorTree Nat} {d d' : Side}
  {c : Color} {p b e y q v w w' k l i j : Nat}

theorem eraseRotateRed (h : Holds s ({(p, .of (holePc ctx c) d k b)} + {(b, .of w d (ptr x) l)} +
      cells x b + R + ctxCells ctx p))
    (hx : x ≠ .nil) (hroot : s.root = rootPtr ctx p) :
    Holds (s.eraseRotateRed d p b)
      ({(p, .of (b ||| colorBit .red) d k (ptr x))} +
        {(b, .of (holePc ctx c) d p l)} + cells (x.paint .black) p + R +
        ctxCells ctx b) ∧
      (s.eraseRotateRed d p b).root = rootPtr ctx b := by
  have hread : s.node b = .of w d (ptr x) l := h.read_mem (by simp)
  have h0 : Holds s ({(p, .of (holePc ctx c) d k b)} + ({(b, .of w d (ptr x) l)} +
      cells x b + R + ctxCells ctx p)) := h.congr (by abel)
  have h1 := h0.setChild d.flip (ptr x)
  rw [setChild_flip_of] at h1
  have h2 : Holds _ (cells x b + ({(p, .of (holePc ctx c) d k (ptr x))} +
      {(b, .of w d (ptr x) l)} + R + ctxCells ctx p)) := h1.congr (by abel)
  have h3 := h2.paint hx p .black
  have h4 : Holds _ ({(b, .of w d (ptr x) l)} + (cells (x.paint .black) p +
      {(p, .of (holePc ctx c) d k (ptr x))} + R + ctxCells ctx p)) :=
    h3.congr (by abel)
  have h5 := h4.setChild d p
  rw [setChild_of] at h5
  have h6 : Holds _ ({(p, .of (holePc ctx c) d k (ptr x))} + {(b, .of w d p l)} +
      (cells (x.paint .black) p + R) + ctxCells ctx p) := h5.congr (by abel)
  obtain ⟨h7, hroot7⟩ := h6.rotateSetParents hroot .red
  rw [RbTree.eraseRotateRed, hread, child_of]
  refine ⟨h7.congr ?_, hroot7⟩
  abel

theorem eraseRotateInner
    (h : Holds s ({(y, .of w' d k (ptr z))} + {(b, .of w d y l)} + {(p, .of v d i b)} +
      cells z y + R)) :
    Holds (s.eraseRotateInner d p b y)
      ({(y, .of w' d k b)} + {(b, .of w d (ptr z) l)} + {(p, .of v d i y)} +
        cells (z.paint .black) b + R) := by
  have hread : s.node y = .of w' d k (ptr z) := h.read_mem (by simp)
  have h0 : Holds s ({(b, .of w d y l)} + ({(y, .of w' d k (ptr z))} + {(p, .of v d i b)} +
      cells z y + R)) := h.congr (by abel)
  have h1 := h0.setChild d (ptr z)
  rw [setChild_of] at h1
  have h2 : Holds _ (cells z y + ({(b, .of w d (ptr z) l)} + {(y, .of w' d k (ptr z))} +
      {(p, .of v d i b)} + R)) := h1.congr (by abel)
  have h3 := h2.paintIf b .black
  have h4 : Holds _ ({(y, .of w' d k (ptr z))} + (cells (z.paint .black) b +
      {(b, .of w d (ptr z) l)} + {(p, .of v d i b)} + R)) := h3.congr (by abel)
  have h5 := h4.setChild d.flip b
  rw [setChild_flip_of] at h5
  have h6 : Holds _ ({(p, .of v d i b)} + ({(y, .of w' d k b)} + cells (z.paint .black) b +
      {(b, .of w d (ptr z) l)} + R)) := h5.congr (by abel)
  have h7 := h6.setChild d.flip y
  rw [setChild_flip_of] at h7
  rw [RbTree.eraseRotateInner, hread, child_flip_of]
  refine h7.congr ?_
  abel

theorem eraseRotateOuter (h : Holds s ({(p, .of (holePc ctx c) d k v)} + {(b, .of w d (ptr x) e)} +
      cells x q + {(e, .of w' d' i j)} + R + ctxCells ctx p))
    (hq : q % 8 = 0) (hroot : s.root = rootPtr ctx p) :
    Holds (s.eraseRotateOuter d p b e)
      ({(p, .of (b ||| colorBit .black) d k (ptr x))} +
        {(b, .of (holePc ctx c) d p e)} + cells x p +
        {(e, .of (b ||| colorBit .black) d' i j)} + R + ctxCells ctx b) ∧
      (s.eraseRotateOuter d p b e).root = rootPtr ctx b := by
  have hread : s.node b = .of w d (ptr x) e := h.read_mem (by simp)
  have h0 : Holds s ({(p, .of (holePc ctx c) d k v)} + ({(b, .of w d (ptr x) e)} +
      cells x q + {(e, .of w' d' i j)} + R + ctxCells ctx p)) := h.congr (by abel)
  have h1 := h0.setChild d.flip (ptr x)
  rw [setChild_flip_of] at h1
  have h2 : Holds _ (cells x q + ({(p, .of (holePc ctx c) d k (ptr x))} +
      {(b, .of w d (ptr x) e)} + {(e, .of w' d' i j)} + R + ctxCells ctx p)) := h1.congr (by abel)
  have h3 := h2.reparentIf hq p
  have h4 : Holds _ ({(b, .of w d (ptr x) e)} + (cells x p +
      {(p, .of (holePc ctx c) d k (ptr x))} + {(e, .of w' d' i j)} + R +
      ctxCells ctx p)) := h3.congr (by abel)
  have h5 := h4.setChild d p
  rw [setChild_of] at h5
  have h6 : Holds _ ({(e, .of w' d' i j)} + ({(b, .of w d p e)} + cells x p +
      {(p, .of (holePc ctx c) d k (ptr x))} + R + ctxCells ctx p)) :=
    h5.congr (by abel)
  have h7 := h6.rbSetParentColor b .black
  rw [setPc_of] at h7
  have h8 : Holds _ ({(p, .of (holePc ctx c) d k (ptr x))} + {(b, .of w d p e)} +
      ({(e, .of (b ||| colorBit .black) d' i j)} + cells x p + R) + ctxCells ctx p) :=
    h7.congr (by abel)
  have hroot' : ((((s.setChild p d.flip (ptr x)).rbSetParentIf (ptr x) p).setChild b d
      p).rbSetParentColor e b (colorBit .black)).root = rootPtr ctx p := by
    rw [← hroot, RbTree.rbSetParentIf]
    split <;> rfl
  obtain ⟨h9, hroot9⟩ := h8.rotateSetParents hroot' .black
  rw [RbTree.eraseRotateOuter, hread, child_of]
  refine ⟨h9.congr ?_, hroot9⟩
  abel

end Holds

namespace RbAt

variable {s : RbTree} {ctx : List (Frame Nat)} {t x y z sib : ColorTree Nat} {d d' : Side}
  {p b e q : Nat} {c c' c'' : Color}

theorem up (h : RbAt s (⟨d, c, p, sib⟩ :: ctx) t) : RbAt s ctx (.mk c d t p sib) := by
  rw [RbAt.iff_plug] at h ⊢
  exact h

theorem eraseRotateRed (h : RbAt s (⟨d, c, p, .mk c' d x b y⟩ :: ctx) t) (hx : x ≠ .nil) :
    RbAt (s.eraseRotateRed d p b) (⟨d, .red, p, x.paint .black⟩ :: ⟨d, c, b, y⟩ :: ctx) t := by
  have h0 : Holds s ({(p, .of (holePc ctx c) d (ptr t) b)} +
      {(b, .of (p ||| colorBit c') d (ptr x) (ptr y))} + cells x b + (cells t p + cells y b) +
      ctxCells ctx p) := by
    refine h.holds.congr ?_
    simp only [ctxCells, holePc, ctxParent, cells_mk, ptr_mk]
    abel
  obtain ⟨h1, hroot⟩ := h0.eraseRotateRed hx h.root
  refine ⟨h1.congr ?_, hroot⟩
  simp only [ctxCells, holePc, ctxParent, ptr_paint]
  abel

theorem eraseRotateOuter (h : RbAt s (⟨d, c, p, .mk c' d x b (.mk c'' d' y e z)⟩ :: ctx) t) :
    RbAt (s.eraseRotateOuter d p b e) ctx
      (.mk c d (.mk .black d t p x) b (.mk .black d' y e z)) := by
  have h0 : Holds s ({(p, .of (holePc ctx c) d (ptr t) b)} +
      {(b, .of (p ||| colorBit c') d (ptr x) e)} + cells x b +
      {(e, .of (b ||| colorBit c'') d' (ptr y) (ptr z))} +
      (cells t p + cells y e + cells z e) + ctxCells ctx p) := by
    refine h.holds.congr ?_
    simp only [ctxCells, holePc, ctxParent, cells_mk, ptr_mk]
    abel
  have hb := h0.addr (b, .of (p ||| colorBit c') d (ptr x) e) (by simp)
  obtain ⟨h1, hroot⟩ := h0.eraseRotateOuter hb.2 h.root
  constructor
  · refine h1.congr ?_
    simp only [cells_mk, holePc, ptr_mk]
    abel
  · rw [ptr_mk]
    exact hroot

theorem eraseRotateInner (h : RbAt s (⟨d, c, p, .mk c' d (.mk c'' d x q z) b y⟩ :: ctx) t) :
    RbAt ((s.eraseRotateInner d p b q).eraseRotateOuter d p q b) ctx
      (.mk c d (.mk .black d t p x) q (.mk .black d (z.paint .black) b y)) := by
  have h0 : Holds s ({(q, .of (b ||| colorBit c'') d (ptr x) (ptr z))} +
      {(b, .of (p ||| colorBit c') d q (ptr y))} +
      {(p, .of (holePc ctx c) d (ptr t) b)} + cells z q +
      (cells x q + cells y b + cells t p + ctxCells ctx p)) := by
    refine h.holds.congr ?_
    simp only [ctxCells, holePc, ctxParent, cells_mk, ptr_mk]
    abel
  have hq := h0.addr (q, .of (b ||| colorBit c'') d (ptr x) (ptr z)) (by simp)
  have h1 : Holds _ ({(p, .of (holePc ctx c) d (ptr t) q)} +
      {(q, .of (b ||| colorBit c'') d (ptr x) b)} + cells x q +
      {(b, .of (p ||| colorBit c') d (ptr z) (ptr y))} +
      (cells (z.paint .black) b + cells y b + cells t p) + ctxCells ctx p) :=
    h0.eraseRotateInner.congr (by abel)
  have hroot : (s.eraseRotateInner d p b q).root = rootPtr ctx p := by
    refine Eq.trans ?_ h.root
    rw [RbTree.eraseRotateInner, RbTree.rbSetParentColorIf]
    split <;> rfl
  obtain ⟨h2, hroot2⟩ := h1.eraseRotateOuter hq.2 hroot
  constructor
  · refine h2.congr ?_
    simp only [cells_mk, ptr_mk, ptr_paint]
    abel
  · rw [ptr_mk]
    exact hroot2

section

variable (h : RbAt s (⟨d, c, p, sib⟩ :: ctx) t)

include h

theorem paintSib (hsib : sib ≠ .nil) (c' : Color) :
    RbAt (s.rbSetParentColor (ptr sib) p (colorBit c')) (⟨d, c, p, sib.paint c'⟩ :: ctx) t := by
  have h0 : Holds s (cells sib p + ({(p, .of (holePc ctx c) d (ptr t) (ptr sib))} +
      cells t p + ctxCells ctx p)) := by
    refine h.holds.congr ?_
    simp only [ctxCells, holePc, ctxParent]
    abel
  refine ⟨(h0.paint hsib p c').congr ?_, h.root⟩
  simp only [ctxCells, holePc, ctxParent, ptr_paint]
  abel

theorem hole : Holds s ({(p, .of (holePc ctx c) d (ptr t) (ptr sib))} +
    (cells sib p + cells t p + ctxCells ctx p)) := by
  refine h.holds.congr ?_
  simp only [ctxCells, holePc, ctxParent]
  abel

theorem setBlack : RbAt (s.rbSetBlack p) (⟨d, .black, p, sib⟩ :: ctx) t := by
  have h0 := h.hole
  have hbits : (holePc ctx c) ||| RB_BLACK = ctxParent ctx ||| colorBit .black := by
    rw [Nat.or_assoc]
    cases c <;> rfl
  have h1 := h0.setPc (holePc ctx .black)
  rw [setPc_of] at h1
  constructor
  · rw [rbSetBlack, h0.read, parentColor_of, hbits]
    refine h1.congr ?_
    simp only [ctxCells, holePc, ctxParent]
    abel
  · exact h.root

theorem read : p ≠ 0 ∧ (s.node p) = .of (holePc ctx c) d (ptr t) (ptr sib) ∧
      s.rbParent p = ctxParent ctx ∧ s.rbIsRed p = decide (c = .red) := by
  have h0 := h.hole
  have hctx : Holds s ({(p, .of (holePc ctx c) d (ptr t) (ptr sib))} +
      cells sib p + cells t p + ctxCells ctx p) := h0.congr (by abel)
  refine ⟨h0.isAddr.1, h0.read, ?_, ?_⟩
  · rw [rbParent, h0.read, parentColor_of, pcParent_or hctx.ctxParent_aligned]
  · rw [rbIsRed, h0.read, parentColor_of, pcColor_or hctx.ctxParent_aligned]
    cases c <;> rfl

end

theorem readSib (h : RbAt s (⟨d, c, p, .mk c' d x b y⟩ :: ctx) t) :
    ptr t ≠ b ∧ (s.node b) = .of (p ||| colorBit c') d (ptr x) (ptr y) ∧
      s.rbIsRed b = decide (c' = .red) ∧ s.blackOrNull (ptr x) = decide (x.color = .black) ∧
      s.blackOrNull (ptr y) = decide (y.color = .black) := by
  have hb : Holds s ({(b, .of (p ||| colorBit c') d (ptr x) (ptr y))} + (cells t p +
      ({(p, .of (holePc ctx c) d (ptr t) b)} + cells x b + cells y b +
      ctxCells ctx p))) := by
    refine h.holds.congr ?_
    simp only [ctxCells, holePc, ctxParent, cells_mk, ptr_mk]
    abel
  have hp := hb.addr (p, .of (holePc ctx c) d (ptr t) b) (by simp)
  have hx : Holds s (cells x b + ({(b, .of (p ||| colorBit c') d (ptr x) (ptr y))} + cells t p +
      {(p, .of (holePc ctx c) d (ptr t) b)} + cells y b + ctxCells ctx p)) :=
    hb.congr (by abel)
  have hy : Holds s (cells y b + ({(b, .of (p ||| colorBit c') d (ptr x) (ptr y))} + cells t p +
      {(p, .of (holePc ctx c) d (ptr t) b)} + cells x b + ctxCells ctx p)) :=
    hb.congr (by abel)
  refine ⟨(hb.ne_ptr (by simp)).symm, hb.read, ?_, hx.blackOrNull_ptr hb.isAddr.2,
    hy.blackOrNull_ptr hb.isAddr.2⟩
  rw [rbIsRed, hb.read, parentColor_of, pcColor_or hp.2]
  cases c' <;> rfl

end RbAt

/-! ## The loop -/

/-- A removal ends with a balanced tree that lists the elements `xs`. -/
def Rebalanced (r : Option RbTree) (xs : List Nat) : Prop :=
  ∃ s' t' m, r = some s' ∧ RbAt s' [] t' ∧ Balanced t' .black m ∧ t'.toList = xs

section

variable {s : RbTree} {ctx : List (Frame Nat)} {t sib : ColorTree Nat} {d : Side} {p : Nat}
  {c c' : Color} {n : Nat}

theorem eraseFixBlack_spec (next : Nat → Nat → RbTree → Option RbTree)
    (h : RbAt s (⟨d, c, p, sib⟩ :: ctx) t) (ht : Balanced t .black n)
    (hsib : Balanced sib .black (n + 1)) (hctx : Fits (⟨d, c, p, sib⟩ :: ctx) c' (n + 1))
    (hnext : ∀ s', c = .black → ctx ≠ [] → RbAt s' ctx (.mk .black d t p (sib.paint .red)) →
      Balanced (.mk .black d t p (sib.paint .red)) .black (n + 1) → Rebalanced (next p (ctxParent ctx) s')
        (plug ctx (.mk .black d t p (sib.paint .red))).toList) :
    Rebalanced (eraseFixBlack next d p (ptr sib) s) (plug (⟨d, c, p, sib⟩ :: ctx) t).toList := by
  obtain ⟨x, b, y, c1, c2, rfl, hx, hy⟩ := hsib.exists_mk_of_pos d
  obtain ⟨_, hb, _, hx', hy'⟩ := h.readSib
  have hpaint : ∀ {v : ColorTree Nat}, Balanced v .black n → v.paint .black = v := by
    intro v hv
    rw [← hv.color_eq]
    exact v.paint_color
  rw [eraseFixBlack, ptr_mk, hb]
  dsimp only
  rw [child_flip_of, child_of, hx', hy', hx.color_eq, hy.color_eq]
  cases c2 with
  | red =>
    -- case 4: a rotation at `parent`
    obtain ⟨i, e, j, rfl, hi, hj⟩ := hy.exists_mk_of_red d
    have hrot := h.eraseRotateOuter
    obtain ⟨m, hm⟩ := hctx.refill d b (ht.mkBlack (d := d) (a := p) hx) hy.paint_black
    rw [ColorTree.paint_mk] at hm
    refine ⟨_, _, m, ?_, RbAt.iff_plug.mp hrot, hm, ?_⟩
    · rw [if_neg (by decide), ptr_mk]
    · rw [plug]
      refine toList_plug_congr ?_
      cases d <;> simp [ColorTree.mk, ColorTree.toList]
  | black =>
    rw [if_pos (by decide)]
    cases c1 with
    | red =>
      -- case 3: a rotation at `sibling` first
      obtain ⟨i, e, j, rfl, hi, hj⟩ := hx.exists_mk_of_red d
      have hrot := h.eraseRotateInner
      rw [hpaint hj] at hrot
      obtain ⟨m, hm⟩ := hctx.refill d e (ht.mkBlack (d := d) (a := p) hi)
        (hj.mkBlack (d := d) (a := b) hy)
      refine ⟨_, _, m, ?_, RbAt.iff_plug.mp hrot, hm, ?_⟩
      · rw [if_neg (by decide), ptr_mk]
      · rw [plug]
        refine toList_plug_congr ?_
        cases d <;> simp [ColorTree.mk, ColorTree.toList]
    | black =>
      -- case 2: the sibling is painted red
      have hs := h.paintSib (fun he => by cases d <;> cases he) .red
      rw [ptr_mk] at hs
      obtain ⟨_, _, hparent, hred⟩ := hs.read
      have hred' : (s.rbSetParentColor b p RB_RED).rbIsRed p = decide (c = .red) := hred
      have hparent' : (s.rbSetParentColor b p RB_RED).rbParent p = ctxParent ctx := hparent
      have hsib' := hx.mkRed (d := d) (a := b) hy
      rw [if_pos (by decide), hred', hparent']
      have hlist : (plug ctx (.mk .black d t p (.mk .red d x b y))).toList =
          (plug (⟨d, c, p, .mk .black d x b y⟩ :: ctx) t).toList := by
        refine toList_plug_congr ?_
        cases d <;> simp [ColorTree.mk, ColorTree.toList]
      rw [ColorTree.paint_mk] at hs hnext
      cases c with
      | red =>
        have hblack := hs.setBlack.up
        obtain ⟨m, hm⟩ := hctx.toBlack_of_red.plug (ht.mkBlack (d := d) (a := p) hsib')
        exact ⟨_, _, m, if_pos (by decide), RbAt.iff_plug.mp hblack, hm, hlist⟩
      | black =>
        rw [if_neg (by decide)]
        cases ctx with
        | nil =>
          exact ⟨_, _, _, rfl, hs.up, ht.mkBlack hsib', hlist⟩
        | cons f ctx =>
          have hf : ctxParent (f :: ctx) ≠ 0 := hs.up.read.1
          rw [if_pos hf, ← hlist]
          exact hnext _ rfl (List.cons_ne_nil _ _) hs.up (ht.mkBlack hsib')

theorem rbEraseFix_turn {x y : ColorTree Nat} {b : Nat}
    (h : RbAt s (⟨d, c, p, .mk c' d x b y⟩ :: ctx) t) (fuel : Nat) :
    rbEraseFix (fuel + 1) (ptr t) p s =
      if c' = .red then eraseFixBlack (rbEraseFix fuel) d p (ptr x) (s.eraseRotateRed d p b)
      else eraseFixBlack (rbEraseFix fuel) d p b s := by
  obtain ⟨_, hp, _, _⟩ := h.read
  obtain ⟨hne, hb, hred, _, _⟩ := h.readSib
  rw [ptr_mk] at hp
  rw [rbEraseFix, hp]
  rw [side_of _ _ hne, child_flip_of, hb, child_of, hred]
  simp only [decide_eq_true_eq]

/-- `__rb_erase_fix` with a tree in the hole that has one black node too few on each path. -/
theorem rbEraseFix_spec (fuel : Nat) (h : RbAt s ctx t) (hne : ctx ≠ [])
    (ht : Balanced t .black n) (hctx : Fits ctx c (n + 1)) (hfuel : ctx.length ≤ fuel) :
    Rebalanced (rbEraseFix fuel (ptr t) (ctxParent ctx) s) (plug ctx t).toList := by
  induction fuel generalizing s ctx t n c with
  | zero =>
    rw [Nat.le_zero, List.length_eq_zero_iff] at hfuel
    exact absurd hfuel hne
  | succ fuel ih =>
    cases ctx with
    | nil => exact absurd rfl hne
    | cons f ctx =>
      obtain ⟨d, cf, p, sib⟩ := f
      rw [List.length_cons] at hfuel
      rw [ctxParent]
      rcases hctx.sib with hsib | ⟨hsib, rfl⟩
      · have hblack := eraseFixBlack_spec (rbEraseFix fuel) h ht hsib hctx (by
          rintro s' rfl hne hs' hbal
          have hup := ih hs' hne hbal hctx.of_black (by omega)
          rw [ptr_mk] at hup
          exact hup)
        obtain ⟨x, b, y, c1, c2, rfl, hx, hy⟩ := hsib.exists_mk_of_pos d
        rw [rbEraseFix_turn h, if_neg (by decide)]
        rw [ptr_mk] at hblack
        exact hblack
      · -- the rotation gives the hole a black sibling and a red parent
        obtain ⟨x, b, y, rfl, hx, hy⟩ := hsib.exists_mk_of_red d
        have hnil : x ≠ .nil := by
          rintro rfl
          cases hx
        have hpaint : x.paint .black = x := by
          rw [← hx.color_eq]
          exact x.paint_color
        have hrot := h.eraseRotateRed hnil
        rw [hpaint] at hrot
        have hblack := eraseFixBlack_spec (rbEraseFix fuel) hrot ht hx
          (.red hx (.black hy hctx.of_black)) (fun s' he => by cases he)
        rw [rbEraseFix_turn h, if_pos rfl]
        have hlist : (plug (⟨d, .red, p, x⟩ :: ⟨d, .black, b, y⟩ :: ctx) t).toList =
            (plug (⟨d, .black, p, .mk .red d x b y⟩ :: ctx) t).toList := by
          rw [plug, plug, plug]
          refine toList_plug_congr ?_
          cases d <;> simp [ColorTree.mk, ColorTree.toList]
        rw [hlist] at hblack
        exact hblack

end

end OsKernel
