import Mathlib.Algebra.Order.Group.Multiset
import Mathlib.Tactic.Abel
import OsKernel.Common.RbTree

/-!
# The cells of a tree in memory

A *cell* is a node of memory with its address.  The cells of a tree are what its nodes have to hold
so that the memory represents it: both children and the packed parent and colour (`cells`, and
`ctxCells` for what surrounds a hole).  `Holds s m` says that the memory has the cells `m`, which
are at different addresses.

The functions of `rbtree.c` change one field at a time.  There is a rule for each change, for a cell
beside any others; a rotation is a sequence of them.
-/

namespace OsKernel

open RedBlack Function Multiset RbTree

/-- Addresses of nodes: the low bits are free for the colour. -/
def IsAddr (a : Nat) : Prop := a ≠ 0 ∧ a % 8 = 0

/-- The bit of a colour in the word with the parent. -/
def colorBit : Color → Nat
  | .red => RB_RED
  | .black => RB_BLACK

theorem or_colorBit {p : Nat} (h : p % 8 = 0) (c : Color) : p ||| colorBit c = p + colorBit c := by
  have hbit : colorBit c < 2 ^ 3 := by cases c <;> decide
  have hp : p = 2 ^ 3 * (p / 8) := by omega
  rw [hp, ← Nat.two_pow_add_eq_or_of_lt hbit]

theorem pcParent_or {p : Nat} (h : p % 8 = 0) (c : Color) : pcParent (p ||| colorBit c) = p := by
  rw [or_colorBit h, pcParent]
  cases c
  · simp only [colorBit, RB_RED]
    omega
  · simp only [colorBit, RB_BLACK]
    omega

theorem pcColor_or {p : Nat} (h : p % 8 = 0) (c : Color) :
    pcColor (p ||| colorBit c) = colorBit c := by
  rw [or_colorBit h, pcColor]
  cases c
  · simp only [colorBit, RB_RED]
    omega
  · simp only [colorBit, RB_BLACK]
    omega

namespace RbNode

/-- A node with `x` on side `d` and `y` on the other. -/
def of (pc : Nat) (d : Side) (x y : Nat) : RbNode :=
  match d with
  | .left => ⟨pc, y, x⟩
  | .right => ⟨pc, x, y⟩

variable (pc pc' x y v : Nat) (d : Side)

@[simp] theorem parentColor_of : (of pc d x y).parentColor = pc := by cases d <;> rfl

@[simp] theorem child_of : (of pc d x y).child d = x := by cases d <;> rfl

@[simp] theorem child_flip_of : (of pc d x y).child d.flip = y := by cases d <;> rfl

@[simp] theorem setChild_of : (of pc d x y).setChild d v = of pc d v y := by cases d <;> rfl

@[simp] theorem setChild_flip_of : (of pc d x y).setChild d.flip v = of pc d x v := by
  cases d <;> rfl

@[simp] theorem setPc_of : { of pc d x y with parentColor := pc' } = of pc' d x y := by
  cases d <;> rfl

theorem of_flip : of pc d.flip x y = of pc d y x := by cases d <;> rfl

theorem side_of {x y : Nat} (h : x ≠ y) :
    (if x ≠ (of pc d x y).right then Side.left else Side.right) = d := by
  cases d with
  | left => exact if_pos h
  | right => exact if_neg (fun he => he rfl)

end RbNode

/-! ## Trees -/

/-- The pointer to the root of a tree. -/
def ptr : ColorTree Nat → Nat
  | .nil => 0
  | .node _ _ a _ => a

/-- Addresses with their contents. -/
abbrev Cells := Multiset (Nat × RbNode)

/-- The cells of a tree whose root has the parent `p`. -/
def cells : ColorTree Nat → Nat → Cells
  | .nil, _ => 0
  | .node c l a r, p => {(a, ⟨p ||| colorBit c, ptr r, ptr l⟩)} + (cells l a + cells r a)

/-- The parent of the node in the hole. -/
def ctxParent : List (Frame Nat) → Nat
  | [] => 0
  | f :: _ => f.elem

/-- The field `__rb_parent_color` of the root in a hole. -/
abbrev holePc (ctx : List (Frame Nat)) (c : Color) : Nat := ctxParent ctx ||| colorBit c

/-- The cells around a hole in which there is a tree at `x`. -/
def ctxCells : List (Frame Nat) → Nat → Cells
  | [], _ => 0
  | f :: ctx, x =>
    {(f.elem, RbNode.of (ctxParent ctx ||| colorBit f.color) f.side x (ptr f.sib))} +
      (cells f.sib f.elem + ctxCells ctx f.elem)

/-- The address of the root of a tree with `x` in its hole. -/
def rootPtr : List (Frame Nat) → Nat → Nat
  | [], x => x
  | f :: ctx, _ => rootPtr ctx f.elem

@[simp] theorem ptr_nil : ptr .nil = 0 := rfl

@[simp] theorem ptr_node (c : Color) (l : ColorTree Nat) (a : Nat) (r : ColorTree Nat) :
    ptr (.node c l a r) = a := rfl

@[simp] theorem cells_nil (p : Nat) : cells .nil p = 0 := rfl

theorem cells_node (c : Color) (l : ColorTree Nat) (a : Nat) (r : ColorTree Nat) (p : Nat) :
    cells (.node c l a r) p =
      {(a, RbNode.of (p ||| colorBit c) .left (ptr l) (ptr r))} + (cells l a + cells r a) := rfl

@[simp] theorem ptr_mk (c : Color) (d : Side) (x : ColorTree Nat) (a : Nat) (y : ColorTree Nat) :
    ptr (.mk c d x a y) = a := by cases d <;> rfl

@[simp] theorem ptr_paint (c : Color) (t : ColorTree Nat) : ptr (t.paint c) = ptr t := by cases t <;> rfl

theorem cells_mk (c : Color) (d : Side) (x : ColorTree Nat) (a : Nat) (y : ColorTree Nat) (p : Nat) :
    cells (.mk c d x a y) p =
      {(a, RbNode.of (p ||| colorBit c) d (ptr x) (ptr y))} + (cells x a + cells y a) := by
  cases d with
  | left => rfl
  | right =>
    rw [ColorTree.mk, cells, RbNode.of]
    abel

theorem ptr_plug (ctx : List (Frame Nat)) (t : ColorTree Nat) : ptr (plug ctx t) = rootPtr ctx (ptr t) := by
  induction ctx generalizing t with
  | nil => rfl
  | cons f ctx ih =>
    rw [plug, ih, ptr_mk]
    rfl

/-- The cells of a tree, and those around it. -/
theorem cells_plug (ctx : List (Frame Nat)) (t : ColorTree Nat) :
    cells (plug ctx t) 0 = cells t (ctxParent ctx) + ctxCells ctx (ptr t) := by
  induction ctx generalizing t with
  | nil => simp [plug, ctxCells, ctxParent]
  | cons f ctx ih =>
    rw [plug, ih, cells_mk, ptr_mk, ctxCells]
    simp only [ctxParent]
    abel

theorem map_fst_cells (t : ColorTree Nat) (p : Nat) :
    (cells t p).map Prod.fst = (t.toList : Multiset Nat) := by
  induction t generalizing p with
  | nil => rfl
  | node c l a r ihl ihr =>
    rw [cells, map_add, map_add, ihl, ihr, map_singleton, ColorTree.toList,
      ← coe_add, ← cons_coe, ← singleton_add]
    abel

theorem mem_cells_ptr {t : ColorTree Nat} {p : Nat} (h : t ≠ .nil) :
    ptr t ∈ (cells t p).map Prod.fst := by
  rw [map_fst_cells]
  cases t with
  | nil => exact absurd rfl h
  | node c l a r => simp [ptr, ColorTree.toList]

/-! ## Memory -/

/-- The cells are at different addresses, and memory has their contents. -/
structure Holds (s : RbTree) (m : Cells) : Prop where
  nodup : (m.map Prod.fst).Nodup
  addr : ∀ x ∈ m, IsAddr x.1
  val : ∀ x ∈ m, s.node x.1 = x.2

namespace Holds

variable {s s' : RbTree} {m m' R : Cells} {a v : Nat} {n : RbNode} {d : Side}

theorem congr (h : Holds s m) (he : m = m') : Holds s m' := he ▸ h

theorem setRoot (h : Holds s m) (v : Nat) : Holds { s with root := v } m := ⟨h.nodup, h.addr, h.val⟩

theorem read_mem (h : Holds s m) (hm : (a, n) ∈ m) : s.node a = n := h.val _ hm

section

variable (h : Holds s ({(a, n)} + R))

include h

theorem read : s.node a = n :=
  h.val (a, n) (mem_add.mpr (Or.inl (mem_singleton_self _)))

theorem isAddr : IsAddr a :=
  h.addr (a, n) (mem_add.mpr (Or.inl (mem_singleton_self _)))

theorem not_mem : a ∉ R.map Prod.fst := by
  have hnodup := h.nodup
  rw [map_add, map_singleton, singleton_add, nodup_cons] at hnodup
  exact hnodup.1

end

/-- A new node at an address that is not in use. -/
theorem alloc (h : Holds s m) (ha : a ∉ m.map Prod.fst) (haddr : IsAddr a) (n : RbNode) :
    Holds { s with node := update s.node a n } ({(a, n)} + m) := by
  constructor
  · rw [map_add, map_singleton, singleton_add, nodup_cons]
    exact ⟨ha, h.nodup⟩
  · intro x hx
    rcases mem_add.mp hx with hx | hx
    · rw [mem_singleton.mp hx]
      exact haddr
    · exact h.addr x hx
  intro x hx
  rcases mem_add.mp hx with hx | hx
  · rw [mem_singleton.mp hx]
    exact update_self ..
  have hne : x.1 ≠ a := by
    intro he
    exact ha (he ▸ mem_map_of_mem Prod.fst hx)
  dsimp only
  rw [update_of_ne hne]
  exact h.val x hx

theorem of_add (h : Holds s (m + R)) : Holds s R := by
  have hnodup := h.nodup
  rw [map_add, nodup_add] at hnodup
  refine ⟨hnodup.2.1, ?_, ?_⟩
  · intro x hx
    exact h.addr x (mem_add.mpr (Or.inr hx))
  · intro x hx
    exact h.val x (mem_add.mpr (Or.inr hx))

section

variable (h : Holds s ({(a, n)} + R))

include h

theorem write (n' : RbNode) : Holds { s with node := update s.node a n' } ({(a, n')} + R) :=
  h.of_add.alloc h.not_mem h.isAddr n'

theorem setPc (v : Nat) : Holds (s.setPc a v) ({(a, { n with parentColor := v })} + R) := by
  rw [RbTree.setPc, h.read]
  exact h.write _

theorem setChild (d : Side) (v : Nat) : Holds (s.setChild a d v) ({(a, n.setChild d v)} + R) := by
  rw [RbTree.setChild, h.read]
  exact h.write _

theorem rbSetParentColor (p : Nat) (c : Color) : Holds (s.rbSetParentColor a p (colorBit c))
      ({(a, { n with parentColor := p ||| colorBit c })} + R) := h.setPc _

end

variable {t : ColorTree Nat} {p : Nat} {ctx : List (Frame Nat)}

section

variable (h : Holds s (cells t p + R))

include h

/-- The root of a tree gets a colour and a parent. -/
theorem paint (ht : t ≠ .nil) (q : Nat) (c : Color) :
    Holds (s.rbSetParentColor (ptr t) q (colorBit c)) (cells (t.paint c) q + R) := by
  cases t with
  | nil => exact absurd rfl ht
  | node c' l a r =>
    rw [cells, add_assoc] at h
    rw [ColorTree.paint, cells, add_assoc]
    exact h.setPc _

theorem paintIf (q : Nat) (c : Color) :
    Holds (s.rbSetParentColorIf (ptr t) q (colorBit c)) (cells (t.paint c) q + R) := by
  cases t with
  | nil => exact h
  | node c' l a r =>
    have ha : a ≠ 0 := by
      rw [cells, add_assoc] at h
      exact h.isAddr.1
    rw [rbSetParentColorIf, ptr, if_pos ha]
    exact h.paint (fun he => by cases he) q c

theorem reparent (hp : p % 8 = 0)
    (ht : t ≠ .nil) (q : Nat) : Holds (s.rbSetParent (ptr t) q) (cells t q + R) := by
  cases t with
  | nil => exact absurd rfl ht
  | node c l a r =>
    rw [cells, add_assoc] at h ⊢
    rw [rbSetParent, ptr, h.read, pcColor_or hp, Nat.or_comm]
    exact h.setPc _

theorem reparentIf (hp : p % 8 = 0)
    (q : Nat) : Holds (s.rbSetParentIf (ptr t) q) (cells t q + R) := by
  cases t with
  | nil => exact h
  | node c l a r =>
    have ha : a ≠ 0 := by
      rw [cells, add_assoc] at h
      exact h.isAddr.1
    rw [rbSetParentIf, ptr, if_pos ha]
    exact h.reparent hp (fun he => by cases he) q

end

/-- A node that is not in a tree is not its root. -/
theorem ne_ptr {u : ColorTree Nat} {q : Nat} (h : Holds s (m + (cells u q + R)))
    (ha : a ∈ m.map Prod.fst) : a ≠ ptr u := by
  intro he
  cases hu : u with
  | nil =>
    obtain ⟨x, hx, hxa⟩ := mem_map.mp ha
    refine (h.addr x (mem_add.mpr (Or.inl hx))).1 ?_
    rw [hxa, he, hu, ptr]
  | node c l b r =>
    have hnodup := h.nodup
    rw [map_add, nodup_add] at hnodup
    refine disjoint_left.mp hnodup.2.2 ha ?_
    rw [map_add, he]
    refine mem_add.mpr (Or.inl (mem_cells_ptr ?_))
    rw [hu]
    intro hnil
    cases hnil

theorem ctxParent_aligned {x : Nat} (h : Holds s (m + ctxCells ctx x)) : ctxParent ctx % 8 = 0 := by
  cases ctx with
  | nil => rfl
  | cons f ctx =>
    have hmem : (f.elem, RbNode.of (ctxParent ctx ||| colorBit f.color) f.side x (ptr f.sib)) ∈
        m + ctxCells (f :: ctx) x := by
      simp [ctxCells]
    exact (h.addr _ hmem).2

section

variable (h : Holds s (cells t p + R))

include h

theorem rbIsRed_ptr (hp : p % 8 = 0)
    (ht : t ≠ .nil) : s.rbIsRed (ptr t) = decide (t.color = .red) := by
  cases t with
  | nil => exact absurd rfl ht
  | node c l a r =>
    rw [cells, add_assoc] at h
    rw [rbIsRed, ptr, h.read, pcColor_or hp]
    cases c <;> rfl

theorem ptr_ne_zero (ht : t ≠ .nil) : ptr t ≠ 0 := by
  cases t with
  | nil => exact absurd rfl ht
  | node c l a r =>
    rw [cells, add_assoc] at h
    exact h.isAddr.1

theorem blackOrNull_ptr (hp : p % 8 = 0) : s.blackOrNull (ptr t) = decide (t.color = .black) := by
  cases t with
  | nil => rfl
  | node c l a r =>
    rw [cells, add_assoc] at h
    rw [blackOrNull, rbIsBlack, ptr, h.read, pcColor_or hp]
    cases c
    · simp [h.isAddr.1, colorBit, RB_RED, ColorTree.color]
    · simp [colorBit, RB_BLACK, RB_RED, ColorTree.color]

end

/-- What the parent of the hole points to. -/
theorem changeChild {old : Nat} (h : Holds s (m + ctxCells ctx old))
    (hold : old ∈ m.map Prod.fst) (hroot : s.root = rootPtr ctx old) (new : Nat) :
    Holds (s.rbChangeChild old new (ctxParent ctx)) (m + ctxCells ctx new) ∧
      (s.rbChangeChild old new (ctxParent ctx)).root = rootPtr ctx new := by
  cases ctx with
  | nil =>
    exact ⟨h.setRoot new, rfl⟩
  | cons f ctx =>
    obtain ⟨d, c, a, sib⟩ := f
    have hcell : Holds s ({(a, RbNode.of (holePc ctx c) d old (ptr sib))} +
        (m + (cells sib a + ctxCells ctx a))) := by
      refine h.congr ?_
      rw [ctxCells]
      abel
    have ha : a ≠ 0 := hcell.isAddr.1
    have hread := hcell.read
    have hnew := hcell.setChild d new
    rw [RbNode.setChild_of] at hnew
    have hside : (s.rbChangeChild old new (ctxParent (⟨d, c, a, sib⟩ :: ctx))) =
        s.setChild a d new := by
      rw [rbChangeChild, ctxParent, if_pos ha, hread]
      cases d with
      | left => exact if_pos rfl
      | right =>
        rw [if_neg]
        -- the left child is another tree, or there is none
        intro hsib
        have hsub : Holds s (m + (cells sib a + ({(a, RbNode.of (holePc ctx c)
            .right old (ptr sib))} + ctxCells ctx a))) := by
          refine hcell.congr ?_
          abel
        exact hsub.ne_ptr hold hsib.symm
    rw [hside]
    refine ⟨hnew.congr ?_, hroot⟩
    rw [ctxCells]
    abel

/-- `__rb_rotate_set_parents`: `new` takes the place and the colour of `old`, which is its child. -/
theorem rotateSetParents {old new w x y x' y' : Nat} {d' : Side} {c : Color}
    (h : Holds s ({(old, .of (holePc ctx c) d x y)} + {(new, .of w d' x' y')} + m +
      ctxCells ctx old))
    (hroot : s.root = rootPtr ctx old) (c' : Color) :
    Holds (s.rbRotateSetParents old new (colorBit c'))
      ({(old, .of (new ||| colorBit c') d x y)} +
        {(new, .of (holePc ctx c) d' x' y')} + m + ctxCells ctx new) ∧
      (s.rbRotateSetParents old new (colorBit c')).root = rootPtr ctx new := by
  have hnew : Holds s ({(new, .of w d' x' y')} +
      ({(old, .of (holePc ctx c) d x y)} + m + ctxCells ctx old)) :=
    h.congr (by abel)
  have h1 := hnew.setPc (holePc ctx c)
  rw [RbNode.setPc_of] at h1
  have h2 : Holds _ ({(old, .of (holePc ctx c) d x y)} +
      ({(new, .of (holePc ctx c) d' x' y')} + m + ctxCells ctx old)) :=
    h1.congr (by abel)
  have h3 := h2.rbSetParentColor new c'
  rw [RbNode.setPc_of] at h3
  have h4 : Holds _ ({(old, .of (new ||| colorBit c') d x y)} +
      {(new, .of (holePc ctx c) d' x' y')} + m + ctxCells ctx old) :=
    h3.congr (by abel)
  have h5 := h4.changeChild (by simp) hroot new
  have hread : s.node old = .of (holePc ctx c) d x y := h.read_mem (by simp)
  rw [rbRotateSetParents, rbParent, hread, RbNode.parentColor_of,
    pcParent_or h.ctxParent_aligned]
  exact h5

end Holds

/-- The memory has `t` in the hole of `ctx`. -/
structure RbAt (s : RbTree) (ctx : List (Frame Nat)) (t : ColorTree Nat) : Prop where
  holds : Holds s (cells t (ctxParent ctx) + ctxCells ctx (ptr t))
  root : s.root = rootPtr ctx (ptr t)

/-- A tree with a hole is a tree. -/
theorem RbAt.iff_plug {s : RbTree} {ctx : List (Frame Nat)} {t : ColorTree Nat} :
    RbAt s ctx t ↔ RbAt s [] (plug ctx t) := by
  have hcells : cells (plug ctx t) (ctxParent []) + ctxCells [] (ptr (plug ctx t)) =
      cells t (ctxParent ctx) + ctxCells ctx (ptr t) := by
    rw [ctxCells, add_zero, ctxParent, cells_plug]
  have hroot : rootPtr [] (ptr (plug ctx t)) = rootPtr ctx (ptr t) := by
    rw [rootPtr, ptr_plug]
  constructor
  · intro h
    exact ⟨hcells ▸ h.holds, hroot ▸ h.root⟩
  · intro h
    exact ⟨hcells ▸ h.holds, hroot ▸ h.root⟩

end OsKernel
