import Mathlib

/-!
# Red-black trees with a hole

Trees with coloured nodes, and trees with a hole.  `Balanced t c n` says that the root of `t` has
colour `c`, that no red node has a red child, and that every path from the root to a leaf
has `n` black nodes.  `Fits ctx c n` says the same about what surrounds a hole: it becomes
a tree with a black root when the hole is filled with a tree that is `Balanced` with `c` and `n`
(`Fits.plug`).  A hole below a red node takes black trees only.

Rebalancing moves the hole upwards.  After an insertion the tree in the hole has a red root where a
black one may be needed.  After a removal it has one black node too few on each path.  Each of the
lemmas below is one case; `Side` makes one out of two that are mirror images.
-/

namespace RedBlack

/-- The colours of nodes; a leaf is black. -/
inductive Color where
  | red
  | black
deriving DecidableEq, Repr

/-- The side of a node on which its hole is. -/
inductive Side where
  | left
  | right
deriving DecidableEq, Repr

def Side.flip : Side → Side
  | left => right
  | right => left

/-- Trees with coloured nodes. -/
inductive ColorTree (α : Type) where
  | nil
  | node (c : Color) (l : ColorTree α) (a : α) (r : ColorTree α)

/-- What surrounds a hole, one node: the side of the hole, and the tree on the other side. -/
structure Frame (α : Type) where
  side : Side
  color : Color
  elem : α
  sib : ColorTree α

variable {α : Type}

namespace ColorTree

/-- A node with `x` on side `d` and `y` on the other. -/
def mk (c : Color) (d : Side) (x : ColorTree α) (a : α) (y : ColorTree α) : ColorTree α :=
  match d with
  | .left => node c x a y
  | .right => node c y a x

/-- The elements in order. -/
def toList : ColorTree α → List α
  | nil => []
  | node _ l a r => l.toList ++ a :: r.toList

/-- The colour of the root. -/
def color : ColorTree α → Color
  | nil => .black
  | node c _ _ _ => c

/-- Another colour for the root. -/
def paint (c : Color) : ColorTree α → ColorTree α
  | nil => nil
  | node _ l a r => node c l a r

@[simp] theorem paint_mk (c c' : Color) (d : Side) (x : ColorTree α) (a : α) (y : ColorTree α) :
    (mk c' d x a y).paint c = mk c d x a y := by cases d <;> rfl

@[simp] theorem toList_paint (c : Color) (t : ColorTree α) : (t.paint c).toList = t.toList := by
  cases t <;> rfl

theorem paint_color (t : ColorTree α) : t.paint t.color = t := by cases t <;> rfl

/-- The number of nodes on the longest path. -/
def depth : ColorTree α → Nat
  | nil => 0
  | node _ l _ r => max l.depth r.depth + 1

/-- A path has at most as many nodes as the tree. -/
theorem depth_le_length (t : ColorTree α) : t.depth ≤ t.toList.length := by
  induction t with
  | nil => exact Nat.le_refl 0
  | node c l a r ihl ihr =>
    simp only [depth, toList, List.length_append, List.length_cons]
    omega

/-- No red node has a red child. -/
def NoRedRed : ColorTree α → Prop
  | nil => True
  | node c l _ r => (c = .red → l.color = .black ∧ r.color = .black) ∧ l.NoRedRed ∧ r.NoRedRed

/-- The numbers of black nodes on the paths from the root to the leaves. -/
def blackCounts : ColorTree α → List Nat
  | nil => [0]
  | node .red l _ r => l.blackCounts ++ r.blackCounts
  | node .black l _ r => (l.blackCounts ++ r.blackCounts).map (· + 1)

end ColorTree

open ColorTree

inductive Balanced : ColorTree α → Color → Nat → Prop where
  | nil : Balanced nil .black 0
  | red {l r : ColorTree α} {a : α} {n : Nat} :
      Balanced l .black n → Balanced r .black n → Balanced (node .red l a r) .red n
  | black {l r : ColorTree α} {a : α} {c c' : Color} {n : Nat} :
      Balanced l c n → Balanced r c' n → Balanced (node .black l a r) .black (n + 1)

namespace Balanced

variable {t x y z w : ColorTree α} {a b e : α} {c c' c₁ c₂ : Color} {d d' : Side} {n : Nat}

theorem color_eq (h : Balanced t c n) : t.color = c := by cases h <;> rfl

/-- The first rule of red-black trees. -/
theorem noRedRed (h : Balanced t c n) : t.NoRedRed := by
  induction h with
  | nil => exact trivial
  | red hl hr ihl ihr => exact ⟨fun _ => ⟨hl.color_eq, hr.color_eq⟩, ihl, ihr⟩
  | black _ _ ihl ihr =>
    refine ⟨?_, ihl, ihr⟩
    intro hc
    cases hc

/-- The second rule: all paths have the same number of black nodes. -/
theorem blackCounts_eq (h : Balanced t c n) : ∀ k ∈ t.blackCounts, k = n := by
  induction h with
  | nil => simp [blackCounts]
  | red _ _ ihl ihr =>
    intro k hk
    rcases List.mem_append.mp hk with hk | hk
    · exact ihl k hk
    · exact ihr k hk
  | black _ _ ihl ihr =>
    intro k hk
    obtain ⟨m, hm, rfl⟩ := List.mem_map.mp hk
    rcases List.mem_append.mp hm with hm | hm
    · rw [ihl m hm]
    · rw [ihr m hm]

/-- Red nodes at most double the length of a path. -/
theorem depth_le (h : Balanced t c n) : t.depth ≤ 2 * n + if c = .red then 1 else 0 := by
  induction h with
  | nil => exact Nat.le_refl 0
  | red _ _ ihl ihr =>
    simp only [depth, reduceCtorEq, if_false, if_true] at ihl ihr ⊢
    omega
  | black _ _ ihl ihr =>
    simp only [depth, reduceCtorEq, if_false]
    split at ihl <;> split at ihr <;> omega

/-- With `n` black nodes on each path there are `2 ^ n - 1` elements or more. -/
theorem two_pow_le (h : Balanced t c n) : 2 ^ n ≤ t.toList.length + 1 := by
  induction h with
  | nil => exact Nat.le_refl 1
  | red _ _ ihl ihr =>
    simp only [toList, List.length_append, List.length_cons]
    omega
  | black _ _ ihl ihr =>
    simp only [toList, List.length_append, List.length_cons, Nat.pow_succ]
    omega

/-- The bound on the depth that balancing is for. -/
theorem depth_le_log (h : Balanced t .black n) : t.depth ≤ 2 * Nat.log2 (t.toList.length + 1) := by
  have hlog : n ≤ Nat.log2 (t.toList.length + 1) := (Nat.le_log2 (by omega)).mpr h.two_pow_le
  have hdepth := h.depth_le
  simp only [reduceCtorEq, if_false] at hdepth
  omega

theorem mkRed (hx : Balanced x .black n) (hy : Balanced y .black n) :
    Balanced (mk .red d x a y) .red n := by
  cases d with
  | left => exact .red hx hy
  | right => exact .red hy hx

theorem mkBlack (hx : Balanced x c n) (hy : Balanced y c' n) :
    Balanced (mk .black d x a y) .black (n + 1) := by
  cases d with
  | left => exact .black hx hy
  | right => exact .black hy hx

theorem of_mkRed (h : Balanced (mk .red d x a y) c n) :
    c = .red ∧ Balanced x .black n ∧ Balanced y .black n := by
  cases d with
  | left =>
    cases h with
    | red hl hr => exact ⟨rfl, hl, hr⟩
  | right =>
    cases h with
    | red hl hr => exact ⟨rfl, hr, hl⟩

theorem of_mkBlack (h : Balanced (mk .black d x a y) c n) :
    c = .black ∧ ∃ m c₁ c₂, n = m + 1 ∧ Balanced x c₁ m ∧ Balanced y c₂ m := by
  cases d with
  | left =>
    cases h with
    | black hl hr => exact ⟨rfl, _, _, _, rfl, hl, hr⟩
  | right =>
    cases h with
    | black hl hr => exact ⟨rfl, _, _, _, rfl, hr, hl⟩

/-- A red root may become black, on every path at once. -/
theorem paint_black (h : Balanced t .red n) : Balanced (t.paint .black) .black (n + 1) := by
  cases h with
  | red hl hr => exact .black hl hr

/-- Without black nodes there is at most one node. -/
theorem height_zero (h : Balanced t c 0) :
    t = ColorTree.nil ∨ ∃ a, t = node .red ColorTree.nil a ColorTree.nil := by
  cases h with
  | nil => exact Or.inl rfl
  | red hl hr =>
    cases hl
    cases hr
    exact Or.inr ⟨_, rfl⟩

theorem exists_mk_of_pos (h : Balanced t .black (n + 1)) (d : Side) :
    ∃ x a y c₁ c₂, t = mk .black d x a y ∧ Balanced x c₁ n ∧ Balanced y c₂ n := by
  cases h with
  | black hl hr =>
    cases d with
    | left => exact ⟨_, _, _, _, _, rfl, hl, hr⟩
    | right => exact ⟨_, _, _, _, _, rfl, hr, hl⟩

theorem exists_mk_of_red (h : Balanced t .red n) (d : Side) :
    ∃ x a y, t = mk .red d x a y ∧ Balanced x .black n ∧ Balanced y .black n := by
  cases h with
  | red hl hr =>
    cases d with
    | left => exact ⟨_, _, _, rfl, hl, hr⟩
    | right => exact ⟨_, _, _, rfl, hr, hl⟩

end Balanced

/-! ## Holes -/

/-- The tree in the hole, with what surrounds it. -/
def plug : List (Frame α) → ColorTree α → ColorTree α
  | [], t => t
  | f :: ctx, t => plug ctx (mk f.color f.side t f.elem f.sib)

/-- The elements in front of the hole. -/
def before : List (Frame α) → List α
  | [] => []
  | f :: ctx =>
    match f.side with
    | .left => before ctx
    | .right => before ctx ++ (f.sib.toList ++ [f.elem])

/-- The elements behind the hole. -/
def after : List (Frame α) → List α
  | [] => []
  | f :: ctx =>
    match f.side with
    | .left => f.elem :: f.sib.toList ++ after ctx
    | .right => after ctx

theorem toList_plug (ctx : List (Frame α)) (t : ColorTree α) :
    (plug ctx t).toList = before ctx ++ t.toList ++ after ctx := by
  induction ctx generalizing t with
  | nil => simp [plug, before, after]
  | cons f ctx ih =>
    rw [plug, ih]
    cases hf : f.side <;> simp [before, after, hf, mk, toList]

/-- Every element of a tree is the root of what fills some hole. -/
theorem exists_plug_of_mem {t : ColorTree α} {a : α} (h : a ∈ t.toList) :
    ∃ ctx c l r, t = plug ctx (node c l a r) := by
  suffices hctx : ∀ ctx0, ∃ ctx c l r, plug ctx0 t = plug ctx (node c l a r) from hctx []
  intro ctx0
  induction t generalizing ctx0 with
  | nil => simp [toList] at h
  | node c l b r ihl ihr =>
    rw [toList, List.mem_append, List.mem_cons] at h
    rcases h with h | rfl | h
    · exact ihl h (⟨.left, c, b, r⟩ :: ctx0)
    · exact ⟨ctx0, c, l, r, rfl⟩
    · exact ihr h (⟨.right, c, b, l⟩ :: ctx0)

theorem length_le_toList_plug (ctx : List (Frame α)) (t : ColorTree α) :
    ctx.length + t.toList.length ≤ (plug ctx t).toList.length := by
  induction ctx generalizing t with
  | nil => simp [plug]
  | cons f ctx ih =>
    have hmk : t.toList.length + 1 ≤ (mk f.color f.side t f.elem f.sib).toList.length := by
      cases f.side <;> simp [mk, toList]
    have := ih (mk f.color f.side t f.elem f.sib)
    rw [plug, List.length_cons]
    omega

/-- Rebalancing in the hole keeps the order of all elements. -/
theorem toList_plug_congr {ctx : List (Frame α)} {t t' : ColorTree α} (h : t'.toList = t.toList) :
    (plug ctx t').toList = (plug ctx t).toList := by
  rw [toList_plug, toList_plug, h]

/-- What surrounds the hole needs a tree with the root `c` and `n` black nodes on each path. -/
inductive Fits : List (Frame α) → Color → Nat → Prop where
  | root {n : Nat} : Fits [] .black n
  | red {d : Side} {a : α} {sib : ColorTree α} {ctx : List (Frame α)} {n : Nat} :
      Balanced sib .black n → Fits ctx .red n → Fits (⟨d, .red, a, sib⟩ :: ctx) .black n
  | black {d : Side} {a : α} {sib : ColorTree α} {ctx : List (Frame α)} {c c' : Color} {n : Nat} :
      Balanced sib c' n → Fits ctx .black (n + 1) → Fits (⟨d, .black, a, sib⟩ :: ctx) c n

namespace Fits

variable {ctx ctx' : List (Frame α)} {t : ColorTree α} {a b : α} {c : Color} {d : Side} {n m : Nat}

theorem plug (h : Fits ctx c n) (ht : Balanced t c n) : ∃ m, Balanced (plug ctx t) .black m := by
  induction h generalizing t with
  | root => exact ⟨_, ht⟩
  | red hsib _ ih => exact ih (ht.mkRed hsib)
  | black hsib _ ih => exact ih (ht.mkBlack hsib)

/-- A hole for red trees also takes black ones. -/
theorem toBlack (h : Fits ctx c n) : Fits ctx .black n := by
  cases h with
  | root => exact .root
  | red hsib h => exact .red hsib h
  | black hsib h => exact .black hsib h

/-- Two black trees below the node that the hole was at. -/
theorem refill {sib x y : ColorTree α} {c' : Color} (h : Fits (⟨d, c, b, sib⟩ :: ctx) c' n)
    (d' : Side) (a : α) (hx : Balanced x .black n) (hy : Balanced y .black n) :
    ∃ m, Balanced (RedBlack.plug ctx (mk c d' x a y)) .black m := by
  cases h with
  | red _ h => exact h.plug (hx.mkRed hy)
  | black _ h => exact h.plug (hx.mkBlack hy)

theorem toBlack_of_red {sib : ColorTree α} {c' : Color} (h : Fits (⟨d, .red, b, sib⟩ :: ctx) c' n) :
    Fits ctx .black n := by
  cases h with
  | red _ h => exact h.toBlack

theorem of_black {sib : ColorTree α} {c' : Color} (h : Fits (⟨d, .black, b, sib⟩ :: ctx) c' n) :
    Fits ctx .black (n + 1) := by
  cases h with
  | black _ h => exact h

theorem sib {sib : ColorTree α} {c' : Color} (h : Fits (⟨d, c, b, sib⟩ :: ctx) c' n) :
    Balanced sib .black n ∨ Balanced sib .red n ∧ c = .black := by
  cases h with
  | red hsib _ => exact Or.inl hsib
  | @black _ _ _ _ _ cs _ hsib _ =>
    cases cs with
    | red => exact Or.inr ⟨hsib, rfl⟩
    | black => exact Or.inl hsib

/-- Elements do not matter to the balance. -/
theorem replace {sib : ColorTree α} (h : Fits (ctx' ++ ⟨d, c, a, sib⟩ :: ctx) c' n) :
    Fits (ctx' ++ ⟨d, c, b, sib⟩ :: ctx) c' n := by
  induction ctx' generalizing c' n with
  | nil =>
    cases h with
    | red hsib h => exact .red hsib h
    | black hsib h => exact .black hsib h
  | cons f ctx' ih =>
    cases h with
    | red hsib h => exact .red hsib (ih h)
    | black hsib h => exact .black hsib (ih h)

end Fits

/-- A balanced tree with a hole cut into it. -/
theorem Balanced.unplug {ctx : List (Frame α)} {t : ColorTree α} {m : Nat}
    (h : Balanced (RedBlack.plug ctx t) .black m) : ∃ c n, Fits ctx c n ∧ Balanced t c n := by
  induction ctx generalizing t with
  | nil => exact ⟨.black, m, .root, h⟩
  | cons f ctx ih =>
    obtain ⟨c, n, hfits, ht⟩ := ih h
    obtain ⟨d, cf, a, sib⟩ := f
    cases cf with
    | red =>
      obtain ⟨rfl, ht, hsib⟩ := ht.of_mkRed
      exact ⟨.black, n, .red hsib hfits, ht⟩
    | black =>
      obtain ⟨rfl, k, c₁, c₂, rfl, ht, hsib⟩ := ht.of_mkBlack
      exact ⟨c₁, k, .black hsib hfits, ht⟩

end RedBlack
