import OsKernel.Lib.RedBlack

/-!
# Red-black trees in memory

`common/rbtree.c`.  A node is known by its address; the lowest bit of `__rb_parent_color` is its
colour and the rest is the address of its parent.  Addresses are multiples of eight.

The two halves of `__rb_insert_fix` and of `__rb_erase_fix` are the same text with left and right
exchanged.  Here they are one text with a side `d`, the side of `parent` in the first function
and of `node` in the second.

A loop takes the number of its turns as an argument and returns `none` when there are no more;
the functions that are called from elsewhere pass it on.
-/

namespace OsKernel

open Function

open RedBlack (Side Color)

structure RbNode where
  parentColor : Nat
  right : Nat
  left : Nat

namespace RbNode

def child (n : RbNode) : Side → Nat
  | .left => n.left
  | .right => n.right

def setChild (n : RbNode) (d : Side) (v : Nat) : RbNode :=
  match d with
  | .left => { n with left := v }
  | .right => { n with right := v }

end RbNode

def RB_RED : Nat := 0

def RB_BLACK : Nat := 1

/-- `__rb_parent(pc)`, which is `pc & ~3`. -/
def pcParent (pc : Nat) : Nat := pc / 4 * 4

/-- `__rb_color(pc)`. -/
def pcColor (pc : Nat) : Nat := pc % 2

/-- The nodes in memory, and `root->rb_node`. -/
structure RbTree where
  node : Nat → RbNode
  root : Nat

namespace RbTree

variable (s : RbTree)

def setChild (a : Nat) (d : Side) (v : Nat) : RbTree :=
  { s with node := update s.node a ((s.node a).setChild d v) }

def setPc (a v : Nat) : RbTree :=
  { s with node := update s.node a { s.node a with parentColor := v } }

def rbParent (a : Nat) : Nat := pcParent (s.node a).parentColor

def rbIsRed (a : Nat) : Bool := pcColor (s.node a).parentColor = RB_RED

def rbIsBlack (a : Nat) : Bool := pcColor (s.node a).parentColor ≠ RB_RED

def rbSetBlack (a : Nat) : RbTree := s.setPc a ((s.node a).parentColor ||| RB_BLACK)

/-- `rb_red_parent`: the parent of a red node. -/
def rbRedParent (a : Nat) : Nat := (s.node a).parentColor

def rbSetParent (a p : Nat) : RbTree := s.setPc a (pcColor (s.node a).parentColor ||| p)

def rbSetParentColor (a p color : Nat) : RbTree := s.setPc a (p ||| color)

/-- `if (a) rb_set_parent_color(a, p, color)`. -/
def rbSetParentColorIf (a p color : Nat) : RbTree :=
  if a ≠ 0 then s.rbSetParentColor a p color else s

/-- `if (a) rb_set_parent(a, p)`. -/
def rbSetParentIf (a p : Nat) : RbTree := if a ≠ 0 then s.rbSetParent a p else s

def rbChangeChild (old new parent : Nat) : RbTree :=
  if parent ≠ 0 then
    if (s.node parent).left = old then s.setChild parent .left new
    else s.setChild parent .right new
  else { s with root := new }

def rbRotateSetParents (old new color : Nat) : RbTree :=
  let parent := s.rbParent old
  let s := s.setPc new (s.node old).parentColor
  let s := s.rbSetParentColor old new color
  s.rbChangeChild old new parent

/-! ## Insertion -/

/-- Case 1 of `__rb_insert_fix`, with a red uncle `tmp`. -/
def insertRecolor (tmp parent gparent : Nat) : RbTree :=
  let s := s.rbSetParentColor tmp gparent RB_BLACK
  let s := s.rbSetParentColor parent gparent RB_BLACK
  s.rbSetParentColor gparent (s.rbParent gparent) RB_RED

/-- Case 2: a rotation at `parent`. -/
def insertRotateInner (d : Side) (node parent : Nat) : RbTree :=
  let tmp := (s.node node).child d
  let s := s.setChild parent d.flip tmp
  let s := s.rbSetParentColorIf tmp parent RB_BLACK
  let s := s.setChild node d parent
  s.rbSetParentColor parent node RB_RED

/-- Case 3: a rotation at `gparent`. -/
def insertRotateOuter (d : Side) (tmp parent gparent : Nat) : RbTree :=
  let s := s.setChild gparent d tmp
  let s := s.rbSetParentColorIf tmp gparent RB_BLACK
  let s := s.setChild parent d.flip gparent
  s.rbRotateSetParents gparent parent RB_RED

def insertRotate (d : Side) (node parent gparent : Nat) : RbTree :=
  let tmp := (s.node parent).child d.flip
  if node = tmp then
    let s := s.insertRotateInner d node parent
    s.insertRotateOuter d ((s.node node).child d.flip) node gparent
  else s.insertRotateOuter d tmp parent gparent

end RbTree

open RbTree

/-- The loop of `__rb_insert_fix`. -/
def rbInsertFix : Nat → Nat → Nat → RbTree → Option RbTree
  | 0, _, _, _ => none
  | fuel + 1, node, parent, s =>
    if parent = 0 then some { s.rbSetParentColor node 0 RB_BLACK with root := node }
    else if s.rbIsBlack parent then some s
    else
      let gparent := s.rbRedParent parent
      let d := if parent ≠ (s.node gparent).right then Side.left else Side.right
      let tmp := (s.node gparent).child d.flip
      if tmp ≠ 0 ∧ s.rbIsRed tmp then
        rbInsertFix fuel gparent (s.rbParent gparent) (s.insertRecolor tmp parent gparent)
      else some (s.insertRotate d node parent gparent)

section

variable (cmp : Nat → Nat → Bool)

/-- The loop of `_rb_insert`.  The inner `none` is the return of `-1`. -/
def rbInsertLoop (node : Nat) : Nat → Nat → RbTree → Option (Option RbTree)
  | 0, _, _ => none
  | fuel + 1, nw, s =>
    if nw = 0 then some (some s)
    else if cmp node nw then
      let next := (s.node nw).left
      rbInsertLoop node fuel next
        (if next = 0 then (s.setChild nw .left node).setPc node nw else s)
    else if cmp nw node then
      let next := (s.node nw).right
      rbInsertLoop node fuel next
        (if next = 0 then (s.setChild nw .right node).setPc node nw else s)
    else some none

def rbInsert (fuel node : Nat) (s : RbTree) : Option (Int × RbTree) :=
  let fresh : RbTree := { s with node := update s.node node ⟨0, 0, 0⟩ }
  match rbInsertLoop cmp node fuel s.root fresh with
  | none => none
  | some none => some (-1, fresh)
  | some (some s) =>
    match rbInsertFix fuel node (s.rbRedParent node) s with
    | none => none
    | some s => some (0, s)

end

/-! ## Removal -/

/-- The `do` loop of `__rb_erase`: `parent` and `successor`. -/
def rbSuccessor (s : RbTree) : Nat → Nat → Nat → Option (Nat × Nat)
  | 0, _, _ => none
  | fuel + 1, successor, tmp =>
    if (s.node tmp).left ≠ 0 then rbSuccessor s fuel tmp (s.node tmp).left
    else some (successor, tmp)

namespace RbTree

variable (s : RbTree)

/-- `__rb_erase` without a left child. -/
def eraseNoLeft (node child : Nat) : Nat × RbTree :=
  let pc := (s.node node).parentColor
  let parent := pcParent pc
  let s := s.rbChangeChild node child parent
  if child ≠ 0 then (0, s.setPc child pc)
  else (if pcColor pc ≠ RB_RED then parent else 0, s)

/-- `__rb_erase` with a left child `tmp` only. -/
def eraseNoRight (node tmp : Nat) : Nat × RbTree :=
  let pc := (s.node node).parentColor
  let s := s.setPc tmp pc
  (0, s.rbChangeChild node tmp (pcParent pc))

/-- `__rb_erase` with two children, once `successor` has been taken out of its place: it takes the
place of `node`, and `child2` has the new parent `parent`. -/
def eraseReplace (node successor parent child2 : Nat) : Nat × RbTree :=
  let tmp := (s.node node).left
  let s := s.setChild successor .left tmp
  let s := s.rbSetParent tmp successor
  let pc := (s.node node).parentColor
  let s := s.rbChangeChild node successor (pcParent pc)
  if child2 ≠ 0 then
    let s := s.setPc successor pc
    (0, s.rbSetParentColor child2 parent RB_BLACK)
  else
    let pc2 := (s.node successor).parentColor
    (if pcColor pc2 ≠ RB_RED then parent else 0, s.setPc successor pc)

/-- The successor is below `child`. -/
def eraseDetach (child successor parent : Nat) : RbTree :=
  let s := s.setChild parent .left (s.node successor).right
  let s := s.setChild successor .right child
  s.rbSetParent child successor

end RbTree

/-- `__rb_erase`: `rebalance`. -/
def rbEraseNode (fuel node : Nat) (s : RbTree) : Option (Nat × RbTree) :=
  let child := (s.node node).right
  let tmp := (s.node node).left
  if tmp = 0 then some (s.eraseNoLeft node child)
  else if child = 0 then some (s.eraseNoRight node tmp)
  else if (s.node child).left = 0 then
    some (s.eraseReplace node child child (s.node child).right)
  else
    match rbSuccessor s fuel child (s.node child).left with
    | none => none
    | some (parent, successor) =>
      some ((s.eraseDetach child successor parent).eraseReplace node successor parent
        (s.node successor).right)

namespace RbTree

variable (s : RbTree)

/-- Case 1 of `__rb_erase_fix`: a rotation at `parent`, whose child `sibling` is red. -/
def eraseRotateRed (d : Side) (parent sibling : Nat) : RbTree :=
  let tmp1 := (s.node sibling).child d
  let s := s.setChild parent d.flip tmp1
  let s := s.rbSetParentColor tmp1 parent RB_BLACK
  let s := s.setChild sibling d parent
  s.rbRotateSetParents parent sibling RB_RED

/-- Case 3: a rotation at `sibling`, whose child `tmp2` is red. -/
def eraseRotateInner (d : Side) (parent sibling tmp2 : Nat) : RbTree :=
  let tmp1 := (s.node tmp2).child d.flip
  let s := s.setChild sibling d tmp1
  let s := s.rbSetParentColorIf tmp1 sibling RB_BLACK
  let s := s.setChild tmp2 d.flip sibling
  s.setChild parent d.flip tmp2

/-- Case 4: a rotation at `parent`. -/
def eraseRotateOuter (d : Side) (parent sibling tmp1 : Nat) : RbTree :=
  let tmp2 := (s.node sibling).child d
  let s := s.setChild parent d.flip tmp2
  let s := s.rbSetParentIf tmp2 parent
  let s := s.setChild sibling d parent
  let s := s.rbSetParentColor tmp1 sibling RB_BLACK
  s.rbRotateSetParents parent sibling RB_BLACK

/-- A pointer to a black node or `NULL`. -/
def blackOrNull (a : Nat) : Bool := a = 0 ∨ s.rbIsBlack a

end RbTree

/-- Cases 2 to 4 of `__rb_erase_fix`, with a black `sibling`; `next` is the next turn. -/
def eraseFixBlack (next : Nat → Nat → RbTree → Option RbTree) (d : Side) (parent sibling : Nat)
    (s : RbTree) : Option RbTree :=
  let tmp1 := (s.node sibling).child d.flip
  let tmp2 := (s.node sibling).child d
  if s.blackOrNull tmp1 then
    if s.blackOrNull tmp2 then
      let s := s.rbSetParentColor sibling parent RB_RED
      if s.rbIsRed parent then some (s.rbSetBlack parent)
      else if s.rbParent parent ≠ 0 then next parent (s.rbParent parent) s
      else some s
    else some ((s.eraseRotateInner d parent sibling tmp2).eraseRotateOuter d parent tmp2 sibling)
  else some (s.eraseRotateOuter d parent sibling tmp1)

/-- The loop of `__rb_erase_fix`. -/
def rbEraseFix : Nat → Nat → Nat → RbTree → Option RbTree
  | 0, _, _, _ => none
  | fuel + 1, node, parent, s =>
    let d := if node ≠ (s.node parent).right then Side.left else Side.right
    let sibling := (s.node parent).child d.flip
    if s.rbIsRed sibling then
      eraseFixBlack (rbEraseFix fuel) d parent ((s.node sibling).child d)
        (s.eraseRotateRed d parent sibling)
    else eraseFixBlack (rbEraseFix fuel) d parent sibling s

def rbErase (fuel node : Nat) (s : RbTree) : Option RbTree :=
  match rbEraseNode fuel node s with
  | none => none
  | some (rebalance, s) => if rebalance ≠ 0 then rbEraseFix fuel 0 rebalance s else some s

/-! ## Search -/

/-- The loop of `_rb_lookup`. -/
def rbLookupLoop (cmp : Nat → Nat → Bool) (node : Nat) (s : RbTree) : Nat → Nat → Option Nat
  | 0, _ => none
  | fuel + 1, nw =>
    if nw = 0 then some 0
    else if cmp node nw then rbLookupLoop cmp node s fuel (s.node nw).left
    else if cmp nw node then rbLookupLoop cmp node s fuel (s.node nw).right
    else some nw

def rbLookup (cmp : Nat → Nat → Bool) (fuel node : Nat) (s : RbTree) : Option Nat :=
  rbLookupLoop cmp node s fuel s.root

/-- The loop of `_rb_first`. -/
def rbFirstLoop (s : RbTree) : Nat → Nat → Option Nat
  | 0, _ => none
  | fuel + 1, n =>
    if (s.node n).left ≠ 0 then rbFirstLoop s fuel (s.node n).left else some n

def rbFirst (fuel : Nat) (s : RbTree) : Option Nat :=
  if s.root = 0 then some 0 else rbFirstLoop s fuel s.root

end OsKernel
