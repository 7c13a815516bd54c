import OsKernel.Lib.Ring

/-!
# Circular lists

The functions of `common/list.c` on the nodes of circular lists.  A node is an
address of any type; `Option` stands for a pointer that may be `NULL`.
-/

namespace OsKernel

open List

variable {α : Type} [DecidableEq α]

def initListNode (l : Links α) (node : α) : Links α := (l.setPrev node node).setNext node node

def mergeList (l : Links α) : Option α → Option α → Links α × Option α
  | none, node2 => (l, node2)
  | some node1, none => (l, some node1)
  | some node1, some node2 =>
    let node3 := l.next node1
    let node4 := l.prev node2
    let l := l.setNext node1 node2
    let l := l.setPrev node2 node1
    let l := l.setNext node4 node3
    let l := l.setPrev node3 node4
    (l, some node1)

def insertIntoList (l : Links α) (list node : α) : Links α :=
  (mergeList (initListNode l node) (some list) (some node)).1

def detachFromList (l : Links α) (node : α) : Links α × Option α :=
  let prev := l.prev node
  let l := l.setNext (l.prev node) (l.next node)
  let l := l.setPrev (l.next node) (l.prev node)
  (initListNode l node, if prev = node then none else some prev)

def emptyList (l : Links α) (list : α) : Bool := l.next list = list

/-- The nodes a loop `_for_in_list` over `list` passes from `valptr` on: it
stops after `list` itself.  Without fuel the loop is still running. -/
def forInList (l : Links α) (list : α) : Nat → α → Option (List α)
  | 0, _ => none
  | fuel + 1, valptr =>
    if valptr = list then some [valptr]
    else (forInList l list fuel (l.next valptr)).map (valptr :: ·)

variable {l : Links α} {h n y : α} {xs ys : List α}

@[simp] theorem next_initListNode : (initListNode l n).next y = if y = n then n else l.next y := by
  rw [initListNode, Links.next_setNext, Links.next_setPrev]

@[simp] theorem prev_initListNode : (initListNode l n).prev y = if y = n then n else l.prev y := by
  rw [initListNode, Links.prev_setNext, Links.prev_setPrev]

/-- A node alone is an empty list. -/
theorem ring_initListNode : (initListNode l n).Ring n [] := by
  simp [Links.ring_nil]

/-! ## Joining two lists -/

section

variable {a b : α}

theorem next_mergeList : (mergeList l (some a) (some b)).1.next y =
      if y = l.prev b then l.next a else if y = a then b else l.next y := by
  simp [mergeList, Links.next_setNext]

theorem prev_mergeList : (mergeList l (some a) (some b)).1.prev y =
      if y = l.next a then l.prev b else if y = b then a else l.prev y := by
  simp [mergeList, Links.prev_setPrev]

/-- The second list comes in behind the head of the first. -/
theorem ring_mergeList (ha : l.Ring a xs) (hb : l.Ring b ys) (hd : (a :: xs).Disjoint (b :: ys)) :
    (mergeList l (some a) (some b)).1.Ring a (b :: ys ++ xs) := by
  have hprev : a ≠ l.prev b := fun e => hd mem_cons_self (e ▸ hb.prev_mem)
  have hnext : b ≠ l.next a := fun e => hd ha.next_mem (e ▸ mem_cons_self)
  refine ha.splice hb hd ?_ ?_ ?_ ?_ (fun y hya hyp => ?_) fun y hyb hyn => ?_
  · rw [next_mergeList, if_neg hprev, if_pos rfl]
  · rw [prev_mergeList, if_neg hnext, if_pos rfl]
  · rw [next_mergeList, if_pos rfl]
  · rw [prev_mergeList, if_pos rfl]
  · rw [next_mergeList, if_neg hyp, if_neg hya]
  · rw [prev_mergeList, if_neg hyn, if_neg hyb]

end

/-! ## Insertion -/

theorem next_insertIntoList (hn : n ≠ h) :
    (insertIntoList l h n).next y = if y = n then l.next h else if y = h then n else l.next y := by
  rw [insertIntoList, next_mergeList]
  simp only [prev_initListNode, next_initListNode, if_neg (Ne.symm hn), ↓reduceIte]
  by_cases hy : y = n <;> simp [hy]

theorem prev_insertIntoList (hn : n ≠ h) (hnext : l.next h ≠ n) : (insertIntoList l h n).prev y =
      if y = l.next h then n else if y = n then h else l.prev y := by
  rw [insertIntoList, prev_mergeList]
  simp only [prev_initListNode, next_initListNode, if_neg (Ne.symm hn), ↓reduceIte]
  by_cases hy : y = n <;> simp [hy, Ne.symm hnext]

/-- The new node is the first, and no other list changes. -/
theorem ring_insertIntoList (hr : l.Ring h xs) (hmem : n ∉ h :: xs) :
    (insertIntoList l h n).Ring h (n :: xs) ∧
      ∀ y, y ∉ h :: n :: xs →
        (insertIntoList l h n).next y = l.next y ∧ (insertIntoList l h n).prev y = l.prev y := by
  have hne : ∀ y ∈ h :: xs, y ≠ n := fun y hy e => hmem (e ▸ hy)
  have hold : (initListNode l n).Ring h xs :=
    hr.congr (fun y hy => by simp [hne y hy]) fun y hy => by simp [hne y hy]
  refine ⟨ring_mergeList hold ring_initListNode (by simpa using hmem), fun y hy => ?_⟩
  have hh := Ne.symm (hne h mem_cons_self)
  simp only [mem_cons, not_or] at hy
  have hyn : y ≠ l.next h := by
    rintro rfl
    have hnextmem := hr.next_mem
    simp only [mem_cons, hy.1, hy.2.2, or_self] at hnextmem
  simp [next_insertIntoList hh, prev_insertIntoList hh (hne _ hr.next_mem), hy.1, hy.2.1, hyn]

/-! ## Removal -/

theorem next_detachFromList : (detachFromList l n).1.next y =
      if y = n then n else if y = l.prev n then l.next n else l.next y := by
  simp [detachFromList, Links.next_setNext]

theorem prev_detachFromList : (detachFromList l n).1.prev y =
      if y = n then n else if y = l.next n then l.prev n else l.prev y := by
  simp [detachFromList, Links.prev_setPrev, Links.next_setNext]

theorem ring_detached : (detachFromList l n).1.Ring n [] := ring_initListNode

/-- The list without `n`, read from the node after it. -/
theorem ring_after_detached {x : α} (hr : l.Ring n (x :: xs)) :
    (detachFromList l n).1.Ring x xs := by
  have hne : l.prev n ≠ n := fun e => by simpa using hr.prev_eq_head.mp e
  have hne' : l.next n ≠ n := fun e => by simpa using hr.next_eq_head.mp e
  refine hr.unlink ?_ ?_ (fun y hy hyp => ?_) fun y hy hyn => ?_
  · rw [next_detachFromList, if_neg hne, if_pos rfl]
  · rw [prev_detachFromList, if_neg hne', if_pos rfl]
  · rw [next_detachFromList, if_neg hy, if_neg hyp]
  · rw [prev_detachFromList, if_neg hy, if_neg hyn]

/-- The node is a list of its own, and no other list changes. -/
theorem ring_detachFromList (hr : l.Ring h (xs ++ n :: ys)) :
    (detachFromList l n).1.Ring h (xs ++ ys) ∧ (detachFromList l n).1.Ring n [] ∧
      ∀ y, y ∉ h :: (xs ++ n :: ys) →
        (detachFromList l n).1.next y = l.next y ∧ (detachFromList l n).1.prev y = l.prev y := by
  have hrot := hr.rotate
  refine ⟨?_, ring_detached, fun y hy => ?_⟩
  · cases ys with
    | nil => simpa using ring_after_detached hrot
    | cons z ys => exact (ring_after_detached hrot).rotate
  have hout : ∀ z ∈ n :: (ys ++ h :: xs), y ≠ z := by
    rintro z hz rfl
    exact hy (by simp_all [or_left_comm])
  rw [next_detachFromList, prev_detachFromList, if_neg (hout n mem_cons_self),
    if_neg (hout n mem_cons_self), if_neg (hout _ hrot.prev_mem), if_neg (hout _ hrot.next_mem)]
  exact ⟨rfl, rfl⟩

/-! ## Loops -/

/-- The loop walks along a chain up to the head. -/
theorem forInList_of_chain {x : α} (hc : (x :: (xs ++ [h])).IsChain l.Linked) (hx : h ∉ x :: xs)
    (k : Nat) : forInList l h (xs.length + 2 + k) x = some (x :: xs ++ [h]) := by
  induction xs generalizing x with
  | nil =>
    have hxh : x ≠ h := fun e => hx (e ▸ mem_cons_self)
    have hnext : l.next x = h := (isChain_cons_cons.mp hc).1.1
    rw [length_nil, show 0 + 2 + k = k + 1 + 1 by omega, forInList, if_neg hxh, hnext,
      forInList, if_pos rfl]
    rfl
  | cons z xs ih =>
    have hxh : x ≠ h := fun e => hx (e ▸ mem_cons_self)
    rw [cons_append, isChain_cons_cons] at hc
    rw [length_cons, show xs.length + 1 + 2 + k = xs.length + 2 + k + 1 by omega, forInList,
      if_neg hxh, hc.1.1, ih hc.2 fun hm => hx (mem_cons_of_mem _ hm)]
    rfl

/-- The loop over a list ends, and visits each node once. -/
theorem ring_forInList (hr : l.Ring h xs) {fuel : Nat} (hf : xs.length < fuel) :
    forInList l h fuel (l.next h) = some (xs ++ [h]) := by
  obtain ⟨fuel, rfl⟩ := Nat.exists_eq_add_of_lt hf
  cases xs with
  | nil => simp [forInList, (Links.ring_nil.mp hr).1]
  | cons x xs =>
    have hc := hr.chain
    rw [cons_append, isChain_cons_cons] at hc
    rw [hc.1.1]
    have := forInList_of_chain hc.2 hr.not_mem fuel
    rwa [show xs.length + 2 + fuel = (x :: xs).length + fuel + 1 by simp; omega] at this

/-- The operations on well-formed lists, given by any node and the nodes after it. -/
theorem list_operations {a : α} (ha : l.Ring a xs) :
    (∀ b ys, l.Ring b ys → (a :: xs).Disjoint (b :: ys) →
      (mergeList l (some a) (some b)).1.Ring a (b :: ys ++ xs) ∧
        (mergeList l (some a) (some b)).1.next a = b ∧
        (mergeList l (some a) (some b)).2 = some a) ∧
    (∀ n ∉ a :: xs, (insertIntoList l a n).Ring a (n :: xs) ∧
      (∀ y, y ≠ a → y ≠ n → (insertIntoList l a n).next y = l.next y) ∧
      ∀ y, y ≠ n → y ≠ l.next a → (insertIntoList l a n).prev y = l.prev y) ∧
    ((detachFromList l a).1.Ring a [] ∧
      (∀ x zs, xs = x :: zs → (detachFromList l a).1.Ring x zs) ∧
      (∀ y, y ≠ a → y ≠ l.prev a → (detachFromList l a).1.next y = l.next y) ∧
      (∀ y, y ≠ a → y ≠ l.next a → (detachFromList l a).1.prev y = l.prev y) ∧
      ((detachFromList l a).2 = none ↔ xs = [])) ∧
    (xs ++ [a]).Nodup ∧ ∀ fuel > xs.length, forInList l a fuel (l.next a) = some (xs ++ [a]) := by
  refine ⟨fun b ys hb hd => ⟨ring_mergeList ha hb hd, ?_, rfl⟩, fun n hn => ?_,
    ⟨ring_detached, ?_, ?_, ?_, ?_⟩, ?_, fun fuel hf => ring_forInList ha hf⟩
  · have hprev : a ≠ l.prev b := fun e => hd mem_cons_self (e ▸ hb.prev_mem)
    rw [next_mergeList, if_neg hprev, if_pos rfl]
  · have hna : n ≠ a := fun e => hn (e ▸ mem_cons_self)
    have hnext : l.next a ≠ n := fun e => hn (e ▸ ha.next_mem)
    refine ⟨(ring_insertIntoList ha hn).1, fun y hya hyn => ?_, fun y hyn hynext => ?_⟩
    · rw [next_insertIntoList hna, if_neg hyn, if_neg hya]
    · rw [prev_insertIntoList hna hnext, if_neg hynext, if_neg hyn]
  · rintro x zs rfl
    exact ring_after_detached ha
  · intro y hya hyp
    rw [next_detachFromList, if_neg hya, if_neg hyp]
  · intro y hya hyn
    rw [prev_detachFromList, if_neg hya, if_neg hyn]
  · simp [detachFromList, ha.prev_eq_head]
  · exact (perm_append_singleton a xs).nodup_iff.mpr ha.nodup

theorem list_operations_pairs : ∃ l : Links Nat, l.Ring 0 [1] ∧ l.Ring 2 [3] ∧
    (mergeList l (some 0) (some 2)).1.Ring 0 [2, 3, 1] := by
  let l : Links Nat := ⟨(· ^^^ 1), (· ^^^ 1)⟩
  have h0 : l.Ring 0 [1] := ⟨by simp [l, Links.Linked], by decide⟩
  have h2 : l.Ring 2 [3] := ⟨by simp [l, Links.Linked], by decide⟩
  exact ⟨l, h0, h2, ((list_operations h0).1 2 [3] h2 (by simp)).1⟩

/-- The loop does not end where the links never lead to the head. -/
theorem forInList_of_closed {S : α → Prop} (hclosed : ∀ x, S x → S (l.next x)) (hh : ¬ S h) {x : α}
    (hx : S x) (fuel : Nat) : forInList l h fuel x = none := by
  induction fuel generalizing x with
  | zero => rfl
  | succ fuel ih =>
    have hxh : x ≠ h := fun e => hh (e ▸ hx)
    rw [forInList, if_neg hxh, ih (hclosed x hx), Option.map_none]

end OsKernel
