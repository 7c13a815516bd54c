import Mathlib.Data.List.Chain
import Mathlib.Data.List.Nodup

/-!
# Circular doubly linked lists

`Links` is a memory of nodes with a successor and a predecessor each.  `Path`
says that a sequence of nodes is linked in both directions; `Ring l h xs` says
that the circular list with head `h` passes through `xs`, each node once, and
returns to `h`, forwards and backwards.

A ring is read only at its own nodes, so a write to other nodes keeps it
(`Ring.congr`).
-/

structure Links (α : Type) where
  next : α → α
  prev : α → α

namespace Links

open Function List

variable {α : Type}

section
variable [DecidableEq α]

def setNext (l : Links α) (a b : α) : Links α := { l with next := update l.next a b }

def setPrev (l : Links α) (a b : α) : Links α := { l with prev := update l.prev a b }

variable (l : Links α) (a b c : α)

@[simp] theorem prev_setNext : (l.setNext a b).prev = l.prev := rfl

@[simp] theorem next_setPrev : (l.setPrev a b).next = l.next := rfl

theorem next_setNext : (l.setNext a b).next c = if c = a then b else l.next c := by
  simp [setNext, update_apply]

theorem prev_setPrev : (l.setPrev a b).prev c = if c = a then b else l.prev c := by
  simp [setPrev, update_apply]

end

variable {l l' : Links α} {a b h n : α} {xs ys : List α}

/-- `b` follows `a`. -/
def Linked (l : Links α) (a b : α) : Prop := l.next a = b ∧ l.prev b = a

/-- A chain reads the successors of its nodes but the last and the predecessors
of its nodes but the first. -/
theorem chain_congr (hc : xs.IsChain l.Linked) (hn : ∀ y ∈ xs.dropLast, l'.next y = l.next y)
    (hp : ∀ y ∈ xs.tail, l'.prev y = l.prev y) : xs.IsChain l'.Linked := by
  induction xs with
  | nil => exact .nil
  | cons x xs ih =>
    cases xs with
    | nil => exact .singleton x
    | cons y xs =>
      rw [isChain_cons_cons] at hc ⊢
      obtain ⟨hxy, hc⟩ := hc
      have hlink : l'.Linked x y :=
        ⟨(hn x mem_cons_self).trans hxy.1, (hp y mem_cons_self).trans hxy.2⟩
      exact ⟨hlink, ih hc (fun z hz => hn z (mem_cons_of_mem _ hz))
        (fun z hz => hp z (mem_cons_of_mem _ hz))⟩

theorem chain_step (hc : (a :: (xs ++ [b])).IsChain l.Linked) :
    (xs ++ [b]).IsChain l.Linked ∧ (xs ++ [b]).head? = some (l.next a) := by
  cases xs with
  | nil => exact ⟨.singleton b, by simp [(isChain_cons_cons.mp hc).1.1]⟩
  | cons x xs =>
    rw [cons_append, isChain_cons_cons] at hc
    exact ⟨hc.2, by simp [hc.1.1]⟩

/-- The circular list with head `h` and further nodes `xs`. -/
structure Ring (l : Links α) (h : α) (xs : List α) : Prop where
  chain : (h :: (xs ++ [h])).IsChain l.Linked
  nodup : (h :: xs).Nodup

theorem Ring.congr (hr : l.Ring h xs) (hn : ∀ y ∈ h :: xs, l'.next y = l.next y)
    (hp : ∀ y ∈ h :: xs, l'.prev y = l.prev y) : l'.Ring h xs := by
  refine ⟨chain_congr hr.chain (fun y hy => hn y ?_) fun y hy => hp y ?_, hr.nodup⟩
  · rwa [← cons_append, dropLast_concat] at hy
  · simpa [or_comm] using hy

theorem ring_nil : l.Ring h [] ↔ l.next h = h ∧ l.prev h = h := by
  constructor
  · intro hr
    simpa [Linked] using hr.chain
  · intro hl
    exact ⟨by simpa [Linked] using hl, by simp⟩

section

variable (hr : l.Ring h xs)

include hr

theorem Ring.next_eq_head : l.next h = h ↔ xs = [] := by
  cases xs with
  | nil => simpa using (ring_nil.mp hr).1
  | cons x xs =>
    have hx : x ≠ h := by
      rintro rfl
      simpa using hr.nodup
    have hnext : l.next h = x := (isChain_cons_cons.mp hr.chain).1.1
    simp [hnext, hx]

theorem Ring.not_mem : h ∉ xs := (nodup_cons.mp hr.nodup).1

/-- The nodes from the head on end in its predecessor, those after it begin with
its successor. -/
theorem Ring.ends : ∃ as bs, h :: xs = as ++ [l.prev h] ∧ xs ++ [h] = l.next h :: bs := by
  obtain ⟨as, a, ha⟩ : ∃ as a, h :: xs = as ++ [a] :=
    ⟨(h :: xs).dropLast, _, (dropLast_concat_getLast (cons_ne_nil h xs)).symm⟩
  obtain ⟨b, bs, hb⟩ : ∃ b bs, xs ++ [h] = b :: bs := by
    cases xs with
    | nil => exact ⟨h, [], rfl⟩
    | cons x xs => exact ⟨x, xs ++ [h], rfl⟩
  have hnext := hr.chain
  rw [hb, isChain_cons_cons] at hnext
  have hprev := hr.chain
  rw [← cons_append, ha, append_assoc, singleton_append,
    isChain_append_cons_cons] at hprev
  rw [hnext.1.1, hprev.2.1.2]
  exact ⟨as, bs, ha, hb⟩

theorem Ring.prev_mem : l.prev h ∈ h :: xs := by
  obtain ⟨as, bs, ha, -⟩ := hr.ends
  rw [ha]
  exact mem_append_right _ mem_cons_self

theorem Ring.next_mem : l.next h ∈ h :: xs := by
  obtain ⟨as, bs, -, hb⟩ := hr.ends
  have hmem : l.next h ∈ xs ++ [h] := hb ▸ mem_cons_self
  simpa [or_comm] using hmem

theorem Ring.prev_eq_head : l.prev h = h ↔ xs = [] := by
  obtain ⟨as, bs, ha, -⟩ := hr.ends
  constructor
  · intro he
    cases as with
    | nil => exact (List.cons.inj ha).2
    | cons a as =>
      rw [cons_append, List.cons.injEq, he] at ha
      exact absurd (ha.2 ▸ mem_append_right _ mem_cons_self) hr.not_mem
  · rintro rfl
    exact (ring_nil.mp hr).2

/-- Two rings, cut after `h` and before `b` and joined there. -/
theorem Ring.splice (hb : l.Ring b ys) (hd : (h :: xs).Disjoint (b :: ys)) (h1 : l'.next h = b)
    (h2 : l'.prev b = h) (h3 : l'.next (l.prev b) = l.next h) (h4 : l'.prev (l.next h) = l.prev b)
    (hn : ∀ y, y ≠ h → y ≠ l.prev b → l'.next y = l.next y)
    (hp : ∀ y, y ≠ b → y ≠ l.next h → l'.prev y = l.prev y) : l'.Ring h (b :: ys ++ xs) := by
  obtain ⟨-, cs, -, hcs⟩ := hr.ends
  obtain ⟨as, -, has, -⟩ := hb.ends
  have hnext : ∀ y ∈ b :: ys, y ≠ l.next h := fun y hy e => hd hr.next_mem (e ▸ hy)
  have hprev : ∀ y ∈ h :: xs, y ≠ l.prev b := fun y hy e => hd hy (e ▸ hb.prev_mem)
  have hcb : (b :: ys).IsChain l'.Linked := by
    have hc : (b :: ys ++ [b]).IsChain l.Linked := hb.chain
    refine chain_congr (isChain_append.mp hc).1 (fun y hy => hn y ?_ ?_) fun y hy => hp y ?_ ?_
    · rintro rfl
      exact hd mem_cons_self (dropLast_subset _ hy)
    · have hnd := hb.nodup
      rw [has, nodup_append] at hnd
      rw [has, dropLast_concat] at hy
      exact hnd.2.2 y hy _ mem_cons_self
    · exact fun e => hb.not_mem (e ▸ hy)
    · exact hnext y (mem_cons_of_mem _ hy)
  have hch : (l.next h :: cs).IsChain l'.Linked := by
    have hc := hr.chain
    have hnd : (xs ++ [h]).Nodup := (perm_append_singleton h xs).nodup_iff.mpr hr.nodup
    rw [hcs] at hc hnd
    have hmem : ∀ y ∈ cs, y ∈ h :: xs := fun y hy => by
      have hy' : y ∈ xs ++ [h] := hcs ▸ mem_cons_of_mem _ hy
      simpa [or_comm] using hy'
    refine chain_congr hc.tail (fun y hy => hn y ?_ ?_) fun y hy => hp y ?_ ?_
    · rw [← hcs, dropLast_concat] at hy
      exact fun e => hr.not_mem (e ▸ hy)
    · rw [← hcs, dropLast_concat] at hy
      exact hprev y (mem_cons_of_mem _ hy)
    · rintro rfl
      exact hd (hmem y hy) mem_cons_self
    · exact fun e => (nodup_cons.mp hnd).1 (e ▸ hy)
  have hlist : h :: (b :: ys ++ xs ++ [h]) = h :: as ++ l.prev b :: l.next h :: cs := by
    rw [append_assoc, hcs, has, append_assoc]
    rfl
  refine ⟨?_, ?_⟩
  · rw [hlist, isChain_append_cons_cons, cons_append, ← has, isChain_cons_cons]
    exact ⟨⟨⟨h1, h2⟩, hcb⟩, ⟨h3, h4⟩, hch⟩
  · have hperm : (h :: xs ++ b :: ys).Perm (h :: (b :: ys ++ xs)) := perm_append_comm.cons h
    exact hperm.nodup (nodup_append.mpr ⟨hr.nodup, hb.nodup, fun y hy z hz e => hd hy (e ▸ hz)⟩)

end

/-- A ring may be read from any of its nodes. -/
theorem Ring.rotate (hr : l.Ring h (xs ++ n :: ys)) : l.Ring n (ys ++ h :: xs) := by
  have hc : (h :: xs ++ n :: (ys ++ [h])).IsChain l.Linked := by simpa using hr.chain
  rw [isChain_split] at hc
  refine ⟨?_, ?_⟩
  · have hc' : (n :: ys ++ h :: (xs ++ [n])).IsChain l.Linked := isChain_split.mpr ⟨hc.2, hc.1⟩
    simpa using hc'
  · have hperm : (h :: xs ++ n :: ys).Perm (n :: ys ++ h :: xs) := perm_append_comm
    exact hperm.nodup hr.nodup

/-- A ring without its node `n`, read from the node after it. -/
theorem Ring.unlink (hr : l.Ring n (a :: xs)) (h1 : l'.next (l.prev n) = l.next n)
    (h2 : l'.prev (l.next n) = l.prev n) (hn : ∀ y, y ≠ n → y ≠ l.prev n → l'.next y = l.next y)
    (hp : ∀ y, y ≠ n → y ≠ l.next n → l'.prev y = l.prev y) : l'.Ring a xs := by
  have hnd := nodup_cons.mp hr.nodup
  have hc := hr.chain
  rw [cons_append, isChain_cons_cons] at hc
  rw [hc.1.1] at h1 h2 hp
  obtain ⟨as, has⟩ : ∃ as, a :: xs = as ++ [l.prev n] := by
    obtain ⟨as, -, has, -⟩ := hr.ends
    cases as with
    | nil => exact absurd (List.cons.inj has).2 (cons_ne_nil a xs)
    | cons x as => exact ⟨as, (List.cons.inj has).2⟩
  refine ⟨?_, hnd.2⟩
  have hlist : a :: (xs ++ [a]) = as ++ l.prev n :: [a] := by
    rw [← cons_append, has, append_assoc]
    rfl
  have hchain : (a :: xs).IsChain l'.Linked := by
    have hc' : (a :: xs ++ [n]).IsChain l.Linked := hc.2
    refine chain_congr (isChain_append.mp hc').1 (fun y hy => hn y ?_ ?_) fun y hy => hp y ?_ ?_
    · exact fun e => hnd.1 (e ▸ dropLast_subset _ hy)
    · have hnd' := hnd.2
      rw [has, nodup_append] at hnd'
      rw [has, dropLast_concat] at hy
      exact hnd'.2.2 y hy _ mem_cons_self
    · exact fun e => hnd.1 (e ▸ mem_cons_of_mem _ hy)
    · exact fun e => (nodup_cons.mp hnd.2).1 (e ▸ hy)
  rw [hlist, isChain_append_cons_cons, ← has]
  exact ⟨hchain, ⟨h1, h2⟩, .singleton a⟩

/-- With the last node leading to `b` instead of the head, a walk passes the nodes and comes to
`b`. -/
theorem Ring.redirect (hr : l.Ring h xs) (hlast : l'.next (l.prev h) = b)
    (hn : ∀ y ∈ h :: xs, y ≠ l.prev h → l'.next y = l.next y) :
    (h :: (xs ++ [b])).IsChain fun x y => l'.next x = y := by
  obtain ⟨as, -, has, -⟩ := hr.ends
  have hc := hr.chain
  rw [← cons_append, has, append_assoc, cons_append, nil_append, isChain_append_cons_cons,
    ← has] at hc
  have hold : (h :: xs).IsChain fun x y => l'.next x = y := by
    refine hc.1.imp_of_mem_tail_imp fun x y hx hy hl => (hn x hx ?_).trans hl.1
    -- only the head comes after the last node
    rintro rfl
    rw [← hl.1, hc.2.1.1] at hy
    exact hr.not_mem hy
  rw [← cons_append, has, append_assoc, cons_append, nil_append, isChain_append_cons_cons, ← has]
  exact ⟨hold, hlast, .singleton b⟩

/-- A walk from a node of a circular list stays in it. -/
theorem Ring.next_mem_of_mem (hr : l.Ring h xs) {y : α} (hy : y ∈ h :: xs) : l.next y ∈ h :: xs := by
  obtain rfl | hy := mem_cons.mp hy
  · exact hr.next_mem
  · obtain ⟨as, bs, rfl⟩ := append_of_mem hy
    have := hr.rotate.next_mem
    simp only [mem_cons, mem_append] at this ⊢
    tauto

end Links
