import Mathlib.Data.Nat.ModEq
import Mathlib.Data.List.Infix

/-!
# Ring buffers with wrapping counters

A buffer of `N` slots and two counters that wrap at `M`: element `i` of the
queue is in slot `i % N`, and the counters are the numbers of elements ever
pushed and ever popped, modulo `M`.  When `N` divides `M` and is smaller, the counters
tell an empty buffer from a full one, and the buffer is a bounded queue.

A buffer is described by two lists, the elements pushed and the elements
popped so far (`RingBuffer.Holds`).
-/

structure RingBuffer (α : Type) where
  data : Nat → α
  nread : Nat
  nwrite : Nat

namespace RingBuffer

open Function List

variable {α : Type} (N M : Nat)

def push (r : RingBuffer α) (x : α) : RingBuffer α :=
  { r with data := update r.data (r.nwrite % N) x, nwrite := (r.nwrite + 1) % M }

def front (r : RingBuffer α) : α := r.data (r.nread % N)

def pop (r : RingBuffer α) : RingBuffer α := { r with nread := (r.nread + 1) % M }

/-- The number of elements in the buffer, computed from the counters. -/
def buffered (r : RingBuffer α) : Nat := (r.nwrite + M - r.nread) % M

/-- The buffer after `stored` has been pushed and `delivered` has been popped. -/
structure Holds (r : RingBuffer α) (stored delivered : List α) : Prop where
  nread : r.nread = delivered.length % M
  nwrite : r.nwrite = stored.length % M
  pre : delivered <+: stored
  room : stored.length ≤ delivered.length + N
  data : ∀ i, delivered.length ≤ i → i < stored.length → stored[i]? = some (r.data (i % N))

variable {N M} {r : RingBuffer α} {stored delivered : List α}

theorem Holds.init (data : Nat → α) : Holds N M ⟨data, 0, 0⟩ [] [] where
  nread := by simp
  nwrite := by simp
  pre := prefix_rfl
  room := Nat.zero_le _
  data := by simp

theorem Holds.length_le (h : Holds N M r stored delivered) : delivered.length ≤ stored.length :=
  h.pre.length_le

theorem add_mod_sub {a b : Nat} (hab : b ≤ a) (ham : a - b < M) :
    (a % M + M - b % M) % M = a - b := by
  have hb : b % M ≤ M := Nat.le_of_lt (Nat.mod_lt b (by omega))
  have h : a % M + M - b % M + b ≡ a - b + b [MOD M] := by
    rw [Nat.sub_add_cancel hab]
    calc a % M + M - b % M + b ≡ a % M + M - b % M + b % M [MOD M] :=
          (Nat.mod_modEq b M).symm.add_left _
      _ = a % M + M := Nat.sub_add_cancel (by omega)
      _ ≡ a [MOD M] := by simp [Nat.ModEq]
  have hmod := Nat.ModEq.add_right_cancel' b h
  rw [hmod, Nat.mod_eq_of_lt ham]

theorem Holds.buffered (h : Holds N M r stored delivered) (hNM : N < M) :
    r.buffered M = stored.length - delivered.length := by
  have hroom := h.room
  rw [RingBuffer.buffered, h.nread, h.nwrite]
  exact add_mod_sub h.length_le (by omega)

theorem mod_eq_iff {a b : Nat} (hab : b ≤ a) (ham : a - b < M) : a % M = b % M ↔ a = b := by
  constructor
  · intro he
    have h := add_mod_sub hab ham
    rw [he, Nat.add_sub_cancel_left, Nat.mod_self] at h
    omega
  · intro he
    rw [he]

section

variable (h : Holds N M r stored delivered)

include h

theorem Holds.empty_iff (hNM : N < M) : r.nread = r.nwrite ↔ delivered = stored := by
  have hroom := h.room
  rw [h.nread, h.nwrite, eq_comm, mod_eq_iff h.length_le (by omega)]
  constructor
  · intro he
    exact h.pre.eq_of_length he.symm
  · intro he
    rw [he]

theorem Holds.full_iff (hNM : N < M) :
    r.nwrite = (r.nread + N) % M ↔ stored.length = delivered.length + N := by
  have hle := h.length_le
  rw [h.nread, h.nwrite, Nat.mod_add_mod, eq_comm, mod_eq_iff h.room (by omega), eq_comm]

theorem Holds.push (hN : N ∣ M) (hlt : N < M) (x : α) (hfull : r.nwrite ≠ (r.nread + N) % M) :
    Holds N M (r.push N M x) (stored ++ [x]) delivered := by
  have hroom := h.room
  have hslack : stored.length < delivered.length + N := by
    have hne : stored.length ≠ delivered.length + N := by
      intro he
      exact hfull ((h.full_iff hlt).mpr he)
    omega
  have hslot : r.nwrite % N = stored.length % N := by
    rw [h.nwrite, Nat.mod_mod_of_dvd _ hN]
  constructor
  · exact h.nread
  · simp [RingBuffer.push, h.nwrite]
  · exact h.pre.trans (prefix_append stored [x])
  · simp only [length_append, length_singleton]
    omega
  intro i hi hlen
  simp only [length_append, length_singleton] at hlen
  simp only [RingBuffer.push, hslot]
  by_cases he : i = stored.length
  · rw [he, update_self]
    exact List.getElem?_concat_length
  -- the slot of an element that has not been popped is another one
  have hne : i % N ≠ stored.length % N := by
    intro hmod
    have := (mod_eq_iff (a := stored.length) (b := i) (by omega) (by omega)).mp hmod.symm
    omega
  rw [update_of_ne hne, List.getElem?_append_left (by omega)]
  exact h.data i hi (by omega)

theorem Holds.pop (hN : N ∣ M) (hempty : r.nread ≠ r.nwrite) :
    Holds N M (r.pop M) stored (delivered ++ [r.front N]) := by
  have hlt : delivered.length < stored.length := by
    have hle := h.length_le
    have hne : delivered.length ≠ stored.length := by
      intro he
      exact hempty (by rw [h.nread, h.nwrite, he])
    omega
  have hfront : stored[delivered.length]? = some (r.front N) := by
    rw [h.data _ (Nat.le_refl _) hlt, front, h.nread, Nat.mod_mod_of_dvd _ hN]
  constructor
  · simp [RingBuffer.pop, h.nread]
  · exact h.nwrite
  · obtain ⟨rest, hrest⟩ := h.pre
    rw [← hrest, List.getElem?_append_right (Nat.le_refl _), Nat.sub_self] at hfront
    cases rest with
    | nil => simp at hfront
    | cons y ys =>
      simp only [List.getElem?_cons_zero, Option.some.injEq] at hfront
      exact ⟨ys, by rw [← hrest, ← hfront]; simp⟩
  · have hroom := h.room
    simp only [length_append, length_singleton]
    omega
  · intro i hi hlen
    simp only [length_append, length_singleton] at hi
    exact h.data i (by omega) hlen

end

/-! ## Queues -/

/-- The buffer has the elements `q`, the next one to be popped first. -/
def IsQueue (N M : Nat) (r : RingBuffer α) (q : List α) : Prop :=
  ∃ delivered, Holds N M r (delivered ++ q) delivered

variable {q : List α} {x : α}

theorem IsQueue.init (data : Nat → α) : IsQueue N M ⟨data, 0, 0⟩ [] := ⟨[], Holds.init data⟩

theorem IsQueue.empty_iff (h : IsQueue N M r q) (hNM : N < M) : r.nread = r.nwrite ↔ q = [] := by
  obtain ⟨delivered, h⟩ := h
  rw [h.empty_iff hNM]
  exact self_eq_append_right

theorem IsQueue.push (h : IsQueue N M r q) (hN : N ∣ M) (hlt : N < M) (hlen : q.length < N)
    (x : α) : IsQueue N M (r.push N M x) (q ++ [x]) := by
  obtain ⟨delivered, h⟩ := h
  refine ⟨delivered, ?_⟩
  rw [← append_assoc]
  refine h.push hN hlt x ?_
  intro hfull
  rw [h.full_iff hlt, length_append] at hfull
  omega

theorem IsQueue.front (h : IsQueue N M r (x :: q)) (hN : N ∣ M) : r.front N = x := by
  obtain ⟨delivered, h⟩ := h
  have hdata := h.data delivered.length (Nat.le_refl _) (by simp)
  rw [List.getElem?_append_right (Nat.le_refl _), Nat.sub_self] at hdata
  simp only [List.getElem?_cons_zero, Option.some.injEq] at hdata
  rw [RingBuffer.front, h.nread, Nat.mod_mod_of_dvd _ hN, ← hdata]

theorem IsQueue.pop (h : IsQueue N M r (x :: q)) (hN : N ∣ M) (hNM : N < M) :
    IsQueue N M (r.pop M) q := by
  have hfront := h.front hN
  have hne : r.nread ≠ r.nwrite := by
    intro he
    have hnil := (h.empty_iff hNM).mp he
    cases hnil
  obtain ⟨delivered, h⟩ := h
  have hpop := h.pop hN hne
  rw [hfront] at hpop
  refine ⟨delivered ++ [x], ?_⟩
  rw [append_assoc]
  exact hpop

end RingBuffer
