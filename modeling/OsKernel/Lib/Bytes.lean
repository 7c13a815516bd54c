import Mathlib.Tactic.Ring

/-!
# Byte buffers and little-endian fields

A buffer of `n` bytes is a function on its indices.  `splice` is `memcpy` into a
buffer, and `readLE`, `writeLE` read and write an unsigned field of `k` bytes,
least significant byte first.  A field written is read back modulo `256 ^ k`
(`readLE_writeLE_self`), and a write outside a field does not change it
(`readLE_writeLE_of_disjoint`).
-/

/-- A buffer of `n` bytes. -/
abbrev Bytes (n : Nat) := Fin n → UInt8

namespace Bytes

variable {n : Nat}

instance : DecidableEq (Bytes n) := fun d d' =>
  decidable_of_iff (∀ i : Fin n, d i = d' i) funext_iff.symm

variable (d : Bytes n)

/-- The byte at an index, `0` past the end. -/
def get (i : Nat) : UInt8 := if h : i < n then d ⟨i, h⟩ else 0

def zero : Bytes n := fun _ => 0

/-- `memcpy(d + off, src, len)`. -/
def splice (off len : Nat) (src : Nat → UInt8) : Bytes n := fun i =>
  if off ≤ i.val ∧ i.val < off + len then src (i.val - off) else d i

/-- Byte `i` of a number. -/
def byte (v i : Nat) : UInt8 := UInt8.ofNat (v / 256 ^ i)

/-- The little-endian field of `k` bytes at `off`. -/
def readLE (d : Bytes n) : Nat → Nat → Nat
  | _, 0 => 0
  | off, k + 1 => (d.get off).toNat + 256 * readLE d (off + 1) k

/-- Store `v` in the little-endian field of `k` bytes at `off`. -/
def writeLE (off k v : Nat) : Bytes n := d.splice off k (byte v)

@[simp] theorem get_zero (i : Nat) : (zero : Bytes n).get i = 0 := by
  simp [get, zero]

theorem get_of_lt {i : Nat} (h : i < n) : d.get i = d ⟨i, h⟩ := by
  simp [get, h]

theorem get_splice (off len : Nat) (src : Nat → UInt8) (i : Nat) : (d.splice off len src).get i =
      if i < n ∧ off ≤ i ∧ i < off + len then src (i - off) else d.get i := by
  by_cases hi : i < n
  · simp [get, splice, hi]
  · simp [get, hi]

theorem get_splice_of_mem {off len i : Nat} (src : Nat → UInt8) (hn : i < n)
    (h1 : off ≤ i) (h2 : i < off + len) : (d.splice off len src).get i = src (i - off) := by
  rw [get_splice, if_pos ⟨hn, h1, h2⟩]

theorem get_splice_of_not_mem {off len i : Nat} (src : Nat → UInt8)
    (h : i < off ∨ off + len ≤ i) : (d.splice off len src).get i = d.get i := by
  rw [get_splice, if_neg (by omega)]

/-! ## Fields -/

theorem toNat_byte (v i : Nat) : (byte v i).toNat = v / 256 ^ i % 256 := by
  simp [byte]

theorem readLE_congr {d d' : Bytes n} {k : Nat} : ∀ {off : Nat},
    (∀ i, off ≤ i → i < off + k → d.get i = d'.get i) → d.readLE off k = d'.readLE off k := by
  induction k with
  | zero => intro off _; rfl
  | succ k ih =>
    intro off h
    rw [readLE, readLE, h off (Nat.le_refl _) (by omega),
      ih fun i h1 h2 => h i (by omega) (by omega)]

theorem readLE_of_bytes {d : Bytes n} {v k : Nat} : ∀ (off j : Nat),
    (∀ i, i < k → d.get (off + i) = byte v (j + i)) →
    d.readLE off k = v / 256 ^ j % 256 ^ k := by
  induction k with
  | zero => intro off j _; simp [readLE, Nat.mod_one]
  | succ k ih =>
    intro off j h
    have h0 := h 0 (Nat.succ_pos k)
    have hrest : d.readLE (off + 1) k = v / 256 ^ (j + 1) % 256 ^ k := by
      refine ih (off + 1) (j + 1) fun i hi => ?_
      rw [Nat.add_assoc off, Nat.add_assoc j, Nat.add_comm 1 i]
      exact h (i + 1) (by omega)
    rw [Nat.add_zero, Nat.add_zero] at h0
    rw [readLE, h0, toNat_byte, hrest, Nat.pow_succ 256 j, ← Nat.div_div_eq_div_mul,
      Nat.pow_succ', Nat.mod_mul]

theorem readLE_writeLE_self {off k : Nat} (v : Nat) (h : off + k ≤ n) :
    (d.writeLE off k v).readLE off k = v % 256 ^ k := by
  have := readLE_of_bytes (d := d.writeLE off k v) (v := v) (k := k) off 0
    fun i hi => by
      rw [writeLE, get_splice_of_mem _ _ (by omega) (by omega) (by omega)]
      congr 1
      omega
  simpa using this

theorem readLE_writeLE_of_disjoint {off k off' k' : Nat} (v : Nat)
    (h : off + k ≤ off' ∨ off' + k' ≤ off) :
    (d.writeLE off' k' v).readLE off k = d.readLE off k :=
  readLE_congr fun i h1 h2 => get_splice_of_not_mem _ _ (by omega)

theorem readLE_zero (off k : Nat) : (zero : Bytes n).readLE off k = 0 := by
  induction k generalizing off with
  | zero => rfl
  | succ k ih => simp [readLE, ih]

theorem readLE_lt (off k : Nat) : d.readLE off k < 256 ^ k := by
  induction k generalizing off with
  | zero => simp [readLE]
  | succ k ih =>
    have h1 := (d.get off).toNat_lt
    have h2 := ih (off + 1)
    rw [readLE, Nat.pow_succ']
    omega

-- a symbolic field must not be unfolded byte by byte
attribute [irreducible] readLE

end Bytes
