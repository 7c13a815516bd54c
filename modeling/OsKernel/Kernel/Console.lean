import Mathlib.Logic.Function.Basic
import OsKernel.Lib.Runs

/-!
# The console

The input ring of `kernel/console.c` with its three indices, the interrupt
handler that fills it and the reader that empties it.  A state also records
every index at which `cons.buf` has been used.

A byte is read and written at an index modulo `IBUF_SIZE`.  The copy of a
committed line into the history takes `IBUF_SIZE` bytes from the place of
`read_idx` on, so it ends behind the ring unless that is the first place.
-/

namespace OsKernel

abbrev IBUF_SIZE : Nat := 128

abbrev LINES : Nat := 32

structure Console where
  /-- `cons.buf`, and from `IBUF_SIZE` on the bytes behind it. -/
  buf : Nat → UInt8
  readIdx : UInt64 := 0
  writeIdx : UInt64 := 0
  editIdx : UInt64 := 0
  /-- The static `buf` of `console_intr`. -/
  lines : Nat → List UInt8 := fun _ => []
  bufIdx : Nat := 0
  uart : List UInt8 := []
  /-- The indices at which `cons.buf` was read or written. -/
  used : List Nat := []

namespace Console

open Function

def consoleInit (behind : Nat → UInt8) : Console where
  buf i := if i < IBUF_SIZE then 0 else behind i

/-- The macro `C(x)`: Control-x. -/
def ctrl (x : Char) : UInt8 := UInt8.ofNat (x.toNat - '@'.toNat)

/-- The place of an index in the ring. -/
def place (i : UInt64) : Nat := (i % 128).toNat

def use (s : Console) (i : UInt64) : Console := { s with used := place i :: s.used }

def eraseChar (s : Console) : Console :=
  { s with editIdx := s.editIdx - 1, uart := s.uart ++ [8, 32, 8] }

/-- The loop that clears the line.  The distance of `edit_idx` from `write_idx`
bounds its passes. -/
def clearLine : Nat → Console → Console
  | 0, s => s
  | fuel + 1, s =>
    if s.editIdx = s.writeIdx then s
    else if s.buf (place (s.editIdx - 1)) = 10 then s.use (s.editIdx - 1)
    else clearLine fuel (s.use (s.editIdx - 1)).eraseChar

def typeChar (s : Console) (c : UInt8) : Console :=
  { s.use s.editIdx with
    uart := s.uart ++ [c]
    buf := update s.buf (place s.editIdx) c
    editIdx := s.editIdx + 1 }

/-- The history takes `IBUF_SIZE` bytes, and the line becomes readable. -/
def commit (s : Console) : Console :=
  { s with
    lines := update s.lines s.bufIdx
      ((List.range IBUF_SIZE).map fun i => s.buf (place s.readIdx + i))
    used := (List.range IBUF_SIZE).map (place s.readIdx + ·) ++ s.used
    bufIdx := (s.bufIdx + 1) % LINES
    writeIdx := s.editIdx }

def consoleIntr (c : UInt8) (s : Console) : Console :=
  if c = ctrl 'C' then
    clearLine (s.editIdx - s.writeIdx).toNat { s with uart := s.uart ++ [94, 67, 10] }
  else if c = ctrl 'U' then clearLine (s.editIdx - s.writeIdx).toNat s
  else if c = ctrl 'H' ∨ c = 127 then if s.editIdx ≠ s.writeIdx then s.eraseChar else s
  else if c ≠ 0 ∧ s.editIdx - s.readIdx < 128 then
    let c := if c = 13 then 10 else c
    let s := s.typeChar c
    if c = 10 ∨ c = ctrl 'D' ∨ s.editIdx = s.readIdx + 128 then s.commit else s
  else s

inductive Reading where
  | returns (value : Int) (dst : List UInt8)
  /-- The reader sleeps with `n` bytes still to read. -/
  | waits (n : Nat) (dst : List UInt8)

/-- The loop of `console_read` with `n` of `m` bytes still to read, up to its end
or to the next sleep. -/
def consoleRead (killed : Bool) (m : Nat) : Nat → List UInt8 → Console → Console × Reading
  | 0, dst, s => (s, .returns m dst)
  | n + 1, dst, s =>
    if s.readIdx = s.writeIdx then (s, if killed then .returns (-1) dst else .waits (n + 1) dst)
    else
      let c := s.buf (place s.readIdx)
      let s' := { s.use s.readIdx with readIdx := s.readIdx + 1 }
      if c = ctrl 'D' then
        (if n + 1 < m then { s' with readIdx := s'.readIdx - 1 } else s', .returns (m - (n + 1)) dst)
      else if c = 10 then (s', .returns (m - n) (dst ++ [c]))
      else consoleRead killed m n (dst ++ [c]) s'

inductive Event where
  | intr (c : UInt8)
  /-- A read begins, or one that slept goes on. -/
  | read (killed : Bool) (m n : Nat) (dst : List UInt8)

def step (s : Console) : Event → Except Runs.Stop Console
  | .intr c => .ok (consoleIntr c s)
  | .read killed m n dst => .ok (consoleRead killed m n dst s).1

/-- `console_intr` takes a character that ends a line, or the last one that the ring has room for. -/
def Commits (c : UInt8) (s : Console) : Prop :=
  (c ≠ ctrl 'C' ∧ c ≠ ctrl 'U' ∧ c ≠ ctrl 'H' ∧ c ≠ 127 ∧ c ≠ 0 ∧ s.editIdx - s.readIdx < 128) ∧
    (c = 10 ∨ c = 13 ∨ c = ctrl 'D' ∨ s.editIdx + 1 = s.readIdx + 128)

instance (c : UInt8) (s : Console) : Decidable (Commits c s) := inferInstanceAs (Decidable (_ ∧ _))

/-- A line is committed only while `read_idx` is at the first place of the ring. -/
def Aligned (s : Console) : Event → Prop
  | .intr c => Commits c s → place s.readIdx = 0
  | .read .. => True

instance (s : Console) : (e : Event) → Decidable (Aligned s e)
  | .intr _ => inferInstanceAs (Decidable (_ → _))
  | .read .. => inferInstanceAs (Decidable True)

/-- `t` comes from `s` by uses of the ring in range, without a commit. -/
structure Within (s t : Console) : Prop where
  bufIdx : t.bufIdx = s.bufIdx
  used : ∀ i ∈ t.used, i ∈ s.used ∨ i < IBUF_SIZE

variable {s t u : Console}

theorem place_eq (i : UInt64) : place i = i.toNat % IBUF_SIZE := by
  rw [place, UInt64.toNat_mod]
  rfl

theorem place_lt (i : UInt64) : place i < IBUF_SIZE := by
  rw [place_eq]
  exact Nat.mod_lt _ (by decide)

theorem Within.refl : Within s s := ⟨rfl, fun _ hi => .inl hi⟩

theorem Within.trans (h : Within s t) (h' : Within t u) : Within s u where
  bufIdx := h'.bufIdx.trans h.bufIdx
  used i hi := (h'.used i hi).elim (h.used i) .inr

theorem within_use (i : UInt64) : Within s (s.use i) where
  bufIdx := rfl
  used j hj := by
    rcases List.mem_cons.mp hj with rfl | hj
    · exact .inr (place_lt i)
    · exact .inl hj

theorem within_clearLine (fuel : Nat) : Within s (clearLine fuel s) := by
  induction fuel generalizing s with
  | zero => exact .refl
  | succ fuel ih =>
    rw [clearLine]
    split
    · exact .refl
    split
    · exact within_use _
    · exact (within_use (s.editIdx - 1)).trans ⟨ih.bufIdx, ih.used⟩

theorem within_consoleRead (killed : Bool) (m n : Nat) (dst : List UInt8) :
    Within s (consoleRead killed m n dst s).1 := by
  induction n generalizing s dst with
  | zero => exact .refl
  | succ n ih =>
    have huse : Within s (s.use s.readIdx) := within_use _
    rw [consoleRead]
    split
    · exact .refl
    dsimp only
    split
    · split <;> exact ⟨huse.bufIdx, huse.used⟩
    split
    · exact ⟨huse.bufIdx, huse.used⟩
    · exact huse.trans ⟨(ih _).bufIdx, (ih _).used⟩

/-- An interrupt stays in the ring, or ends in a commit. -/
theorem consoleIntr_cases (c : UInt8) (s : Console) :
    ¬ Commits c s ∧ Within s (consoleIntr c s) ∨
      Commits c s ∧ ∃ t, consoleIntr c s = commit t ∧ Within s t ∧ t.readIdx = s.readIdx ∧
        t.bufIdx = s.bufIdx := by
  rw [consoleIntr]
  split
  next hc => exact .inl ⟨fun h => h.1.1 hc, (within_clearLine _).bufIdx, (within_clearLine _).used⟩
  split
  next hc => exact .inl ⟨fun h => h.1.2.1 hc, within_clearLine _⟩
  split
  next hc =>
    refine .inl ⟨fun h => hc.elim h.1.2.2.1 h.1.2.2.2.1, ?_⟩
    split
    · exact ⟨rfl, Within.refl.used⟩
    · exact .refl
  next hC hU hback =>
    rw [not_or] at hback
    split
    next htake =>
      have huse : Within s (s.use s.editIdx) := within_use _
      have hends : Commits c s ↔ (if c = 13 then 10 else c) = 10 ∨
          (if c = 13 then 10 else c) = ctrl 'D' ∨ s.editIdx + 1 = s.readIdx + 128 := by
        rw [Commits, and_iff_right ⟨hC, hU, hback.1, hback.2, htake.1, htake.2⟩]
        split
        next h13 => simp [h13]
        next h13 => simp [h13]
      dsimp only
      generalize (if c = 13 then 10 else c) = c' at hends ⊢
      split
      next hend => exact .inr ⟨hends.mpr hend, _, rfl, ⟨huse.bufIdx, huse.used⟩, rfl, rfl⟩
      next hend => exact .inl ⟨fun h => hend (hends.mp h), huse.bufIdx, huse.used⟩
    next htake => exact .inl ⟨fun h => htake h.1.2.2.2.2, .refl⟩

/-- Along every run whose commits find `read_idx` at the first place, the ring is
used in range and the history receives the ring from `read_idx` on. -/
theorem console_in_range {behind : Nat → UInt8}
    (h : Runs.Reach step Aligned (· = consoleInit behind) s) :
    (∀ i ∈ s.used, i < IBUF_SIZE) ∧
      ∀ c, Aligned s (.intr c) → Commits c s →
        (consoleIntr c s).lines s.bufIdx = (List.range IBUF_SIZE).map fun i =>
          (consoleIntr c s).buf ((s.readIdx.toNat + i) % IBUF_SIZE) := by
  refine ⟨h.invariant (I := fun s => ∀ i ∈ s.used, i < IBUF_SIZE) ?_ ?_, ?_⟩
  · rintro _ rfl i hi
    cases hi
  · rintro s (c | ⟨killed, m, n, dst⟩) _ hs hl ⟨⟩ i hi
    · rcases consoleIntr_cases c s with ⟨_, hw⟩ | ⟨hc, t, ht, hw, hread, _⟩
      · exact (hw.used i hi).elim (hs i) id
      have hzero : place t.readIdx = 0 := hread ▸ hl hc
      rw [ht, commit, List.mem_append] at hi
      rcases hi with hi | hi
      · simpa [hzero] using hi
      · exact (hw.used i hi).elim (hs i) id
    · exact ((within_consoleRead killed m n dst).used i hi).elim (hs i) id
  · intro c hl hc
    rcases consoleIntr_cases c s with ⟨hnot, _⟩ | ⟨_, t, ht, _, hread, hidx⟩
    · exact absurd hc hnot
    have hzero : place t.readIdx = 0 := hread ▸ hl hc
    have hline : t.commit.lines t.bufIdx = _ := update_self ..
    rw [ht, ← hread, ← hidx, hline]
    refine List.map_congr_left fun i hi => congrArg t.buf ?_
    rw [hzero, Nat.zero_add, Nat.add_mod, ← place_eq, hzero, Nat.zero_add, Nat.mod_mod,
      Nat.mod_eq_of_lt (List.mem_range.mp hi)]

/-- A line that fills the ring is typed and read, and the next one starts at the first place again. -/
theorem console_in_range_second_line : ∃ s : Console, (∀ i ∈ s.used, i < IBUF_SIZE) ∧
    s.readIdx = 128 ∧ s.bufIdx = 2 := by
  have hrun : ∃ s, Runs.Reach step Aligned (· = consoleInit fun _ => 0) s ∧
      decide (s.readIdx = 128 ∧ s.bufIdx = 2) = true :=
    Runs.Reach.of_guardedTest rfl (show Runs.execTest
      (Runs.guarded step (fun s e => decide (Aligned s e)) .disabled) (consoleInit fun _ => 0)
      (List.replicate 127 (.intr 97) ++ [.intr 10, .read false 128 128 [], .intr 10]) _ = true by
        decide +kernel)
  obtain ⟨s, hs, ht⟩ := hrun
  exact ⟨s, (console_in_range hs).1, of_decide_eq_true ht⟩

/-- A line of two characters is read, and the next line is copied from the third
place on. -/
theorem console_reads_behind : ∃ s, Runs.Reach step Runs.always (· = consoleInit fun _ => 0) s ∧
    s.used.any (IBUF_SIZE ≤ ·) = true :=
  Runs.Reach.of_execTest rfl (show Runs.execTest step (consoleInit fun _ => 0)
    [.intr 97, .intr 10, .read false 2 2 [], .intr 10] _ = true by decide +kernel)

end Console

end OsKernel
