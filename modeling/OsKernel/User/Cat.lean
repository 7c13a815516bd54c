import Mathlib

/-!
# `cat`

`process_file` of `user/cat/main.c` is a machine over the bytes of a file.  Its
three variables are carried from one result of `read` to the next, so the output
depends on the bytes alone (`processFrom_eq`).

With `-s` it drops every newline after a newline, so an empty line after text is
lost.  With `-b` an empty line prints no number but counts.
-/

namespace OsKernel.Cat

structure CommandOptions where
  lineNumbers : Bool := false
  skipEmptyLines : Bool := false
  markLineEnd : Bool := false
  showTabChars : Bool := false
  compressEmpty : Bool := false
  displayNonprint : Bool := false

abbrev newline : UInt8 := 10

def displayCharacter (opts : CommandOptions) (ch : UInt8) : List UInt8 :=
  if opts.displayNonprint ∧ ch < 32 ∧ ch ≠ newline ∧ ch ≠ 9 then [94, ch + 64]
  else if opts.displayNonprint ∧ 127 ≤ ch then [77, 45, ch - 128]
  else if opts.showTabChars ∧ ch = 9 then [94, 73]
  else (if opts.markLineEnd ∧ ch = newline then [36] else []) ++ [ch]

/-- `printf("%6d\t", n)`. -/
def printNumber (n : Int) : List UInt8 :=
  let digits := (if n < 0 then ['-'] else []) ++ Nat.toDigits 10 n.natAbs
  (List.replicate (6 - digits.length) ' ' ++ digits ++ ['\t']).map fun c => UInt8.ofNat c.toNat

structure State where
  lineCounter : Int := 1
  consecutiveEmpty : Nat := 0
  atLineStart : Bool := true

/-- The loop body on one byte: what it prints, and the variables after it. -/
def processByte (opts : CommandOptions) (s : State) (current : UInt8) : List UInt8 × State :=
  if opts.compressEmpty ∧ current = newline ∧ 0 < s.consecutiveEmpty then ([], s)
  else
    let empty := if opts.compressEmpty then
        if current = newline then s.consecutiveEmpty + 1 else 0
      else s.consecutiveEmpty
    let number := if s.atLineStart ∧ (opts.lineNumbers ∨ opts.skipEmptyLines ∧ current ≠ newline)
      then printNumber s.lineCounter else []
    (number ++ displayCharacter opts current,
      if current = newline then ⟨(s.lineCounter + 1).bmod (2 ^ 32), empty, true⟩
      else ⟨s.lineCounter, empty, false⟩)

def processBuffer (opts : CommandOptions) : List UInt8 → State → List UInt8 × State
  | [], s => ([], s)
  | current :: buffer, s =>
    let r := processByte opts s current
    let r' := processBuffer opts buffer r.2
    (r.1 ++ r'.1, r'.2)

/-- The loop over the results of `read`; it ends at one without bytes. -/
def processFrom (opts : CommandOptions) : List (List UInt8) → State → List UInt8
  | [], _ => []
  | buffer :: reads, s =>
    if buffer = [] then []
    else (processBuffer opts buffer s).1 ++ processFrom opts reads (processBuffer opts buffer s).2

def processFile (opts : CommandOptions) (reads : List (List UInt8)) : List UInt8 :=
  processFrom opts reads {}

/-! ## What the options are for -/

/-- The file with these lines, and `rest` after the last newline. -/
def text : List (List UInt8) → List UInt8 → List UInt8
  | [], rest => rest
  | line :: lines, rest => line ++ newline :: text lines rest

/-- Every empty line after an empty line is left out. -/
def squeeze : Bool → List (List UInt8) → List (List UInt8)
  | _, [] => []
  | afterEmpty, line :: lines =>
    if afterEmpty ∧ line = [] then squeeze true lines else line :: squeeze line.isEmpty lines

/-- The non-empty lines are numbered from `n` on. -/
def numbered : Nat → List (List UInt8) → List UInt8 → List UInt8
  | n, [], rest => if rest = [] then [] else printNumber n ++ rest
  | n, line :: lines, rest =>
    if line = [] then newline :: numbered n lines rest
    else printNumber n ++ line ++ newline :: numbered (n + 1) lines rest

/-! ## One line -/

theorem processBuffer_append (opts : CommandOptions) (xs ys : List UInt8) (s : State) :
    (processBuffer opts (xs ++ ys) s).1 =
      (processBuffer opts xs s).1 ++ (processBuffer opts ys (processBuffer opts xs s).2).1 := by
  induction xs generalizing s with
  | nil => rfl
  | cons x xs ih => simp [processBuffer, ih]

theorem processFrom_eq (opts : CommandOptions) {reads : List (List UInt8)} (h : [] ∉ reads)
    (s : State) : processFrom opts reads s = (processBuffer opts reads.flatten s).1 := by
  induction reads generalizing s with
  | nil => rfl
  | cons buffer reads ih =>
    rw [List.mem_cons, not_or] at h
    rw [processFrom, if_neg (Ne.symm h.1), ih h.2, List.flatten_cons, processBuffer_append]

/-- `-s` and `-b` alone. -/
abbrev lineOptions (s b : Bool) : CommandOptions := { compressEmpty := s, skipEmptyLines := b }

variable {b c : Bool} {x : UInt8} {line rest more : List UInt8} {lines : List (List UInt8)}
  {s : State}

theorem processBuffer_word (hx : newline ∉ x :: line) :
    processBuffer (lineOptions c b) (x :: line) s =
      ((if s.atLineStart ∧ b then printNumber s.lineCounter else []) ++ x :: line,
        ⟨s.lineCounter, if c then 0 else s.consecutiveEmpty, false⟩) := by
  induction line generalizing x s with
  | nil =>
    have hne : x ≠ newline := by simpa [eq_comm] using hx
    simp [processBuffer, processByte, displayCharacter, hne]
  | cons y line ih =>
    rw [List.mem_cons, not_or] at hx
    rw [processBuffer, ih hx.2]
    cases c <;> simp [processByte, displayCharacter, Ne.symm hx.1]

/-- The variables after a line that has been printed. -/
def State.newLine (s : State) (c : Bool) (empty : Nat) : State :=
  ⟨(s.lineCounter + 1).bmod (2 ^ 32), if c then empty + 1 else s.consecutiveEmpty, true⟩

theorem processBuffer_text_nil : (processBuffer (lineOptions c b) (newline :: more) s).1 =
    if c ∧ 0 < s.consecutiveEmpty then (processBuffer (lineOptions c b) more s).1
    else newline :: (processBuffer (lineOptions c b) more (s.newLine c s.consecutiveEmpty)).1 := by
  rw [processBuffer, processByte]
  split <;> simp_all [displayCharacter, State.newLine]

theorem processBuffer_text_cons (hx : newline ∉ x :: line) :
    (processBuffer (lineOptions c b) (x :: line ++ newline :: more) s).1 =
      (if s.atLineStart ∧ b then printNumber s.lineCounter else []) ++ x :: line ++
        newline :: (processBuffer (lineOptions c b) more (s.newLine c 0)).1 := by
  rw [processBuffer_append, processBuffer_word hx, processBuffer_text_nil]
  cases c <;> simp [State.newLine]

/-! ## Whole files -/

/-- The lines that are left with `-s`: the first one, and those that are not empty. -/
def kept (lines : List (List UInt8)) : List (List UInt8) :=
  lines.take 1 ++ (lines.drop 1).filter (· ≠ [])

theorem compressed_text (hl : ∀ line ∈ lines, newline ∉ line) (hr : newline ∉ rest) :
    (processBuffer (lineOptions true false) (text lines rest) s).1 =
      text (if 0 < s.consecutiveEmpty then lines.filter (· ≠ []) else kept lines) rest := by
  induction lines generalizing s with
  | nil =>
    cases rest with
    | nil => simp [text, kept, processBuffer]
    | cons x rest => simp [text, kept, processBuffer_word hr]
  | cons line lines ih =>
    rw [List.forall_mem_cons] at hl
    rw [text]
    cases line with
    | nil =>
      rw [List.nil_append, processBuffer_text_nil, ih hl.2, ih hl.2]
      by_cases he : 0 < s.consecutiveEmpty <;> simp [he, kept, text, State.newLine]
    | cons x line =>
      rw [processBuffer_text_cons hl.1, ih hl.2]
      by_cases he : 0 < s.consecutiveEmpty <;> simp [he, kept, text, State.newLine]

theorem append_newline_inj {xs ys as bs : List UInt8} (hx : newline ∉ xs) (hy : newline ∉ ys) :
    xs ++ newline :: as = ys ++ newline :: bs ↔ xs = ys ∧ as = bs := by
  refine ⟨fun h => ?_, fun h => by rw [h.1, h.2]⟩
  induction xs generalizing ys with
  | nil =>
    cases ys with
    | nil => exact ⟨rfl, (List.cons.inj h).2⟩
    | cons y ys => exact absurd ((List.cons.inj h).1 ▸ List.mem_cons_self) hy
  | cons x xs ih =>
    cases ys with
    | nil => exact absurd ((List.cons.inj h).1 ▸ List.mem_cons_self) hx
    | cons y ys =>
      obtain ⟨hxs, has⟩ := ih (fun hm => hx (.tail _ hm)) (fun hm => hy (.tail _ hm))
        (List.cons.inj h).2
      exact ⟨by rw [(List.cons.inj h).1, hxs], has⟩

theorem text_inj {lines' : List (List UInt8)} (hl : ∀ line ∈ lines, newline ∉ line)
    (hl' : ∀ line ∈ lines', newline ∉ line) (hr : newline ∉ rest) :
    text lines rest = text lines' rest ↔ lines = lines' := by
  refine ⟨fun h => ?_, fun h => h ▸ rfl⟩
  induction lines generalizing lines' with
  | nil =>
    cases lines' with
    | nil => rfl
    | cons line' lines' =>
      rw [text, text] at h
      exact absurd (h ▸ by simp) hr
  | cons line lines ih =>
    rw [List.forall_mem_cons] at hl
    cases lines' with
    | nil =>
      rw [text, text] at h
      exact absurd (h ▸ by simp) hr
    | cons line' lines' =>
      rw [List.forall_mem_cons] at hl'
      rw [text, text, append_newline_inj hl.1 hl'.1] at h
      rw [h.1, ih hl.2 hl'.2 h.2]

theorem nil_mem_squeeze (h : [] ∈ lines) : [] ∈ squeeze false lines := by
  induction lines with
  | nil => cases h
  | cons line lines ih =>
    rw [squeeze, if_neg (by simp)]
    cases line with
    | nil => exact List.mem_cons_self
    | cons => exact List.mem_cons_of_mem _ (ih (by simpa using h))

theorem squeeze_subset {e : Bool} : squeeze e lines ⊆ lines := by
  induction lines generalizing e with
  | nil => exact List.Subset.refl _
  | cons line lines ih =>
    rw [squeeze]
    split
    · exact List.subset_cons_of_subset _ ih
    · exact List.cons_subset_cons _ ih

/-- After a line of text. -/
theorem squeeze_false_iff : lines.filter (· ≠ []) = squeeze false lines ↔ [] ∉ lines := by
  constructor
  · intro h hm
    have := nil_mem_squeeze hm
    rw [← h] at this
    simp at this
  · intro h
    induction lines with
    | nil => rfl
    | cons line lines ih =>
      rw [List.mem_cons, not_or] at h
      cases line with
      | nil => exact absurd rfl h.1
      | cons x line =>
        rw [squeeze, if_neg (by simp), List.filter_cons_of_pos (by simp), ih h.2]
        rfl

theorem pairwise_text_iff :
    ((x :: line) :: lines).Pairwise (fun a b => b = [] → a = []) ↔ [] ∉ lines := by
  rw [List.pairwise_cons]
  constructor
  · exact fun h hm => List.cons_ne_nil x line (h.1 [] hm rfl)
  · intro h
    exact ⟨fun b hb e => (h (e ▸ hb)).elim,
      List.pairwise_of_forall_mem_list fun a _ b hb e => (h (e ▸ hb)).elim⟩

/-- After an empty line. -/
theorem squeeze_true_iff : lines.filter (· ≠ []) = squeeze true lines ↔
    lines.Pairwise fun a b => b = [] → a = [] := by
  induction lines with
  | nil => simp [squeeze]
  | cons line lines ih =>
    cases line with
    | nil => simpa [squeeze] using ih
    | cons x line =>
      rw [pairwise_text_iff, squeeze, if_neg (by simp), List.filter_cons_of_pos (by simp),
        List.cons_inj_right]
      exact squeeze_false_iff

theorem squeeze_iff : kept lines = squeeze false lines ↔
    lines.Pairwise fun a b => b = [] → a = [] := by
  cases lines with
  | nil => simp [kept, squeeze]
  | cons line lines =>
    rw [squeeze, if_neg (by simp), kept, List.take_succ_cons, List.take_zero, List.drop_succ_cons,
      List.drop_zero, List.singleton_append, List.cons_inj_right]
    cases line with
    | nil => simpa using squeeze_true_iff
    | cons x line =>
      rw [pairwise_text_iff]
      exact squeeze_false_iff

/-! ## Numbers -/

theorem digit_range {c : Char} (h : c.isDigit) : 48 ≤ c.toNat ∧ c.toNat ≤ 57 := by
  simpa [Char.isDigit, UInt32.le_iff_toNat_le] using h

/-- The digits among the bytes. -/
def digitsOf (out : List UInt8) : List Char :=
  out.filterMap fun b => if (Char.ofNat b.toNat).isDigit then some (Char.ofNat b.toNat) else none

theorem digitsOf_printNumber (n : Nat) : digitsOf (printNumber n) = Nat.toDigits 10 n := by
  have hdigits : ∀ c ∈ Nat.toDigits 10 n, Char.ofNat (UInt8.ofNat c.toNat).toNat = c ∧ c.isDigit := by
    intro c hc
    have hd := Nat.isDigit_of_mem_toDigits (by decide) (by decide) hc
    have hr := digit_range hd
    have : (UInt8.ofNat c.toNat).toNat = c.toNat := by
      rw [UInt8.toNat_ofNat']
      omega
    rw [this, Char.ofNat_toNat]
    exact ⟨rfl, hd⟩
  have hself : ∀ l : List Char, (∀ c ∈ l, Char.ofNat (UInt8.ofNat c.toNat).toNat = c ∧ c.isDigit) →
      digitsOf (l.map fun c => UInt8.ofNat c.toNat) = l := by
    intro l hl
    induction l with
    | nil => rfl
    | cons c l ih =>
      rw [List.forall_mem_cons] at hl
      have hc := hl.1
      rw [digitsOf, List.map_cons, List.filterMap_cons, hc.1, if_pos hc.2]
      exact congrArg _ (ih hl.2)
  have hspace : ∀ k, digitsOf ((List.replicate k ' ').map fun c => UInt8.ofNat c.toNat) = [] := by
    intro k
    rw [digitsOf, List.filterMap_eq_nil_iff]
    intro b hb
    obtain ⟨c, hc, rfl⟩ := List.mem_map.mp hb
    rw [List.eq_of_mem_replicate hc]
    decide
  have happ : ∀ l l', digitsOf (l ++ l') = digitsOf l ++ digitsOf l' := fun l l' =>
    List.filterMap_append ..
  rw [printNumber, if_neg (by omega), List.nil_append, List.map_append, List.map_append, happ, happ,
    hspace, List.nil_append]
  exact (congrArg₂ _ (hself _ hdigits) rfl).trans (List.append_nil _)

theorem printNumber_inj {m n : Nat} : printNumber m = printNumber n ↔ m = n := by
  refine ⟨fun h => ?_, fun h => h ▸ rfl⟩
  have := congrArg digitsOf h
  rw [digitsOf_printNumber, digitsOf_printNumber] at this
  rw [← Nat.ofDigitChars_ten_toDigits (n := m), this, Nat.ofDigitChars_ten_toDigits]

theorem newline_not_mem_printNumber (n : Nat) : newline ∉ printNumber n := by
  rw [printNumber, if_neg (by omega), List.nil_append]
  intro hm
  obtain ⟨c, hc, he⟩ := List.mem_map.mp hm
  have hnat : c.toNat % 256 = 10 := by
    rw [← UInt8.toNat_ofNat', he]
    rfl
  rcases List.mem_append.mp hc with hc | hc
  · rcases List.mem_append.mp hc with hc | hc
    · rw [List.eq_of_mem_replicate hc] at hnat
      cases hnat
    · have := digit_range (Nat.isDigit_of_mem_toDigits (by decide) (by decide) hc)
      omega
  · rw [List.mem_singleton.mp hc] at hnat
    cases hnat

/-- `m` is the number that the machine prints next, `n` the one it should print. -/
theorem numbered_text {n m : Nat} (hl : ∀ line ∈ lines, newline ∉ line) (hr : newline ∉ rest)
    (hm : s.lineCounter = m) (hnm : n ≤ m) (hs : s.atLineStart = true)
    (hlen : m + lines.length < 2 ^ 31) :
    (processBuffer (lineOptions false true) (text lines rest) s).1 = numbered n lines rest ↔
      m = n ∧ ((lines ++ [rest]).Pairwise fun a b => a = [] → b = []) ∨
        ∀ line ∈ lines ++ [rest], line = [] := by
  induction lines generalizing s n m with
  | nil =>
    cases rest with
    | nil => simp [text, numbered, processBuffer]
    | cons x rest =>
      simp [text, numbered, processBuffer_word hr, hs, hm, printNumber_inj]
  | cons line lines ih =>
    rw [List.forall_mem_cons] at hl
    rw [List.length_cons] at hlen
    have hnext : ∀ k, (s.newLine false k).lineCounter = ((m + 1 : Nat) : Int) := by
      intro k
      rw [State.newLine, hm, Int.bmod_eq_of_le (by omega) (by omega)]
      rfl
    have hempty : (∀ line ∈ lines ++ [rest], line = []) →
        (lines ++ [rest]).Pairwise fun a b => a = [] → b = [] := fun h =>
      List.pairwise_of_forall_mem_list fun _ _ b hb _ => h b hb
    rw [text, numbered, List.cons_append, List.pairwise_cons, List.forall_mem_cons]
    cases line with
    | nil =>
      -- from here on the numbers differ
      rw [List.nil_append, processBuffer_text_nil, if_neg (by simp), if_pos rfl, List.cons_inj_right,
        ih hl.2 (hnext _) (by omega) rfl (by omega)]
      have hne : ¬ m + 1 = n := by omega
      simp only [hne, false_and, false_or, forall_const, true_and]
      exact ⟨.inr, fun h => h.elim (fun h => h.2.1) id⟩
    | cons x line =>
      rw [processBuffer_text_cons hl.1, if_pos ⟨hs, rfl⟩, if_neg (List.cons_ne_nil x line), hm,
        append_newline_inj, List.append_left_inj, printNumber_inj,
        ih hl.2 (hnext _) (by omega) rfl (by omega)]
      · simp only [reduceCtorEq, false_and, or_false, false_implies, implies_true, true_and,
          Nat.add_right_cancel_iff]
        constructor
        · rintro ⟨hmn, ⟨-, hp⟩ | hall⟩
          · exact ⟨hmn, hp⟩
          · exact ⟨hmn, hempty hall⟩
        · exact fun h => ⟨h.1, .inl h⟩
      all_goals
        rw [List.mem_append, not_or]
        exact ⟨newline_not_mem_printNumber _, hl.1⟩

/-- The options `-s` and `-b` do what they are for if and only if no empty line comes after a line of
text, or before one. -/
theorem cat_lines {reads : List (List UInt8)} (hreads : [] ∉ reads)
    (htext : reads.flatten = text lines rest) (hl : ∀ line ∈ lines, newline ∉ line)
    (hr : newline ∉ rest) :
    (processFile { compressEmpty := true } reads = text (squeeze false lines) rest ↔
      lines.Pairwise fun a b => b = [] → a = []) ∧
    (lines.length + 1 < 2 ^ 31 →
      (processFile { skipEmptyLines := true } reads = numbered 1 lines rest ↔
        (lines ++ [rest]).Pairwise fun a b => a = [] → b = [])) := by
  rw [processFile, processFile, processFrom_eq _ hreads, processFrom_eq _ hreads, htext]
  constructor
  · have hsub : ∀ line ∈ squeeze false lines, newline ∉ line := fun line hm =>
      hl line (squeeze_subset hm)
    have hkept : ∀ line ∈ kept lines, newline ∉ line := fun line hm => by
      refine hl line ?_
      rcases List.mem_append.mp hm with hm | hm
      · exact List.mem_of_mem_take hm
      · exact List.mem_of_mem_drop (List.mem_of_mem_filter hm)
    rw [compressed_text hl hr, if_neg (by simp), text_inj hkept hsub hr, squeeze_iff]
  · intro hlen
    rw [numbered_text hl hr (m := 1) rfl (Nat.le_refl 1) rfl (by omega)]
    refine ⟨fun h => h.elim (fun h => h.2) fun h => ?_, fun h => .inl ⟨rfl, h⟩⟩
    exact List.pairwise_of_forall_mem_list fun _ _ b hb _ => h b hb

/-- Empty lines at the start with `-s`, and at the end with `-b`. -/
theorem cat_lines_split :
    processFile { compressEmpty := true } [[10], [10, 97, 10]] = [10, 97, 10] ∧
    processFile { skipEmptyLines := true } [[97, 10, 98], [10, 10]] =
      printNumber 1 ++ [97, 10] ++ printNumber 2 ++ [98, 10, 10] := by
  have hs : ([[10], [10, 97, 10]] : List (List UInt8)).flatten = text [[], [], [97]] [] := rfl
  have hb : ([[97, 10, 98], [10, 10]] : List (List UInt8)).flatten = text [[97], [98], []] [] := rfl
  exact ⟨(cat_lines (by decide) hs (by decide) (by decide)).1.mpr (by simp),
    ((cat_lines (by decide) hb (by decide) (by decide)).2 (by decide)).mpr (by simp)⟩

/-- The empty line between two lines of text is lost, and counted. -/
theorem cat_text_around_empty : text [[97], [], [98]] [] = [97, 10, 10, 98, 10] ∧
    processFile { compressEmpty := true } [[97, 10, 10, 98, 10]] = [97, 10, 98, 10] ∧
    squeeze false [[97], [], [98]] = [[97], [], [98]] ∧
    processFile { skipEmptyLines := true } [[97, 10, 10, 98, 10]] =
      printNumber 1 ++ [97, 10, 10] ++ printNumber 3 ++ [98, 10] := by
  decide +kernel

end OsKernel.Cat
