import OsKernel.Kernel.Mmu

/-!
# Checks of user ranges

`user_readable` and `user_writeable` of `kernel/syscall.c`.  Both look at one address for every
512 bytes of the range.  They are exact for a range that ends below `USERTOP` and whose entries
in the page table are valid or zero (`userRange_true_iff`), and look at neither of these two things
themselves: the end of the range may wrap around, `get_pte` does not see the upper 16 bits of an
address, and an entry need not be valid to have `PTE_USER`.
-/

namespace OsKernel

section

variable (mem : Nat → Nat)

/-- The test of `user_readable` for one address. -/
def readTest (pt va : Nat) : Bool :=
  match getPte mem pt va with
  | none => false
  | some p => mem p &&& PTE_USER ≠ 0

/-- The test of `user_writeable` for one address. -/
def writeTest (pt va : Nat) : Bool :=
  match getPte mem pt va with
  | none => false
  | some p => mem p &&& PTE_RO = 0 ∧ mem p &&& PTE_USER ≠ 0

end

/-- The loop over the addresses from `addr` to `stop`, with the number of turns that it may
take. -/
def rangeLoop (test : Nat → Bool) (stop : Nat) : Nat → Nat → Option Bool
  | 0, _ => none
  | fuel + 1, addr =>
    if addr < stop then
      if test addr then rangeLoop test stop fuel (usize ((addr / BLOCK_SIZE + 1) * BLOCK_SIZE))
      else some false
    else some true

def userRange (test : Nat → Bool) (start size fuel : Nat) : Option Bool :=
  if size = 0 then some true else rangeLoop test (usize (start + size)) fuel start

/-- The check returns `b`. -/
def RangeReturns (test : Nat → Bool) (start size : Nat) (b : Bool) : Prop :=
  ∃ fuel, userRange test start size fuel = some b

/-- `user_readable(start, size)` returns `b`. -/
def userReadable (mem : Nat → Nat) (pt start size : Nat) (b : Bool) : Prop :=
  RangeReturns (readTest mem pt) start size b

/-- `user_writeable(start, size)` returns `b`. -/
def userWriteable (mem : Nat → Nat) (pt start size : Nat) (b : Bool) : Prop :=
  RangeReturns (writeTest mem pt) start size b

/-! ## One address -/

section

variable {mem : Nat → Nat} {pt va va' : Nat}

theorem readTest_congr (h : va / PAGE_SIZE = va' / PAGE_SIZE) :
    readTest mem pt va = readTest mem pt va' := by
  simp only [readTest, getPte_congr h]

theorem writeTest_congr (h : va / PAGE_SIZE = va' / PAGE_SIZE) :
    writeTest mem pt va = writeTest mem pt va' := by
  simp only [writeTest, getPte_congr h]

theorem ne_zero_of_user {pte : Nat} (h : pte &&& PTE_USER ≠ 0) : pte ≠ 0 := by
  rintro rfl
  exact h (Nat.zero_and _)

theorem readTest_iff (hpt : WalkOk mem pt va) (hva : va < USERTOP) :
    readTest mem pt va = true ↔ UserReadable mem pt va := by
  rw [UserReadable, translate_eq hpt hva, readTest]
  cases getPte mem pt va with
  | none => simp
  | some p =>
    constructor
    · intro h
      have huser := of_decide_eq_true h
      exact ⟨mem p, by simp [ne_zero_of_user huser], huser⟩
    intro h
    obtain ⟨pte, he, huser⟩ := h
    simp only [Option.bind_some] at he
    split at he
    · cases he
    · cases he
      exact decide_eq_true huser

theorem writeTest_iff (hpt : WalkOk mem pt va) (hva : va < USERTOP) :
    writeTest mem pt va = true ↔ UserWriteable mem pt va := by
  rw [UserWriteable, translate_eq hpt hva, writeTest]
  cases getPte mem pt va with
  | none => simp
  | some p =>
    constructor
    · intro h
      obtain ⟨hro, huser⟩ := of_decide_eq_true h
      exact ⟨mem p, by simp [ne_zero_of_user huser], huser, hro⟩
    intro h
    obtain ⟨pte, he, huser, hro⟩ := h
    simp only [Option.bind_some] at he
    split at he
    · cases he
    · cases he
      exact decide_eq_true ⟨hro, huser⟩

end

/-! ## The loop -/

section

variable {test : Nat → Bool} {stop : Nat}

theorem rangeLoop_succ {fuel addr : Nat} {b : Bool} (h : rangeLoop test stop fuel addr = some b) :
    rangeLoop test stop (fuel + 1) addr = some b := by
  induction fuel generalizing addr with
  | zero => cases h
  | succ fuel ih =>
    rw [rangeLoop] at h ⊢
    split
    · rename_i hlt
      rw [if_pos hlt] at h
      split
      · rename_i ht
        rw [if_pos ht] at h
        exact ih h
      · rename_i ht
        rwa [if_neg ht] at h
    · rename_i hlt
      rwa [if_neg hlt] at h

theorem rangeLoop_add {fuel addr : Nat} {b : Bool} (h : rangeLoop test stop fuel addr = some b)
    (n : Nat) : rangeLoop test stop (fuel + n) addr = some b := by
  induction n with
  | zero => exact h
  | succ n ih => exact rangeLoop_succ ih

theorem rangeLoop_unique {fuel fuel' addr : Nat} {b b' : Bool}
    (h : rangeLoop test stop fuel addr = some b) (h' : rangeLoop test stop fuel' addr = some b') :
    b = b' := by
  have h1 := rangeLoop_add h fuel'
  have h2 := rangeLoop_add h' fuel
  rw [Nat.add_comm fuel' fuel, h1] at h2
  exact Option.some.inj h2

theorem rangeLoop_spec (hstop : stop ≤ USERTOP)
    (hblock : ∀ a b, a / BLOCK_SIZE = b / BLOCK_SIZE → test a = test b) (n addr : Nat)
    (hn : stop - addr ≤ n) :
    ∃ b, rangeLoop test stop (n + 1) addr = some b ∧
      (b = true ↔ ∀ x, addr ≤ x → x < stop → test x = true) := by
  induction n generalizing addr with
  | zero =>
    have hge : ¬ addr < stop := by omega
    refine ⟨true, by rw [rangeLoop, if_neg hge], by simp; omega⟩
  | succ n ih =>
    by_cases hlt : addr < stop
    · -- the next address is the start of the next block
      have hnext : usize ((addr / BLOCK_SIZE + 1) * BLOCK_SIZE) =
          (addr / BLOCK_SIZE + 1) * BLOCK_SIZE := by
        apply Nat.mod_eq_of_lt
        simp only [USERTOP, BLOCK_SIZE] at hstop ⊢
        omega
      cases ht : test addr with
      | false =>
        refine ⟨false, by rw [rangeLoop, if_pos hlt, ht]; rfl, ?_⟩
        simp only [Bool.false_eq_true, false_iff]
        intro hall
        have := hall addr (Nat.le_refl _) hlt
        rw [ht] at this
        cases this
      | true =>
        obtain ⟨b, hb, hiff⟩ := ih ((addr / BLOCK_SIZE + 1) * BLOCK_SIZE)
          (by simp only [BLOCK_SIZE]; omega)
        refine ⟨b, by rw [rangeLoop, if_pos hlt, if_pos ht, hnext, hb], hiff.trans ?_⟩
        constructor
        · intro hall x hx hxs
          by_cases hsame : x / BLOCK_SIZE = addr / BLOCK_SIZE
          · rw [hblock x addr hsame, ht]
          · exact hall x (by simp only [BLOCK_SIZE] at hsame ⊢; omega) hxs
        · intro hall x hx hxs
          exact hall x (by simp only [BLOCK_SIZE] at hx; omega) hxs
    · refine ⟨true, by rw [rangeLoop, if_neg hlt], by simp; omega⟩

/-- Below `USERTOP` the check returns, with `true` if every address passes the test. -/
theorem userRange_true_iff (hblock : ∀ a b, a / BLOCK_SIZE = b / BLOCK_SIZE → test a = test b)
    {start size : Nat} (hend : start + size ≤ USERTOP) :
    (∃ b, RangeReturns test start size b) ∧
      (RangeReturns test start size true ↔ ∀ x, start ≤ x → x < start + size → test x = true) := by
  have hsize : usize (start + size) = start + size := by
    apply Nat.mod_eq_of_lt
    simp only [USERTOP] at hend
    omega
  by_cases hz : size = 0
  · have hret : ∀ fuel, userRange test start size fuel = some true := fun _ => if_pos hz
    refine ⟨⟨true, 0, hret 0⟩, ?_⟩
    constructor
    · intro _ x hx hxs
      omega
    · intro _
      exact ⟨0, hret 0⟩
  · have hloop : ∀ fuel, userRange test start size fuel =
        rangeLoop test (start + size) fuel start := fun fuel => by rw [userRange, if_neg hz, hsize]
    obtain ⟨b, hb, hiff⟩ := rangeLoop_spec hend hblock size start (by omega)
    refine ⟨⟨b, size + 1, by rw [hloop, hb]⟩, ?_⟩
    rw [← hiff]
    constructor
    · intro h
      obtain ⟨fuel, h⟩ := h
      rw [hloop] at h
      exact (rangeLoop_unique h hb).symm
    · intro h
      exact ⟨size + 1, by rw [hloop, hb, h]⟩

end

/-! ## Soundness -/

/-- What an accepted range should be: it does not wrap around, and every byte is below `USERTOP`
and mapped for the user. -/
def RangeMapped (mapped : Nat → Prop) (start size : Nat) : Prop :=
  start + size < 2 ^ 64 ∧ ∀ va, start ≤ va → va < start + size → va < USERTOP ∧ mapped va

/-- The range is empty, or it ends below `USERTOP` and the walks for its bytes read only entries
that are valid or zero. -/
def RangeOk (mem : Nat → Nat) (pt start size : Nat) : Prop :=
  size = 0 ∨ start + size ≤ USERTOP ∧ ∀ va, start ≤ va → va < start + size → WalkOk mem pt va

section

variable {mem : Nat → Nat} {pt start size : Nat} {test : Nat → Bool} {mapped : Nat → Prop}
  (hpage : ∀ a b, a / PAGE_SIZE = b / PAGE_SIZE → test a = test b)
  (htest : ∀ va, WalkOk mem pt va → va < USERTOP → (test va = true ↔ mapped va))
  (hwalk : ∀ va, mapped va → ∃ pte, translate mem pt va = some pte)

include hpage htest in
theorem rangeReturns_iff (hok : RangeOk mem pt start size) (hstart : start < 2 ^ 64) :
    (∃ b, RangeReturns test start size b) ∧
      (RangeReturns test start size true ↔ RangeMapped mapped start size) := by
  rcases hok with rfl | ⟨hend, hwalks⟩
  · have hret : RangeReturns test start 0 true := ⟨0, if_pos rfl⟩
    exact ⟨⟨true, hret⟩, iff_of_true hret ⟨by omega, fun va _ _ => by omega⟩⟩
  have hblock : ∀ a b, a / BLOCK_SIZE = b / BLOCK_SIZE → test a = test b := fun a b h =>
    hpage a b (by simp only [BLOCK_SIZE, PAGE_SIZE] at h ⊢; omega)
  obtain ⟨hret, hiff⟩ := userRange_true_iff hblock hend
  refine ⟨hret, hiff.trans ⟨fun h => ⟨?_, fun va hlo hhi => ?_⟩, fun h va hlo hhi => ?_⟩⟩
  · exact Nat.lt_of_le_of_lt hend (by decide)
  · have htop := Nat.lt_of_lt_of_le hhi hend
    exact ⟨htop, (htest va (hwalks va hlo hhi) htop).mp (h va hlo hhi)⟩
  · obtain ⟨htop, hmapped⟩ := h.2 va hlo hhi
    exact (htest va (hwalks va hlo hhi) htop).mpr hmapped

include hwalk in
theorem RangeMapped.rangeOk (h : RangeMapped mapped start size) : RangeOk mem pt start size := by
  rcases Nat.eq_zero_or_pos size with hz | hpos
  · exact .inl hz
  refine .inr ⟨?_, fun va hlo hhi => ?_⟩
  · have := (h.2 (start + size - 1) (by omega) (by omega)).1
    omega
  · obtain ⟨pte, hpte⟩ := hwalk va (h.2 va hlo hhi).2
    exact walkOk_of_translate hpte

end

/-- The checks are sound and complete on the ranges that are empty, or end below `USERTOP` and whose
pages have only valid entries or none; and of the ranges that they accept, only these are
mapped for the user as they say. -/
theorem user_range_checks_exact {mem : Nat → Nat} {pt start size : Nat} (hstart : start < 2 ^ 64) :
    ((RangeOk mem pt start size → (∃ b, userWriteable mem pt start size b) ∧
        (userWriteable mem pt start size true ↔
          RangeMapped (UserWriteable mem pt) start size)) ∧
      (userWriteable mem pt start size true →
        (RangeMapped (UserWriteable mem pt) start size ↔ RangeOk mem pt start size))) ∧
    (RangeOk mem pt start size → (∃ b, userReadable mem pt start size b) ∧
        (userReadable mem pt start size true ↔ RangeMapped (UserReadable mem pt) start size)) ∧
      (userReadable mem pt start size true →
        (RangeMapped (UserReadable mem pt) start size ↔ RangeOk mem pt start size)) := by
  have hwrite := fun hok : RangeOk mem pt start size =>
    rangeReturns_iff (fun _ _ => writeTest_congr) (fun _ => writeTest_iff) hok hstart
  have hread := fun hok : RangeOk mem pt start size =>
    rangeReturns_iff (fun _ _ => readTest_congr) (fun _ => readTest_iff) hok hstart
  refine ⟨⟨hwrite, fun htrue => ⟨?_, fun hok => ((hwrite hok).2).mp htrue⟩⟩, hread,
    fun htrue => ⟨?_, fun hok => ((hread hok).2).mp htrue⟩⟩
  · exact RangeMapped.rangeOk fun _ h => ⟨h.choose, h.choose_spec.1⟩
  · exact RangeMapped.rangeOk fun _ h => ⟨h.choose, h.choose_spec.1⟩

namespace OnePage

def pt : Nat := p2k 0x1000

/-- A page table with the entry `pte` for the page at address 0. -/
def mem (pte addr : Nat) : Nat :=
  if addr = p2k 0x1000 then 0x2003
  else if addr = p2k 0x2000 then 0x3003
  else if addr = p2k 0x3000 then 0x4003
  else if addr = p2k 0x4000 then pte
  else 0

/-- A page with `PTE_USER_DATA`. -/
def userData : Nat := 0x5647

theorem walkOk (va : Nat) : WalkOk (mem userData) pt va := by
  have hmem : ∀ addr, mem userData addr ≠ 0 → mem userData addr &&& PTE_VALID ≠ 0 := by
    intro addr h
    simp only [mem] at h ⊢
    split
    · decide
    split
    · decide
    split
    · decide
    split
    · decide
    · simp_all
  exact ⟨hmem _, fun _ _ => ⟨hmem _, fun _ _ => ⟨hmem _, fun _ _ => hmem _⟩⟩⟩

theorem user_range_checks_exact_page : userWriteable (mem userData) pt 0 PAGE_SIZE true ∧
      RangeMapped (UserWriteable (mem userData) pt) 0 PAGE_SIZE := by
  have h : userWriteable (mem userData) pt 0 PAGE_SIZE true := ⟨9, by decide +kernel⟩
  exact ⟨h, ((user_range_checks_exact (by decide)).1.2 h).mpr
    (.inr ⟨by decide, fun va _ _ => walkOk va⟩)⟩

/-- Ranges that are accepted: one in kernel space, one that wraps around, and one in a page that
is not mapped, since its entry is not valid. -/
theorem user_range_checks_unsound :
    userWriteable (mem userData) pt KSPACE_MASK 8 true ∧ ¬ KSPACE_MASK < USERTOP ∧
    (userWriteable (fun _ => 0) 0 (2 ^ 64 - 8) 16 true ∧ 2 ^ 64 ≤ 2 ^ 64 - 8 + 16) ∧
    userWriteable (mem PTE_USER) pt 0 8 true ∧ translate (mem PTE_USER) pt 0 = none ∧
    (userReadable (mem userData) pt KSPACE_MASK 8 true ∧
      userReadable (fun _ => 0) 0 (2 ^ 64 - 8) 16 true ∧ userReadable (mem PTE_USER) pt 0 8 true) :=
  ⟨⟨2, by decide +kernel⟩, by decide, ⟨⟨1, by decide +kernel⟩, by decide⟩, ⟨2, by decide +kernel⟩,
    by decide +kernel, ⟨2, by decide +kernel⟩, ⟨1, by decide +kernel⟩, ⟨2, by decide +kernel⟩⟩

end OnePage

end OsKernel
