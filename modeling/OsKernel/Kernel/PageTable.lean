import OsKernel.Lib.Runs
import OsKernel.Kernel.Mmu

/-!
# Page tables

`get_pte` of `kernel/pt.c` with its allocations.  The tables are pages in the memory of 64-bit words;
an entry of one of the three upper levels is `0` or the address of a table of the next level beside
`PTE_TABLE`.  `kalloc_page` returns the pages of a supply in which no page occurs twice
(`FreshPages`), and `NULL` when there are no more.

What the tables stand for is a map.  A table is known by the indices that lead to it, the last
one first, and `PageTables s tbl val` says which tables there are and where (`tbl`), and what the
entries of the last level hold (`val`, by the number of the page of virtual memory).  A
call with `alloc = true` adds the missing tables of one path, and changes nothing else.

A run is a sequence of calls and of stores through the pointers that they have returned.
`returned`, `allocs` and `stored` are its history.
-/

namespace OsKernel

open Function List

def PTE_TABLE : Nat := 3

abbrev N_PTE_PER_TABLE : Nat := 512

def k2p (addr : Nat) : Nat := usizeSub addr KSPACE_MASK

def tableEntry (pg : Nat) : Nat := k2p pg ||| PTE_TABLE

/-- The pages that the calls of `kalloc_page` return. -/
structure FreshPages where
  size : Nat
  page : Nat → Nat
  inj : ∀ {m n}, m < size → n < size → page m = page n → m = n
  aligned : ∀ {n}, n < size → page n % PAGE_SIZE = 0
  kernel : ∀ {n}, n < size → KSPACE_MASK ≤ page n ∧ page n < 2 ^ 64

/-- The memory, `pgdir->pt`, and how often `kalloc_page` has been called. -/
structure PageDir where
  mem : Nat → Nat
  pt : Nat
  taken : Nat

namespace PageDir

variable (F : FreshPages)

def zeroed (s : PageDir) : PageDir :=
  { s with
    mem := fun a => if F.page s.taken ≤ a ∧ a < F.page s.taken + PAGE_SIZE then 0 else s.mem a
    taken := s.taken + 1 }

/-- `kalloc_page`, and the `memset` that follows it. -/
def newTable (s : PageDir) : Option (Nat × PageDir) :=
  if s.taken < F.size then some (F.page s.taken, s.zeroed F) else none

theorem newTable_eq {s : PageDir} (h : s.taken < F.size) :
    s.newTable F = some (F.page s.taken, s.zeroed F) := if_pos h

def store (s : PageDir) (p v : Nat) : PageDir := { s with mem := update s.mem p v }

@[simp] theorem mem_store_self (s : PageDir) (p v : Nat) : (s.store p v).mem p = v :=
  update_self ..

theorem mem_store_of_ne (s : PageDir) {p q : Nat} (h : q ≠ p) (v : Nat) :
    (s.store p v).mem q = s.mem q := update_of_ne h ..

def rootTable (alloc : Bool) (s : PageDir) : Option Nat × PageDir :=
  if s.pt = 0 then
    if alloc then
      match s.newTable F with
      | some (pg, s') => (some pg, { s' with pt := pg })
      | none => (none, s)
    else (none, s)
  else (some s.pt, s)

/-- The step from table `pt` to the table of the next level at index `i`. -/
def enter (alloc : Bool) (pt i : Nat) (s : PageDir) : Option Nat × PageDir :=
  if s.mem (pteAt pt i) = 0 then
    if alloc then
      match s.newTable F with
      | some (pg, s') =>
        (some (p2k (pteAddress ((s'.store (pteAt pt i) (tableEntry pg)).mem (pteAt pt i)))),
          s'.store (pteAt pt i) (tableEntry pg))
      | none => (none, s)
    else (none, s)
  else (some (p2k (pteAddress (s.mem (pteAt pt i)))), s)

def descend (alloc : Bool) : List Nat → Nat → PageDir → Option Nat × PageDir
  | [], pt, s => (some pt, s)
  | i :: is, pt, s =>
    match enter F alloc pt i s with
    | (none, s') => (none, s')
    | (some pt', s') => descend alloc is pt' s'

/-- `get_pte(pgdir, va, alloc)`: the address of the entry. -/
def getPte (va : Nat) (alloc : Bool) (s : PageDir) : Option Nat × PageDir :=
  match rootTable F alloc s with
  | (none, s) => (none, s)
  | (some pt0, s) =>
    match descend F alloc [vaPart0 va, vaPart1 va, vaPart2 va] pt0 s with
    | (none, s) => (none, s)
    | (some pt3, s) => (some (pteAt pt3 (vaPart3 va)), s)

end PageDir

/-! ## Addresses -/

/-- The bits from `lo` up to `hi` are the same. -/
def SameBits (lo hi va va' : Nat) : Prop := ∀ i, lo ≤ i → i < hi → va.testBit i = va'.testBit i

/-- Bits 12 to 47 of an address: the number of its page. -/
def slotNo (va : Nat) : Nat := va / PAGE_SIZE % 2 ^ 36

/-- Bits 21 to 47 of an address: the number of its region of 2 MiB. -/
def regionNo (va : Nat) : Nat := va / 2 ^ 21 % 2 ^ 27

/-- The indices that lead to the table of level 3, the last one first. -/
def tablePath (va : Nat) : List Nat := [vaPart2 va, vaPart1 va, vaPart0 va]

variable {va va' : Nat}

theorem mod_div_eq_iff (lo len : Nat) :
    va / 2 ^ lo % 2 ^ len = va' / 2 ^ lo % 2 ^ len ↔ SameBits lo (lo + len) va va' := by
  constructor
  · intro h i hlo hhi
    have hbit := congrArg (·.testBit (i - lo)) h
    have hlt : i - lo < len := by omega
    simpa [Nat.testBit_mod_two_pow, Nat.testBit_div_two_pow, hlt, Nat.sub_add_cancel hlo] using hbit
  intro h
  apply Nat.eq_of_testBit_eq
  intro i
  simp only [Nat.testBit_mod_two_pow, Nat.testBit_div_two_pow]
  by_cases hi : i < len
  · rw [h (i + lo) (by omega) (by omega)]
  · simp [hi]

theorem slotNo_eq_iff_sameBits :
    slotNo va = slotNo va' ↔ SameBits 12 48 va va' := mod_div_eq_iff 12 36

theorem regionNo_eq_iff_sameBits :
    regionNo va = regionNo va' ↔ SameBits 21 48 va va' := mod_div_eq_iff 21 27

theorem vaPart0_lt (va : Nat) : vaPart0 va < N_PTE_PER_TABLE := by
  rw [vaPart0_eq]
  exact Nat.mod_lt _ (by decide)

theorem vaPart1_lt (va : Nat) : vaPart1 va < N_PTE_PER_TABLE := by
  rw [vaPart1_eq]
  exact Nat.mod_lt _ (by decide)

theorem vaPart2_lt (va : Nat) : vaPart2 va < N_PTE_PER_TABLE := by
  rw [vaPart2_eq]
  exact Nat.mod_lt _ (by decide)

theorem vaPart3_lt (va : Nat) : vaPart3 va < N_PTE_PER_TABLE := by
  rw [vaPart3_eq]
  exact Nat.mod_lt _ (by decide)

theorem tablePath_eq_iff : tablePath va = tablePath va' ↔ regionNo va = regionNo va' := by
  have hdiv : ∀ a : Nat, a / 2 ^ 21 = a / PAGE_SIZE / 2 ^ 9 := fun a => by
    simp only [PAGE_SIZE]
    omega
  simp only [tablePath, regionNo, vaPart0_eq, vaPart1_eq, vaPart2_eq, hdiv, List.cons.injEq,
    and_true]
  omega

theorem slotNo_eq_iff :
    slotNo va = slotNo va' ↔ tablePath va = tablePath va' ∧ vaPart3 va = vaPart3 va' := by
  simp only [tablePath, slotNo, vaPart0_eq, vaPart1_eq, vaPart2_eq, vaPart3_eq, List.cons.injEq,
    and_true]
  omega

theorem pteAddress_eq (pte : Nat) : pteAddress pte = pte / 2 ^ 12 % 2 ^ 36 * 2 ^ 12 := by
  have hmask : 0x0000FFFFFFFFF000 = (2 ^ 36 - 1) <<< 12 := by decide
  rw [pteAddress, hmask, ← Nat.shiftLeft_eq, ← Nat.and_two_pow_sub_one_eq_mod,
    ← Nat.shiftRight_eq_div_pow, Nat.shiftLeft_and_distrib]
  apply Nat.eq_of_testBit_eq
  intro i
  simp only [Nat.testBit_and, Nat.testBit_shiftLeft, Nat.testBit_shiftRight]
  by_cases hi : 12 ≤ i
  · simp [hi]
  · simp [hi]

theorem p2k_pteAddress_table {pg : Nat} (halign : pg % PAGE_SIZE = 0) (hlow : KSPACE_MASK ≤ pg)
    (hhigh : pg < 2 ^ 64) : p2k (pteAddress (tableEntry pg)) = pg := by
  rw [tableEntry]
  simp only [KSPACE_MASK, PAGE_SIZE] at hlow halign
  have hk2p : k2p pg = 2 ^ 12 * ((pg - KSPACE_MASK) / 2 ^ 12) := by
    simp only [k2p, usizeSub, usize, KSPACE_MASK]
    omega
  rw [hk2p, ← Nat.two_pow_add_eq_or_of_lt (by decide : PTE_TABLE < 2 ^ 12), pteAddress_eq]
  simp only [p2k, usize, KSPACE_MASK, PTE_TABLE]
  omega

theorem tableEntry_ne_zero (pg : Nat) : tableEntry pg ≠ 0 := by
  intro h
  have hbit : (tableEntry pg).testBit 0 = true := by
    rw [tableEntry, Nat.testBit_or, Bool.or_eq_true]
    exact Or.inr (by decide)
  rw [h, Nat.zero_testBit] at hbit
  cases hbit

theorem pteAt_inj {a b i j : Nat} (ha : a % PAGE_SIZE = 0) (hb : b % PAGE_SIZE = 0)
    (hi : i < N_PTE_PER_TABLE) (hj : j < N_PTE_PER_TABLE) (h : pteAt a i = pteAt b j) :
    a = b ∧ i = j := by
  simp only [pteAt, PAGE_SIZE, N_PTE_PER_TABLE] at *
  omega

/-! ## The map -/

/-- The tables are those of `tbl`, and the entries of the last level hold `val`. -/
structure PageTables (F : FreshPages) (s : PageDir) (tbl : List Nat → Option Nat) (val : Nat → Nat) :
    Prop where
  root : s.pt = (tbl []).getD 0
  taken : ∀ {ps a}, tbl ps = some a → ∃ n, n < s.taken ∧ n < F.size ∧ a = F.page n
  inj : ∀ {ps qs a}, tbl ps = some a → tbl qs = some a → ps = qs
  closed : ∀ {ps i}, tbl ps = none → tbl (i :: ps) = none
  upper : ∀ {ps a i}, ps.length < 3 → tbl ps = some a → i < N_PTE_PER_TABLE →
    s.mem (pteAt a i) = (tbl (i :: ps)).elim 0 tableEntry
  leaf : ∀ {va a}, tbl (tablePath va) = some a → s.mem (pteAt a (vaPart3 va)) = val (slotNo va)
  blank : ∀ {va}, tbl (tablePath va) = none → val (slotNo va) = 0

namespace PageTables

variable {F : FreshPages} {s : PageDir} {tbl : List Nat → Option Nat} {val : Nat → Nat}
  {ps : List Nat} {a i : Nat}

section

variable (h : PageTables F s tbl val)

include h

theorem aligned (ha : tbl ps = some a) : a % PAGE_SIZE = 0 := by
  obtain ⟨n, -, hn, rfl⟩ := h.taken ha
  exact F.aligned hn

theorem ne_zero (ha : tbl ps = some a) : a ≠ 0 := by
  obtain ⟨n, -, hn, rfl⟩ := h.taken ha
  have := (F.kernel hn).1
  simp only [KSPACE_MASK] at this
  omega

theorem ne_fresh (hroom : s.taken < F.size) (ha : tbl ps = some a) : a ≠ F.page s.taken := by
  obtain ⟨n, hlt, hn, rfl⟩ := h.taken ha
  intro he
  exact absurd (F.inj hn hroom he) (Nat.ne_of_lt hlt)

theorem mem_zeroed (hroom : s.taken < F.size) (ha : tbl ps = some a)
    (hi : i < N_PTE_PER_TABLE) : (s.zeroed F).mem (pteAt a i) = s.mem (pteAt a i) := by
  have halign := h.aligned ha
  have hfresh := F.aligned hroom
  have hne := h.ne_fresh hroom ha
  refine if_neg fun hin => ?_
  simp only [pteAt, PAGE_SIZE, N_PTE_PER_TABLE] at *
  omega

end

theorem mem_zeroed_self {j : Nat} (hj : j < N_PTE_PER_TABLE) :
    (s.zeroed F).mem (pteAt (F.page s.taken) j) = 0 := by
  refine if_pos ?_
  simp only [pteAt, PAGE_SIZE, N_PTE_PER_TABLE] at *
  omega

theorem none_append (h : PageTables F s tbl val) (hps : tbl ps = none) :
    ∀ is : List Nat, tbl (is ++ ps) = none
  | [] => hps
  | _ :: is => h.closed (h.none_append hps is)

theorem link (h : PageTables F s tbl val) (hroom : s.taken < F.size) (hlen : ps.length < 3)
    (ha : tbl ps = some a) (hi : i < N_PTE_PER_TABLE) (hnone : tbl (i :: ps) = none) :
    PageTables F ((s.zeroed F).store (pteAt a i) (tableEntry (F.page s.taken)))
      (update tbl (i :: ps) (some (F.page s.taken))) val := by
  have hold : ∀ {qs b}, update tbl (i :: ps) (some (F.page s.taken)) qs = some b →
      tbl qs = some b ∧ qs ≠ i :: ps ∨ qs = i :: ps ∧ b = F.page s.taken := by
    intro qs b hb
    by_cases hq : qs = i :: ps
    · rw [hq, update_self] at hb
      exact Or.inr ⟨hq, (Option.some.inj hb).symm⟩
    · rw [update_of_ne hq] at hb
      exact Or.inl ⟨hb, hq⟩
  -- a word of a table other than the entry that has been written
  have hword : ∀ {qs b j}, tbl qs = some b → j < N_PTE_PER_TABLE → (qs, j) ≠ (ps, i) →
      ((s.zeroed F).store (pteAt a i) (tableEntry (F.page s.taken))).mem (pteAt b j) =
        s.mem (pteAt b j) := by
    intro qs b j hb hj hne
    have hpte : pteAt b j ≠ pteAt a i := fun he => by
      obtain ⟨rfl, rfl⟩ := pteAt_inj (h.aligned hb) (h.aligned ha) hj hi he
      exact hne (by rw [h.inj hb ha])
    rw [PageDir.mem_store_of_ne _ hpte, h.mem_zeroed hroom hb hj]
  have hself : ∀ {j}, j < N_PTE_PER_TABLE →
      ((s.zeroed F).store (pteAt a i) (tableEntry (F.page s.taken))).mem
        (pteAt (F.page s.taken) j) = 0 := by
    intro j hj
    have hpte : pteAt (F.page s.taken) j ≠ pteAt a i := fun he =>
      h.ne_fresh hroom ha (pteAt_inj (F.aligned hroom) (h.aligned ha) hj hi he).1.symm
    rw [PageDir.mem_store_of_ne _ hpte, mem_zeroed_self hj]
  constructor
  case root =>
    exact h.root
  case taken =>
    intro qs b hb
    rcases hold hb with ⟨hb, -⟩ | ⟨-, rfl⟩
    · obtain ⟨n, hlt, hn, hbn⟩ := h.taken hb
      exact ⟨n, Nat.lt_succ_of_lt hlt, hn, hbn⟩
    · exact ⟨s.taken, Nat.lt_succ_self _, hroom, rfl⟩
  case inj =>
    intro qs rs b hb hb'
    rcases hold hb with ⟨hq, -⟩ | ⟨hq, rfl⟩ <;> rcases hold hb' with ⟨hr, -⟩ | ⟨hr, hb'⟩
    · exact h.inj hq hr
    · exact absurd hb' (h.ne_fresh hroom hq)
    · exact absurd rfl (h.ne_fresh hroom hr)
    · rw [hq, hr]
  case closed =>
    intro qs j hq
    by_cases hqs : qs = i :: ps
    · rw [hqs, update_self] at hq
      cases hq
    rw [update_of_ne hqs] at hq
    have hne : j :: qs ≠ i :: ps := by
      intro he
      rw [(List.cons.inj he).2, ha] at hq
      cases hq
    rw [update_of_ne hne]
    exact h.closed hq
  case upper =>
    intro qs b j hql hb hj
    rcases hold hb with ⟨hq, -⟩ | ⟨rfl, rfl⟩
    · by_cases hqj : (qs, j) = (ps, i)
      · obtain ⟨rfl, rfl⟩ := Prod.mk.inj hqj
        rw [ha] at hq
        cases hq
        rw [update_self, PageDir.mem_store_self, Option.elim_some]
      have hne : j :: qs ≠ i :: ps := by
        intro he
        obtain ⟨rfl, rfl⟩ := List.cons.inj he
        exact hqj rfl
      rw [hword hq hj hqj, update_of_ne hne]
      exact h.upper hql hq hj
    · have hne : j :: i :: ps ≠ i :: ps := by
        intro he
        have := congrArg List.length he
        simp at this
      rw [hself hj, update_of_ne hne, h.closed hnone]
      rfl
  case leaf =>
    intro va b hb
    rcases hold hb with ⟨hq, -⟩ | ⟨hq, rfl⟩
    · have hne : (tablePath va, vaPart3 va) ≠ (ps, i) := by
        intro he
        have hps := congrArg List.length (Prod.mk.inj he).1
        simp only [tablePath, length_cons, length_nil] at hps
        omega
      rw [hword hq (vaPart3_lt va) hne]
      exact h.leaf hq
    · rw [hself (vaPart3_lt va), h.blank (hq ▸ hnone)]
  case blank =>
    intro va hva
    refine h.blank ?_
    by_cases hq : tablePath va = i :: ps
    · rw [hq, update_self] at hva
      cases hva
    · rwa [update_of_ne hq] at hva

theorem newRoot (h : PageTables F s tbl val) (hroom : s.taken < F.size) (hnone : tbl [] = none) :
    PageTables F { s.zeroed F with pt := F.page s.taken }
      (update tbl [] (some (F.page s.taken))) val := by
  have hempty : ∀ qs, tbl qs = none := fun qs => by
    have := h.none_append hnone qs
    rwa [append_nil] at this
  have hold : ∀ {qs b}, update tbl [] (some (F.page s.taken)) qs = some b →
      qs = [] ∧ b = F.page s.taken := by
    intro qs b hb
    by_cases hq : qs = []
    · rw [hq, update_self] at hb
      exact ⟨hq, (Option.some.inj hb).symm⟩
    · rw [update_of_ne hq, hempty] at hb
      cases hb
  constructor
  case root =>
    rfl
  case taken =>
    intro qs b hb
    exact ⟨s.taken, Nat.lt_succ_self _, hroom, (hold hb).2⟩
  case inj =>
    intro qs rs b hb hb'
    rw [(hold hb).1, (hold hb').1]
  case closed =>
    intro qs j _
    rw [update_of_ne (cons_ne_nil j qs), hempty]
  case upper =>
    intro qs b j _ hb hj
    obtain ⟨rfl, rfl⟩ := hold hb
    rw [update_of_ne (cons_ne_nil j []), hempty]
    exact mem_zeroed_self hj
  case leaf =>
    intro va b hb
    cases (hold hb).1
  case blank =>
    intro va _
    exact h.blank (hempty _)

/-! ## The steps of a walk -/

variable {b va : Nat} {is : List Nat}

section

variable (h : PageTables F s tbl val)

include h

section

variable (hlen : ps.length < 3) (ha : tbl ps = some a) (hi : i < N_PTE_PER_TABLE)

include hlen ha hi

theorem enter_some (hb : tbl (i :: ps) = some b) (alloc : Bool) :
    PageDir.enter F alloc a i s = (some b, s) := by
  have hmem : s.mem (pteAt a i) = tableEntry b := by
    rw [h.upper hlen ha hi, hb, Option.elim_some]
  obtain ⟨n, -, hn, rfl⟩ := h.taken hb
  rw [PageDir.enter, hmem, if_neg (tableEntry_ne_zero _),
    p2k_pteAddress_table (F.aligned hn) (F.kernel hn).1 (F.kernel hn).2]

theorem enter_none (hnone : tbl (i :: ps) = none) : PageDir.enter F false a i s = (none, s) := by
  have hmem : s.mem (pteAt a i) = 0 := by
    rw [h.upper hlen ha hi, hnone, Option.elim_none]
  rw [PageDir.enter, if_pos hmem, if_neg Bool.false_ne_true]

end

theorem enter_new (hroom : s.taken < F.size) (hlen : ps.length < 3)
    (ha : tbl ps = some a) (hi : i < N_PTE_PER_TABLE) (hnone : tbl (i :: ps) = none) :
    PageDir.enter F true a i s =
      (some (F.page s.taken), (s.zeroed F).store (pteAt a i) (tableEntry (F.page s.taken))) := by
  have hmem : s.mem (pteAt a i) = 0 := by
    rw [h.upper hlen ha hi, hnone, Option.elim_none]
  have hpage := p2k_pteAddress_table (F.aligned hroom) (F.kernel hroom).1 (F.kernel hroom).2
  rw [PageDir.enter, if_pos hmem, if_pos rfl, PageDir.newTable_eq F hroom]
  dsimp only
  rw [PageDir.mem_store_self, hpage]

section

variable (hlen : ps.length + is.length = 3) (ha : tbl ps = some a)
  (his : ∀ i ∈ is, i < N_PTE_PER_TABLE)

include hlen ha his

theorem descend_some (hb : tbl (is.reverse ++ ps) = some b) (alloc : Bool) :
    PageDir.descend F alloc is a s = (some b, s) := by
  induction is generalizing ps a with
  | nil =>
    rw [reverse_nil, nil_append, ha] at hb
    rw [PageDir.descend, Option.some.inj hb]
  | cons i is ih =>
    rw [reverse_cons, append_assoc, singleton_append] at hb
    rw [length_cons] at hlen
    have hi := his i mem_cons_self
    cases hc : tbl (i :: ps) with
    | none =>
      rw [h.none_append hc] at hb
      cases hb
    | some c =>
      rw [PageDir.descend, h.enter_some (by omega) ha hi hc]
      exact ih (by rw [length_cons]; omega) hc
        (fun j hj => his j (mem_cons_of_mem i hj)) hb

theorem descend_none
    (hnone : tbl (is.reverse ++ ps) = none) : PageDir.descend F false is a s = (none, s) := by
  induction is generalizing ps a with
  | nil =>
    rw [reverse_nil, nil_append, ha] at hnone
    cases hnone
  | cons i is ih =>
    rw [reverse_cons, append_assoc, singleton_append] at hnone
    rw [length_cons] at hlen
    have hi := his i mem_cons_self
    cases hc : tbl (i :: ps) with
    | none => rw [PageDir.descend, h.enter_none (by omega) ha hi hc]
    | some c =>
      rw [PageDir.descend, h.enter_some (by omega) ha hi hc]
      exact ih (by rw [length_cons]; omega) hc
        (fun j hj => his j (mem_cons_of_mem i hj)) hnone

end

end

/-- `tbl'` has the tables of `tbl`, and of the last level at most one more, with the path `qs`. -/
structure Grown (tbl tbl' : List Nat → Option Nat) (qs : List Nat) : Prop where
  old : ∀ {ps a}, tbl ps = some a → tbl' ps = some a
  new : ∀ {ps a}, ps.length = 3 → tbl' ps = some a → tbl ps = some a ∨ ps = qs

theorem Grown.refl (tbl : List Nat → Option Nat) (qs : List Nat) : Grown tbl tbl qs :=
  ⟨fun h => h, fun _ h => Or.inl h⟩

theorem Grown.trans {tbl1 tbl2 tbl3 : List Nat → Option Nat} {qs : List Nat}
    (h : Grown tbl1 tbl2 qs) (h' : Grown tbl2 tbl3 qs) : Grown tbl1 tbl3 qs :=
  ⟨fun ha => h'.old (h.old ha), fun hlen ha => by
    rcases h'.new hlen ha with ha | rfl
    · exact h.new hlen ha
    · exact Or.inr rfl⟩

theorem grown_update {qs : List Nat} (hnone : tbl ps = none)
    (hps : ps.length = 3 → ps = qs) : Grown tbl (update tbl ps (some b)) qs := by
  constructor
  · intro rs c hc
    have hne : rs ≠ ps := by
      rintro rfl
      rw [hnone] at hc
      cases hc
    rwa [update_of_ne hne]
  · intro rs c hlen hc
    by_cases hr : rs = ps
    · exact Or.inr (hr.trans (hps (hr ▸ hlen)))
    · rw [update_of_ne hr] at hc
      exact Or.inl hc

theorem descend_alloc (h : PageTables F s tbl val)
    (hroom : s.taken + is.length ≤ F.size) (hlen : ps.length + is.length = 3)
    (ha : tbl ps = some a) (his : ∀ i ∈ is, i < N_PTE_PER_TABLE) :
    ∃ b s' tbl', PageDir.descend F true is a s = (some b, s') ∧ PageTables F s' tbl' val ∧
      tbl' (is.reverse ++ ps) = some b ∧ Grown tbl tbl' (is.reverse ++ ps) := by
  induction is generalizing ps a s tbl with
  | nil => exact ⟨a, s, tbl, rfl, h, ha, .refl tbl _⟩
  | cons i is ih =>
    have hi := his i mem_cons_self
    have his' : ∀ j ∈ is, j < N_PTE_PER_TABLE := fun j hj => his j (mem_cons_of_mem i hj)
    rw [length_cons] at hlen hroom
    have hlen' : (i :: ps).length + is.length = 3 := by
      rw [length_cons]
      omega
    rw [reverse_cons, append_assoc, singleton_append, PageDir.descend]
    cases hc : tbl (i :: ps) with
    | some c =>
      rw [h.enter_some (by omega) ha hi hc]
      exact ih h (by omega) hlen' hc his'
    | none =>
      have hfree : s.taken < F.size := by omega
      have hroom' : s.taken + 1 + is.length ≤ F.size := by omega
      rw [h.enter_new hfree (by omega) ha hi hc]
      obtain ⟨b, s', tbl', hd, ht, hb, hg⟩ :=
        ih (h.link hfree (by omega) ha hi hc) hroom' hlen' (update_self ..) his'
      refine ⟨b, s', tbl', hd, ht, hb, (grown_update hc fun hthree => ?_).trans hg⟩
      have his0 : is = [] := length_eq_zero_iff.mp (by omega)
      rw [his0, reverse_nil, nil_append]

/-! ## `get_pte` -/

theorem walk_lt (va : Nat) : ∀ i ∈ [vaPart0 va, vaPart1 va, vaPart2 va], i < N_PTE_PER_TABLE := by
  simp only [mem_cons, not_mem_nil, or_false, forall_eq_or_imp, forall_eq]
  exact ⟨vaPart0_lt va, vaPart1_lt va, vaPart2_lt va⟩

section

variable (h : PageTables F s tbl val)

include h

theorem rootTable_some (ha : tbl [] = some a) (alloc : Bool) :
    PageDir.rootTable F alloc s = (some a, s) := by
  have hpt : s.pt = a := by rw [h.root, ha, Option.getD_some]
  rw [PageDir.rootTable, hpt, if_neg (h.ne_zero ha)]

theorem getPte_some (ha : tbl (tablePath va) = some a)
    (alloc : Bool) : PageDir.getPte F va alloc s = (some (pteAt a (vaPart3 va)), s) := by
  have hroot : tbl [] ≠ none := fun hnone => by
    have := h.none_append hnone (tablePath va)
    rw [append_nil, ha] at this
    cases this
  obtain ⟨r, hr⟩ := Option.ne_none_iff_exists'.mp hroot
  rw [PageDir.getPte, h.rootTable_some hr]
  dsimp only
  rw [h.descend_some rfl hr (walk_lt va) (b := a) ha alloc]

theorem getPte_none (hnone : tbl (tablePath va) = none) :
    PageDir.getPte F va false s = (none, s) := by
  rw [PageDir.getPte]
  cases hr : tbl [] with
  | none =>
    have hpt : s.pt = 0 := by rw [h.root, hr, Option.getD_none]
    rw [PageDir.rootTable, if_pos hpt, if_neg Bool.false_ne_true]
  | some r =>
    rw [h.rootTable_some hr]
    dsimp only
    rw [h.descend_none rfl hr (walk_lt va) hnone]

theorem getPte_alloc (hroom : s.taken + 4 ≤ F.size) (va : Nat) :
    ∃ b s' tbl', PageDir.getPte F va true s = (some (pteAt b (vaPart3 va)), s') ∧
      PageTables F s' tbl' val ∧ tbl' (tablePath va) = some b ∧ Grown tbl tbl' (tablePath va) := by
  rw [PageDir.getPte]
  cases hr : tbl [] with
  | some r =>
    have hroom' : s.taken + [vaPart0 va, vaPart1 va, vaPart2 va].length ≤ F.size :=
      Nat.le_of_succ_le hroom
    rw [h.rootTable_some hr]
    obtain ⟨b, s', tbl', hd, ht, hb, hg⟩ := h.descend_alloc hroom' rfl hr (walk_lt va)
    dsimp only
    rw [hd]
    exact ⟨b, s', tbl', rfl, ht, hb, hg⟩
  | none =>
    have hpt : s.pt = 0 := by rw [h.root, hr, Option.getD_none]
    have hfree : s.taken < F.size := by omega
    have hroom' : s.taken + 1 + [vaPart0 va, vaPart1 va, vaPart2 va].length ≤ F.size := by
      omega
    rw [PageDir.rootTable, if_pos hpt, if_pos rfl, PageDir.newTable_eq F hfree]
    obtain ⟨b, s', tbl', hd, ht, hb, hg⟩ :=
      (h.newRoot hfree hr).descend_alloc hroom' rfl (update_self ..) (walk_lt va)
    dsimp only
    rw [hd]
    exact ⟨b, s', tbl', rfl, ht, hb, (grown_update hr fun hlen => by cases hlen).trans hg⟩

theorem store (ha : tbl (tablePath va) = some a) (v : Nat) :
    PageTables F (s.store (pteAt a (vaPart3 va)) v) tbl (update val (slotNo va) v) := by
  constructor
  case root => exact h.root
  case taken => exact h.taken
  case inj => exact h.inj
  case closed => exact h.closed
  case upper =>
    intro qs b j hlen hb hj
    have hne : pteAt b j ≠ pteAt a (vaPart3 va) := by
      intro he
      obtain ⟨rfl, -⟩ := pteAt_inj (h.aligned hb) (h.aligned ha) hj (vaPart3_lt va) he
      rw [h.inj hb ha] at hlen
      exact absurd hlen (by simp [tablePath])
    rw [PageDir.mem_store_of_ne _ hne]
    exact h.upper hlen hb hj
  case leaf =>
    intro va' b hb
    by_cases hs : slotNo va' = slotNo va
    · obtain ⟨hpath, hlast⟩ := slotNo_eq_iff.mp hs
      rw [hpath, ha] at hb
      cases hb
      rw [hlast, hs, PageDir.mem_store_self, update_self]
    have hne : pteAt b (vaPart3 va') ≠ pteAt a (vaPart3 va) := by
      intro he
      obtain ⟨rfl, hlast⟩ :=
        pteAt_inj (h.aligned hb) (h.aligned ha) (vaPart3_lt va') (vaPart3_lt va) he
      exact hs (slotNo_eq_iff.mpr ⟨h.inj hb ha, hlast⟩)
    rw [PageDir.mem_store_of_ne _ hne, update_of_ne hs]
    exact h.leaf hb
  case blank =>
    intro va' hnone
    have hs : slotNo va' ≠ slotNo va := by
      intro hs
      rw [(slotNo_eq_iff.mp hs).1, ha] at hnone
      cases hnone
    rw [update_of_ne hs]
    exact h.blank hnone

end

end PageTables

/-! ## Runs -/

/-- A page table and its history: the pointers that have been returned, each with the address of
the call, the addresses of the calls with `alloc = true`, and what has been stored last for each
page. -/
structure PtSystem where
  dir : PageDir
  returned : List (Nat × Nat)
  allocs : List Nat
  stored : Nat → Nat

inductive PtCall where
  | getPte (va : Nat) (alloc : Bool)
  /-- A store of `v` through pointer `k` of those that have been returned. -/
  | store (k v : Nat)

namespace PtSystem

variable (F : FreshPages)

def step (s : PtSystem) : PtCall → Except Runs.Stop PtSystem
  | .getPte va alloc =>
    .ok { s with
      dir := (s.dir.getPte F va alloc).2
      returned :=
        match (s.dir.getPte F va alloc).1 with
        | some p => (va, p) :: s.returned
        | none => s.returned
      allocs := if alloc then va :: s.allocs else s.allocs }
  | .store k v =>
    match s.returned[k]? with
    | some (va, p) =>
      .ok { s with
        dir := s.dir.store p v
        stored := update s.stored (slotNo va) v }
    | none => .error .disabled

/-- `kalloc_page` returns a page whenever the call needs one. -/
def Ok (s : PtSystem) : PtCall → Prop
  | .getPte _ alloc => alloc = true → s.dir.taken + 4 ≤ F.size
  | .store _ _ => True

instance (s : PtSystem) : ∀ c, Decidable (Ok F s c)
  | .getPte _ alloc => inferInstanceAs (Decidable (alloc = true → s.dir.taken + 4 ≤ F.size))
  | .store _ _ => instDecidableTrue

/-- After `init_pgdir`. -/
def Init (s : PtSystem) : Prop :=
  s.dir.pt = 0 ∧ s.returned = [] ∧ s.allocs = [] ∧ s.stored = fun _ => 0

structure Inv (s : PtSystem) (tbl : List Nat → Option Nat) : Prop where
  tables : PageTables F s.dir tbl s.stored
  returned : ∀ x ∈ s.returned, ∃ a, tbl (tablePath x.1) = some a ∧ x.2 = pteAt a (vaPart3 x.1)
  allocs : ∀ va, tbl (tablePath va) = none ↔ ∀ va' ∈ s.allocs, regionNo va' ≠ regionNo va

variable {F} {s s' : PtSystem} {tbl : List Nat → Option Nat}

theorem Inv.init (h : Init s) : Inv F s fun _ => none := by
  obtain ⟨hpt, hret, hall, hst⟩ := h
  refine ⟨⟨hpt, ?_, ?_, ?_, ?_, ?_, ?_⟩, ?_, ?_⟩
  · intro _ _ h
    cases h
  · intro _ _ _ h
    cases h
  · intro _ _ _
    rfl
  · intro _ _ _ _ h
    cases h
  · intro _ _ h
    cases h
  · intro _ _
    rw [hst]
  · simp [hret]
  · simp [hall]

theorem Inv.grow (h : Inv F s tbl) {va b : Nat} {d : PageDir} {tbl' : List Nat → Option Nat}
    (ht : PageTables F d tbl' s.stored) (hb : tbl' (tablePath va) = some b)
    (hg : PageTables.Grown tbl tbl' (tablePath va)) :
    Inv F { s with
      dir := d
      returned := (va, pteAt b (vaPart3 va)) :: s.returned
      allocs := va :: s.allocs } tbl' := by
  refine ⟨ht, ?_, fun va' => ?_⟩
  · intro x hx
    rcases mem_cons.mp hx with rfl | hx
    · exact ⟨b, hb, rfl⟩
    · obtain ⟨a, ha, hp⟩ := h.returned x hx
      exact ⟨a, hg.old ha, hp⟩
  rw [forall_mem_cons, ← h.allocs va']
  constructor
  · intro hnone
    constructor
    · intro hr
      rw [← tablePath_eq_iff.mpr hr, hb] at hnone
      cases hnone
    · cases ha : tbl (tablePath va') with
      | none => rfl
      | some a =>
        rw [hg.old ha] at hnone
        cases hnone
  · rintro ⟨hr, hnone⟩
    cases ha : tbl' (tablePath va') with
    | none => rfl
    | some a =>
      rcases hg.new rfl ha with hold | hpath
      · rw [hnone] at hold
        cases hold
      · exact absurd (tablePath_eq_iff.mp hpath).symm hr

theorem Inv.step {c : PtCall} (h : Inv F s tbl) (hok : Ok F s c) (hs : step F s c = .ok s') :
    ∃ tbl', Inv F s' tbl' := by
  cases c with
  | getPte va alloc =>
    cases hs
    cases alloc with
    | true =>
      obtain ⟨b, d, tbl', hd, ht, hb, hg⟩ := h.tables.getPte_alloc (hok rfl) va
      rw [hd]
      exact ⟨tbl', h.grow ht hb hg⟩
    | false =>
      cases ha : tbl (tablePath va) with
      | none =>
        rw [h.tables.getPte_none ha]
        exact ⟨tbl, h⟩
      | some a =>
        rw [h.tables.getPte_some ha false]
        refine ⟨tbl, h.tables, fun x hx => ?_, h.allocs⟩
        rcases mem_cons.mp hx with rfl | hx
        · exact ⟨a, ha, rfl⟩
        · exact h.returned x hx
  | store k v =>
    rw [PtSystem.step] at hs
    cases hk : s.returned[k]? with
    | none =>
      rw [hk] at hs
      cases hs
    | some x =>
      rw [hk] at hs
      cases hs
      obtain ⟨a, ha, hp⟩ := h.returned x (mem_of_getElem? hk)
      rw [hp]
      exact ⟨tbl, h.tables.store ha v, h.returned, h.allocs⟩

theorem inv_of_reach (h : Runs.Reach (PtSystem.step F) (Ok F) Init s) : ∃ tbl, Inv F s tbl :=
  h.invariant (I := fun s => ∃ tbl, Inv F s tbl) (fun _ hs => ⟨_, .init hs⟩)
    fun _ _ _ ⟨_, hi⟩ hok hs => hi.step hok hs

theorem Inv.returned_eq_iff (h : Inv F s tbl) {x y : Nat × Nat} (hx : x ∈ s.returned)
    (hy : y ∈ s.returned) : x.2 = y.2 ↔ slotNo x.1 = slotNo y.1 := by
  obtain ⟨a, ha, hxa⟩ := h.returned x hx
  obtain ⟨b, hb, hyb⟩ := h.returned y hy
  rw [hxa, hyb, slotNo_eq_iff]
  constructor
  · intro he
    obtain ⟨rfl, hlast⟩ := pteAt_inj (h.tables.aligned ha) (h.tables.aligned hb) (vaPart3_lt _)
      (vaPart3_lt _) he
    exact ⟨h.tables.inj ha hb, hlast⟩
  · rintro ⟨hpath, hlast⟩
    rw [hpath, hb] at ha
    cases ha
    rw [hlast]

end PtSystem

/-- For every run: two pointers are the same exactly if the addresses agree in bits 12 to 47; a
later call for the same page returns the same pointer and changes nothing; a call with `alloc`
returns a pointer, and what it points to is `0` if the region is new; a call without `alloc`
changes nothing and returns `NULL` exactly if no call with `alloc` was in the same region; what is
read through a pointer is what was stored last for its page, and a store for another page does not
change it. -/
theorem page_table_refines_map {F : FreshPages} {s : PtSystem}
    (h : Runs.Reach (PtSystem.step F) (PtSystem.Ok F) PtSystem.Init s) :
    (∀ x ∈ s.returned, ∀ y ∈ s.returned, x.2 = y.2 ↔ SameBits 12 48 x.1 y.1) ∧
    (∀ x ∈ s.returned, ∀ va alloc, SameBits 12 48 va x.1 →
      s.dir.getPte F va alloc = (some x.2, s.dir)) ∧
    (∀ va, s.dir.taken + 4 ≤ F.size → ∃ p, (s.dir.getPte F va true).1 = some p ∧
      ((∀ va' ∈ s.allocs, ¬ SameBits 21 48 va' va) → (s.dir.getPte F va true).2.mem p = 0)) ∧
    (∀ va, (s.dir.getPte F va false).2 = s.dir ∧
      ((s.dir.getPte F va false).1 = none ↔ ∀ va' ∈ s.allocs, ¬ SameBits 21 48 va' va)) ∧
    (∀ x ∈ s.returned, s.dir.mem x.2 = s.stored (slotNo x.1)) ∧
    (∀ x ∈ s.returned, ∀ y ∈ s.returned, ¬ SameBits 12 48 x.1 y.1 →
      ∀ v, (s.dir.store x.2 v).mem y.2 = s.dir.mem y.2) := by
  obtain ⟨tbl, hi⟩ := PtSystem.inv_of_reach h
  simp only [← slotNo_eq_iff_sameBits, ← regionNo_eq_iff_sameBits, ← ne_eq]
  refine ⟨?_, ?_, ?_, ?_, ?_, ?_⟩
  · intro x hx y hy
    exact hi.returned_eq_iff hx hy
  · intro x hx va alloc hva
    obtain ⟨a, ha, hp⟩ := hi.returned x hx
    obtain ⟨hpath, hlast⟩ := slotNo_eq_iff.mp hva
    rw [hi.tables.getPte_some (hpath ▸ ha) alloc, hp, hlast]
  · intro va hroom
    obtain ⟨b, d, tbl', hd, ht, hb, -⟩ := hi.tables.getPte_alloc hroom va
    rw [hd]
    refine ⟨_, rfl, fun hnew => ?_⟩
    rw [ht.leaf hb]
    exact hi.tables.blank ((hi.allocs va).mpr hnew)
  · intro va
    rw [← hi.allocs va]
    cases ha : tbl (tablePath va) with
    | none => simp [hi.tables.getPte_none ha]
    | some a => simp [hi.tables.getPte_some ha false]
  · intro x hx
    obtain ⟨a, ha, hp⟩ := hi.returned x hx
    rw [hp, hi.tables.leaf ha]
  · intro x hx y hy hne v
    refine PageDir.mem_store_of_ne _ (fun he => hne ?_) v
    exact ((hi.returned_eq_iff hx hy).mp he.symm)

/-- Eight pages from the start of physical memory. -/
def eightPages : FreshPages where
  size := 8
  page n := KSPACE_MASK + PAGE_SIZE * n
  inj := by
    intro m n _ _ h
    simp only [PAGE_SIZE] at h
    omega
  aligned := by
    intro n _
    simp only [KSPACE_MASK, PAGE_SIZE]
    omega
  kernel := by
    intro n hn
    simp only [KSPACE_MASK, PAGE_SIZE]
    omega

/-- A run that makes the tables for the page at `0x400000` in a memory of ones, stores an entry and
makes the tables for a page of another region. -/
theorem page_table_refines_map_two_regions :
    ∃ s : PtSystem, Runs.Reach (PtSystem.step eightPages) (PtSystem.Ok eightPages) PtSystem.Init s ∧
      s.returned.length = 2 ∧
      (∀ x ∈ s.returned, ∀ y ∈ s.returned, x.2 = y.2 ↔ SameBits 12 48 x.1 y.1) := by
  have hinit : PtSystem.Init ⟨⟨fun _ => 1, 0, 0⟩, [], [], fun _ => 0⟩ := ⟨rfl, rfl, rfl, rfl⟩
  have hrun : Runs.execTest (Runs.guarded (PtSystem.step eightPages)
      (fun s c => decide (PtSystem.Ok eightPages s c)) .disabled)
      ⟨⟨fun _ => 1, 0, 0⟩, [], [], fun _ => 0⟩
      [.getPte 0x400000 true, .store 0 7, .getPte 0x800000 true]
      (fun s => s.returned.length = 2) = true := by decide +kernel
  obtain ⟨s, hs, hlen⟩ := Runs.Reach.of_guardedTest hinit hrun
  exact ⟨s, hs, of_decide_eq_true hlen, (page_table_refines_map hs).1⟩

end OsKernel
