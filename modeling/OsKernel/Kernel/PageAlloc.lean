import OsKernel.Kernel.Mmu
import OsKernel.Lib.Threads

/-!
# Pages

`kinit`, `kalloc_page` and `kfree_page` of `kernel/mem.c`.  The two calls are programs whose
actions are the atomic operations on counters and the stretches with `mem_lock`.  The free list
is a list of addresses.

There are two sources of pages.  The free list is built from all pages above the first two;
`next_free_addr`, which serves a call that finds the list empty, starts at the first of these two.
The second one is `zeroed_page`, and all after it were on the list.
-/

namespace OsKernel

open Function List

def PHYSTOP : Nat := 0x80000000

/-- The address where the kernel is linked, `P2K(EXTMEM)`. -/
def KERNLINK : Nat := p2k 0x40000000

/-- The end of the kernel image, with room for two pages above it. -/
structure MemLayout where
  endAddr : Nat
  linked : KERNLINK ≤ endAddr
  room : (endAddr + (PAGE_SIZE - 1)) / PAGE_SIZE * PAGE_SIZE + 2 * PAGE_SIZE ≤ p2k PHYSTOP

namespace MemLayout

variable (L : MemLayout)

/-- `memory_start`, which is `UPALIGN(end)`. -/
def memoryStart : Nat := (L.endAddr + (PAGE_SIZE - 1)) / PAGE_SIZE * PAGE_SIZE

/-- The address of page `k`. -/
def page (k : Nat) : Nat := L.memoryStart + k * PAGE_SIZE

def totalPages : Nat := (p2k PHYSTOP - L.memoryStart) / PAGE_SIZE

def zeroedPage : Nat := L.memoryStart + PAGE_SIZE

/-- `get_page_index`. -/
def pageIndex (pg : Nat) : Nat := (pg - L.memoryStart) / PAGE_SIZE

theorem pageIndex_page (k : Nat) : L.pageIndex (L.page k) = k := by
  rw [pageIndex, page, Nat.add_sub_cancel_left]
  exact Nat.mul_div_cancel k (by decide)

theorem page_injective : Function.Injective L.page :=
  Function.LeftInverse.injective L.pageIndex_page

theorem page_pos (k : Nat) : 0 < L.page k := by
  have h := L.linked
  have hk : KERNLINK = 0xFFFF000040000000 := rfl
  simp only [page, memoryStart, PAGE_SIZE]
  omega

theorem page_lt {k : Nat} (hk : k < L.totalPages) : L.page k < p2k PHYSTOP := by
  have h := L.room
  simp only [totalPages, page, memoryStart, PAGE_SIZE] at hk h ⊢
  omega

theorem page_aligned (k : Nat) : L.page k % PAGE_SIZE = 0 := by
  simp [page, memoryStart, PAGE_SIZE]

theorem two_le_totalPages : 2 ≤ L.totalPages := by
  have h := L.room
  simp only [totalPages, memoryStart, PAGE_SIZE] at h ⊢
  omega

/-- The pages other than `zeroed_page`. -/
def IsPage (pg : Nat) : Prop := ∃ k, k < L.totalPages ∧ k ≠ 1 ∧ pg = L.page k

theorem IsPage.spec {L : MemLayout} {pg : Nat} (h : L.IsPage pg) :
    pg ≠ 0 ∧ pg ≠ L.zeroedPage ∧ pg % PAGE_SIZE = 0 ∧ pg < p2k PHYSTOP := by
  obtain ⟨k, hk, hone, rfl⟩ := h
  have hzero : L.zeroedPage = L.page 1 := by simp [zeroedPage, page]
  have hne : L.page k ≠ L.zeroedPage := by
    intro he
    exact hone (L.page_injective he)
  exact ⟨Nat.ne_of_gt (L.page_pos k), hne, L.page_aligned k, L.page_lt hk⟩

theorem isPage_memoryStart : L.IsPage L.memoryStart :=
  ⟨0, Nat.lt_of_lt_of_le (by decide) L.two_le_totalPages, by decide, by simp [page]⟩

end MemLayout

structure PageState where
  freePagesList : List Nat
  nextFreeAddr : Nat
  pageRef : Nat → Int
  kallocPageCnt : Int

/-- `kinit`: each page goes to the front of the list. -/
def kinit (L : MemLayout) : PageState where
  freePagesList := ((List.range' 2 (L.totalPages - 2)).map L.page).reverse
  nextFreeAddr := L.memoryStart
  pageRef := update (fun _ => 0) (L.pageIndex L.zeroedPage) 1
  kallocPageCnt := 0

/-! ## The calls -/

inductive PageAct where
  /-- `increment_rc(&kalloc_page_cnt)`. -/
  | incCnt
  /-- The stretch of `kalloc_page` with `mem_lock`. -/
  | take
  /-- `decrement_rc(&page_ref[i])`. -/
  | decRef (i : Nat)
  /-- The read of `page_ref[i].count`. -/
  | readRef (i : Nat)
  /-- `decrement_rc(&kalloc_page_cnt)`. -/
  | decCnt
  /-- The stretch of `kfree_page` with `mem_lock`. -/
  | insert (pg : Nat)
deriving DecidableEq

abbrev PageAct.Result : PageAct → Type
  | take => Nat
  | readRef _ => Int
  | _ => Unit

namespace PageState

/-- `n` is added to the count of page `i`. -/
def addRef (s : PageState) (i : Nat) (n : Int) : PageState :=
  { s with pageRef := update s.pageRef i (s.pageRef i + n) }

/-- The page that `kalloc_page` takes. -/
def takePage (s : PageState) : Nat × PageState :=
  match s.freePagesList with
  | pg :: rest => (pg, { s with freePagesList := rest })
  | [] => (s.nextFreeAddr, { s with nextFreeAddr := usize (s.nextFreeAddr + PAGE_SIZE) })

end PageState

variable (L : MemLayout)

def PageAct.exec : (a : PageAct) → PageState → Except Runs.Stop (a.Result × PageState)
  | .incCnt, s => .ok ((), { s with kallocPageCnt := s.kallocPageCnt + 1 })
  | .take, s =>
    let (pg, s) := s.takePage
    .ok (pg, if pg ≠ 0 then s.addRef (L.pageIndex pg) 1 else s)
  | .decRef i, s => .ok ((), s.addRef i (-1))
  | .readRef i, s => .ok (s.pageRef i, s)
  | .decCnt, s => .ok ((), { s with kallocPageCnt := s.kallocPageCnt - 1 })
  | .insert pg, s => .ok ((), { s with freePagesList := pg :: s.freePagesList })

abbrev PageM := Code PageAct PageAct.Result

def kallocPage : PageM Nat :=
  .act .incCnt fun _ => .act .take fun pg => .ret pg

def kfreePage (pg : Nat) : PageM Unit :=
  if pg = 0 then .ret ()
  else
    .act (.decRef (L.pageIndex pg)) fun _ =>
    .act (.readRef (L.pageIndex pg)) fun count =>
    if count = 0 then
      .act .decCnt fun _ =>
      .act (.insert pg) fun _ =>
      .ret ()
    else .ret ()

/-! ## Sequences of calls -/

/-- The pages, and those that `kalloc_page` has returned and that have not been freed. -/
structure PageSys where
  pages : PageState
  live : List Nat

inductive PageCall where
  | alloc
  | free (pg : Nat)
deriving DecidableEq

namespace PageSys

/-- A call.  Callers free what they have been given. -/
def step (s : PageSys) : PageCall → Except Runs.Stop PageSys
  | .alloc =>
    match kallocPage.run (PageAct.exec L) s.pages with
    | .ok (pg, pages) => .ok ⟨pages, pg :: s.live⟩
    | .error e => .error e
  | .free pg =>
    if pg = 0 ∨ pg ∈ s.live then
      match (kfreePage L pg).run (PageAct.exec L) s.pages with
      | .ok (_, pages) => .ok ⟨pages, s.live.erase pg⟩
      | .error e => .error e
    else .error .disabled

/-- After `kinit`. -/
def Init (s : PageSys) : Prop := s = ⟨kinit L, []⟩

/-- A call of `kalloc_page` finds a page on the list, or is the first one that does not. -/
def Ok (s : PageSys) : PageCall → Prop
  | .alloc => s.pages.freePagesList ≠ [] ∨ s.pages.nextFreeAddr = L.memoryStart
  | .free _ => True

instance (s : PageSys) : ∀ c, Decidable (Ok L s c)
  | .alloc => inferInstanceAs
      (Decidable (s.pages.freePagesList ≠ [] ∨ s.pages.nextFreeAddr = L.memoryStart))
  | .free _ => instDecidableTrue

variable {L}

variable {s : PageSys} {pg : Nat}

theorem step_alloc_cons {rest : List Nat} (hpg : pg ≠ 0) (h : s.pages.freePagesList = pg :: rest) :
    step L s .alloc = .ok ⟨{ s.pages with
      freePagesList := rest
      pageRef := update s.pages.pageRef (L.pageIndex pg)
        (s.pages.pageRef (L.pageIndex pg) + 1)
      kallocPageCnt := s.pages.kallocPageCnt + 1 }, pg :: s.live⟩ := by
  simp [step, kallocPage, Code.run, PageAct.exec, PageState.takePage, PageState.addRef, h, hpg]

theorem step_alloc_nil (hpg : s.pages.nextFreeAddr ≠ 0) (h : s.pages.freePagesList = []) :
    step L s .alloc = .ok ⟨{
      freePagesList := []
      nextFreeAddr := usize (s.pages.nextFreeAddr + PAGE_SIZE)
      pageRef := update s.pages.pageRef (L.pageIndex s.pages.nextFreeAddr)
        (s.pages.pageRef (L.pageIndex s.pages.nextFreeAddr) + 1)
      kallocPageCnt := s.pages.kallocPageCnt + 1 }, s.pages.nextFreeAddr :: s.live⟩ := by
  simp [step, kallocPage, Code.run, PageAct.exec, PageState.takePage, PageState.addRef, h, hpg]

theorem step_free (hpg : pg ≠ 0) (hlive : pg ∈ s.live)
    (href : s.pages.pageRef (L.pageIndex pg) = 1) :
    step L s (.free pg) = .ok ⟨{ s.pages with
      freePagesList := pg :: s.pages.freePagesList
      pageRef := update s.pages.pageRef (L.pageIndex pg) 0
      kallocPageCnt := s.pages.kallocPageCnt - 1 }, s.live.erase pg⟩ := by
  simp [step, kfreePage, Code.run, PageAct.exec, PageState.addRef, hpg, hlive, href]

theorem step_free_null (s : PageSys) : step L s (.free 0) = .ok ⟨s.pages, s.live.erase 0⟩ := by
  simp [step, kfreePage, Code.run]

/-- The two sources have no page in common with the pages in use. -/
structure Inv (L : MemLayout) (s : PageSys) : Prop where
  nodup : (s.pages.freePagesList ++ s.live).Nodup
  isPage : ∀ pg ∈ s.pages.freePagesList ++ s.live, L.IsPage pg
  first : s.pages.nextFreeAddr = L.memoryStart →
    L.memoryStart ∉ s.pages.freePagesList ++ s.live
  refLive : ∀ pg ∈ s.live, s.pages.pageRef (L.pageIndex pg) = 1
  refFree : ∀ pg, L.IsPage pg → pg ∉ s.live → s.pages.pageRef (L.pageIndex pg) = 0

theorem Inv.init (h : Init L s) : Inv L s := by
  cases h
  have hmem : ∀ pg ∈ ((List.range' 2 (L.totalPages - 2)).map L.page).reverse ++ [],
      ∃ k, 2 ≤ k ∧ k < L.totalPages ∧ pg = L.page k := by
    intro pg hpg
    simp only [append_nil, mem_reverse, mem_map, mem_range'_1] at hpg
    obtain ⟨k, hk, rfl⟩ := hpg
    exact ⟨k, hk.1, by have := L.two_le_totalPages; omega, rfl⟩
  constructor
  case nodup =>
    simp only [kinit, append_nil, nodup_reverse]
    exact List.Nodup.map L.page_injective nodup_range'
  case isPage =>
    intro pg hpg
    obtain ⟨k, hlo, hhi, rfl⟩ := hmem pg hpg
    exact ⟨k, hhi, by omega, rfl⟩
  case first =>
    intro _ hstart
    obtain ⟨k, hlo, -, he⟩ := hmem _ hstart
    have hzero : L.page 0 = L.page k := by rw [← he]; simp [MemLayout.page]
    have := L.page_injective hzero
    omega
  case refLive =>
    intro pg hpg
    cases hpg
  case refFree =>
    intro pg hpg _
    obtain ⟨k, -, hone, rfl⟩ := hpg
    have hzero : L.zeroedPage = L.page 1 := by simp [MemLayout.zeroedPage, MemLayout.page]
    simp only [kinit, hzero, L.pageIndex_page]
    rw [update_of_ne hone]

theorem pageIndex_ne {pg' : Nat} (h : L.IsPage pg) (h' : L.IsPage pg') (hne : pg' ≠ pg) :
    L.pageIndex pg' ≠ L.pageIndex pg := by
  obtain ⟨k, -, -, rfl⟩ := h
  obtain ⟨k', -, -, rfl⟩ := h'
  rw [L.pageIndex_page, L.pageIndex_page]
  rintro rfl
  exact hne rfl

theorem Inv.take (h : Inv L s) {next : Nat} {rest : List Nat} {cnt : Int}
    (hpg : L.IsPage pg) (hnodup : (rest ++ pg :: s.live).Nodup)
    (hrest : ∀ p ∈ rest, p ∈ s.pages.freePagesList)
    (hfirst : next = L.memoryStart → L.memoryStart ∉ rest ++ pg :: s.live) :
    Inv L ⟨⟨rest, next, update s.pages.pageRef (L.pageIndex pg)
      (s.pages.pageRef (L.pageIndex pg) + 1), cnt⟩, pg :: s.live⟩ := by
  have hnew : pg ∉ s.live := by
    intro hmem
    have := (nodup_append.mp hnodup).2.1
    exact (nodup_cons.mp this).1 hmem
  constructor
  case nodup => exact hnodup
  case isPage =>
    intro p hp
    rcases mem_append.mp hp with hp | hp
    · exact h.isPage p (mem_append_left _ (hrest p hp))
    · rcases mem_cons.mp hp with rfl | hp
      · exact hpg
      · exact h.isPage p (mem_append_right _ hp)
  case first => exact hfirst
  case refLive =>
    intro p hp
    rcases mem_cons.mp hp with rfl | hp
    · simp [h.refFree p hpg hnew]
    · have hne : p ≠ pg := fun he => hnew (he ▸ hp)
      simp only [update_of_ne (pageIndex_ne hpg (h.isPage p (mem_append_right _ hp)) hne)]
      exact h.refLive p hp
  case refFree =>
    intro p hp hnot
    obtain ⟨hne, hlive⟩ := not_or.mp fun hm => hnot (mem_cons.mpr hm)
    simp only [update_of_ne (pageIndex_ne hpg hp hne)]
    exact h.refFree p hp hlive

theorem Inv.give (h : Inv L s) {cnt : Int} (hlive : pg ∈ s.live) : Inv L ⟨{ s.pages with
      freePagesList := pg :: s.pages.freePagesList
      pageRef := update s.pages.pageRef (L.pageIndex pg) 0
      kallocPageCnt := cnt }, s.live.erase pg⟩ := by
  have hpg := h.isPage pg (mem_append_right _ hlive)
  have hperm : (s.pages.freePagesList ++ s.live).Perm
      (pg :: s.pages.freePagesList ++ s.live.erase pg) :=
    ((perm_cons_erase hlive).append_left _).trans perm_middle
  have hlivenodup := (nodup_append.mp h.nodup).2.1
  constructor
  case nodup => exact hperm.nodup_iff.mp h.nodup
  case isPage =>
    intro p hp
    exact h.isPage p (hperm.mem_iff.mpr hp)
  case first =>
    intro hnext hmem
    exact h.first hnext (hperm.mem_iff.mpr hmem)
  case refLive =>
    intro p hp
    obtain ⟨hne, hp⟩ := hlivenodup.mem_erase_iff.mp hp
    simp only [update_of_ne (pageIndex_ne hpg (h.isPage p (mem_append_right _ hp)) hne)]
    exact h.refLive p hp
  case refFree =>
    intro p hp hnot
    by_cases hne : p = pg
    · simp [hne]
    · simp only [update_of_ne (pageIndex_ne hpg hp hne)]
      exact h.refFree p hp fun hm => hnot (hlivenodup.mem_erase_iff.mpr ⟨hne, hm⟩)

theorem Inv.step {s' : PageSys} {c : PageCall} (h : Inv L s) (hok : Ok L s c)
    (hs : step L s c = .ok s') : Inv L s' := by
  cases c with
  | alloc =>
    cases hfree : s.pages.freePagesList with
    | cons pg rest =>
      have hmem : pg ∈ s.pages.freePagesList := hfree ▸ mem_cons_self
      have hpg := h.isPage pg (mem_append_left _ hmem)
      rw [step_alloc_cons hpg.spec.1 hfree] at hs
      cases hs
      have hperm : (pg :: rest ++ s.live).Perm (rest ++ pg :: s.live) := perm_middle.symm
      have hnodup := h.nodup
      rw [hfree] at hnodup
      apply h.take hpg (hperm.nodup_iff.mp hnodup)
      · intro p hp
        rw [hfree]
        exact mem_cons_of_mem pg hp
      · intro hnext hm
        apply h.first hnext
        rw [hfree]
        exact hperm.mem_iff.mpr hm
    | nil =>
      have hnext : s.pages.nextFreeAddr = L.memoryStart := hok.resolve_left fun hn => hn hfree
      have hstart := L.isPage_memoryStart
      rw [step_alloc_nil (hnext ▸ hstart.spec.1) hfree] at hs
      cases hs
      have hnot := h.first hnext
      rw [hfree, nil_append] at hnot
      have hnodup := h.nodup
      rw [hfree, nil_append] at hnodup
      rw [hnext]
      apply h.take hstart (nodup_cons.mpr ⟨hnot, hnodup⟩)
      · intro p hp
        cases hp
      intro hsame
      exfalso
      have htop : p2k PHYSTOP = 0xFFFF000080000000 := rfl
      have hlt := hstart.spec.2.2.2
      simp only [usize, PAGE_SIZE] at hsame
      omega
  | free pg =>
    cases pg with
    | zero =>
      rw [step_free_null] at hs
      cases hs
      have hnot : 0 ∉ s.live := fun hm => (h.isPage 0 (mem_append_right _ hm)).spec.1 rfl
      rw [erase_of_not_mem hnot]
      exact h
    | succ n =>
      by_cases hlive : n + 1 ∈ s.live
      · rw [step_free (Nat.succ_ne_zero n) hlive (h.refLive _ hlive)] at hs
        cases hs
        exact h.give hlive
      · simp [PageSys.step, hlive] at hs

end PageSys

/-- While every call of `kalloc_page` finds a page on the list, or is the first one that does
not, the pages in use are different pages below the top of memory, and none is `zeroed_page`. -/
theorem kalloc_page_fresh (L : MemLayout) {s : PageSys}
    (h : Runs.Reach (PageSys.step L) (PageSys.Ok L) (PageSys.Init L) s) :
    s.live.Nodup ∧ ∀ pg ∈ s.live,
      pg ≠ L.zeroedPage ∧ pg % PAGE_SIZE = 0 ∧ pg < p2k PHYSTOP := by
  have hinv : PageSys.Inv L s :=
    h.invariant (fun _ => PageSys.Inv.init) fun _ _ _ hs hok hst => hs.step hok hst
  constructor
  · exact (nodup_append.mp hinv.nodup).2.1
  · intro pg hpg
    exact (hinv.isPage pg (mem_append_right _ hpg)).spec.2

namespace PageSys

def smallLayout : MemLayout := ⟨p2k 0x7FFFC000, by decide, by decide⟩

/-- All three pages are in use, and one of them for the second time. -/
theorem kalloc_page_fresh_small :
    ∃ s, Runs.Reach (step smallLayout) (Ok smallLayout) (Init smallLayout) s ∧
      s.live.length = 3 ∧ s.live.Nodup := by
  have hinit : Init smallLayout ⟨kinit smallLayout, []⟩ := rfl
  obtain ⟨s, hs, hlen⟩ := Runs.Reach.of_guardedTest hinit
    (by decide +kernel : Runs.execTest (Runs.guarded (step smallLayout)
      (fun s c => decide (Ok smallLayout s c)) .disabled) ⟨kinit smallLayout, []⟩
      [.alloc, .free (p2k 0x7FFFF000), .alloc, .alloc, .alloc] (fun s => s.live.length = 3) = true)
  exact ⟨s, hs, of_decide_eq_true hlen, (kalloc_page_fresh smallLayout hs).1⟩

def layout : MemLayout := ⟨p2k 0x40100000, by decide, by decide⟩

variable {L}

theorem reach_exhausted {s : PageSys} {l : List Nat}
    (hs : Runs.Reach (step L) (Ok L) (Init L) s) (hl : s.pages.freePagesList = l) :
    ∃ s', Runs.Reach (step L) (Ok L) (Init L) s' ∧ s'.pages.freePagesList = [] ∧
      s'.pages.nextFreeAddr = s.pages.nextFreeAddr ∧ ∀ pg ∈ l ++ s.live, pg ∈ s'.live := by
  induction l generalizing s with
  | nil => exact ⟨s, hs, hl, rfl, fun _ h => h⟩
  | cons pg rest ih =>
    have hinv : Inv L s := hs.invariant (fun _ => Inv.init) fun _ _ _ hs hok hst => hs.step hok hst
    have hmem : pg ∈ s.pages.freePagesList := hl ▸ mem_cons_self
    have hpg := hinv.isPage pg (mem_append_left _ hmem)
    have hok : Ok L s .alloc := .inl (hl ▸ cons_ne_nil pg rest)
    obtain ⟨s', hs', hnil, hnext, hlive⟩ := ih (.step hs hok (step_alloc_cons hpg.spec.1 hl)) rfl
    refine ⟨s', hs', hnil, hnext, fun p hp => hlive p ?_⟩
    simp only [cons_append, mem_cons, mem_append] at hp ⊢
    tauto

theorem reach_fallback {s : PageSys} {k : Nat} (hs : Runs.Reach (step L) Runs.always (Init L) s)
    (hnil : s.pages.freePagesList = []) (hn : s.pages.nextFreeAddr = L.page k)
    (hk : k < L.totalPages) :
    ∃ s', Runs.Reach (step L) Runs.always (Init L) s' ∧ s'.pages.freePagesList = [] ∧
      s'.pages.nextFreeAddr = L.page (k + 1) ∧ s'.live = L.page k :: s.live := by
  have hstep := step_alloc_nil (L := L) (hn ▸ Nat.ne_of_gt (L.page_pos k)) hnil
  refine ⟨_, .step hs trivial hstep, rfl, ?_, by rw [hn]⟩
  have hlt := L.page_lt hk
  have htop : p2k PHYSTOP = 0xFFFF000080000000 := rfl
  simp only [hn, usize, MemLayout.page, PAGE_SIZE] at hlt ⊢
  omega

/-- After the list the calls return the first page, `zeroed_page`, and a page that was on the
list. -/
theorem reach_exhausted_three (hthree : 2 < L.totalPages) :
    ∃ s, Runs.Reach (step L) Runs.always (Init L) s ∧ L.zeroedPage ∈ s.live ∧
      ¬ s.live.Nodup := by
  obtain ⟨s, hs, hnil, hnext, hlive⟩ := reach_exhausted (.init (rfl : Init L ⟨kinit L, []⟩)) rfl
  have hreach := hs.mono fun _ _ _ => trivial
  have hn : s.pages.nextFreeAddr = L.page 0 := by rw [hnext]; simp [kinit, MemLayout.page]
  obtain ⟨s1, hs1, hnil1, hn1, hlive1⟩ := reach_fallback hreach hnil hn (by omega)
  obtain ⟨s2, hs2, hnil2, hn2, hlive2⟩ := reach_fallback hs1 hnil1 hn1 (by omega)
  obtain ⟨s3, hs3, -, -, hlive3⟩ := reach_fallback hs2 hnil2 hn2 (by omega)
  have htwo : L.page 2 ∈ s.live := by
    apply hlive
    simp only [kinit, append_nil, mem_reverse, mem_map]
    exact ⟨2, by rw [mem_range'_1]; omega, rfl⟩
  refine ⟨s3, hs3, ?_, ?_⟩
  · simp [hlive3, hlive2, MemLayout.zeroedPage, MemLayout.page]
  · simp [hlive3, hlive2, hlive1, htwo]

end PageSys

/-- The list of a kernel of one megabyte is used up, and three more pages are wanted. -/
theorem kalloc_page_not_fresh :
    ∃ s, Runs.Reach (PageSys.step PageSys.layout) Runs.always (PageSys.Init PageSys.layout) s ∧
      PageSys.layout.zeroedPage ∈ s.live ∧ ¬ s.live.Nodup :=
  PageSys.reach_exhausted_three (by decide)

end OsKernel
