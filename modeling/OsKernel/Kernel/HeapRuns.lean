import OsKernel.Kernel.HeapLayout

/-!
# Runs of the kernel heap

In every state of every run the list of each processor has the layout of its pages, no page belongs
to two processors, and the used blocks are the live allocations (`Inv`).  `kfree` changes the list
that has the block, on whichever processor it runs, and keeps its layout (`kfreeBlock_layout`).
-/

namespace OsKernel

open Function List

namespace KernelHeap

/-! ## Lists of all processors -/

theorem flatMap_update_perm {ι α : Type} [DecidableEq ι] {f : ι → List α} {i : ι} {l' : List α}
    {x : α} (h : l'.Perm (x :: f i)) {is : List ι} (hnodup : is.Nodup) (hi : i ∈ is) :
    (is.flatMap (update f i l')).Perm (x :: is.flatMap f) := by
  induction is with
  | nil => cases hi
  | cons j js ih =>
    obtain ⟨hj, hjs⟩ := nodup_cons.mp hnodup
    rw [flatMap_cons, flatMap_cons]
    obtain rfl | hij := eq_or_ne i j
    · have hsame : js.flatMap (update f i l') = js.flatMap f := by
        refine flatMap_congr fun k hk => update_of_ne ?_ _ _
        rintro rfl
        exact hj hk
      rw [hsame, update_self]
      exact h.append_right _
    · have hmem := (mem_cons.mp hi).resolve_left hij
      rw [update_of_ne (Ne.symm hij)]
      exact ((ih hjs hmem).append_left (f j)).trans perm_middle

/-! ## `kfree` -/

variable {l : List Block} {cur stop : Nat} {pgs : List Nat}

variable {b : Block} {l' : List Block} {x : Nat × Nat}

theorem addr_ne_of_apart {c : Block} (h : Apart b c) : c.addr ≠ b.addr := by
  simp only [Apart, Block.limit, BLOCK_BYTES] at h
  omega

theorem kfreeBlock_layout (h : Layout l cur stop pgs) (hd : Distinct stop pgs) (a : Nat) :
    Layout (kfreeBlock a l) cur stop pgs ∧
      usedOf (kfreeBlock a l) = (usedOf l).filter fun x => x.1 ≠ a + BLOCK_BYTES := by
  induction l generalizing cur stop pgs with
  | nil => exact ⟨h, rfl⟩
  | cons b l ih =>
    have hapart := (pairwise_cons.mp (h.pairwise hd)).1
    obtain ⟨stop', pgs', hent, hb, hl⟩ := h
    have hd' := hent.distinct hd
    rw [kfreeBlock]
    split
    next haddr =>
      have hm := mergeAdjacent_layout hb hl hd'
      have hw := hm.within
      refine ⟨⟨stop', pgs', hm.addr ▸ hent,
        ⟨hw.addr, hw.limit, hw.page, hw.start, hw.word, fun hf => by cases hf⟩, hm.layout⟩, ?_⟩
      -- the other blocks are somewhere else
      have hothers : (usedOf l).filter (fun x => x.1 ≠ a + BLOCK_BYTES) = usedOf l := by
        refine filter_eq_self.mpr fun x hx => decide_eq_true ?_
        obtain ⟨c, hc, -, rfl⟩ := mem_usedOf.mp hx
        have hne := addr_ne_of_apart (hapart c hc)
        omega
      rw [usedOf_free rfl, hm.same]
      cases hf : b.free with
      | true => rw [usedOf_free hf, hothers]
      | false =>
        rw [usedOf_used hf, filter_cons_of_neg (by simp [haddr]), hothers]
    next haddr =>
      obtain ⟨hlayout, hused⟩ := ih hl hd'
      refine ⟨⟨stop', pgs', hent, hb, hlayout⟩, ?_⟩
      cases hf : b.free with
      | true => rw [usedOf_free hf, usedOf_free hf, hused]
      | false =>
        rw [usedOf_used hf, usedOf_used hf, hused, filter_cons_of_pos (by simp [haddr])]

/-! ## The invariant -/

structure Inv (s : KernelHeap) (pages : Fin KALLOC_CPUS → List Nat) : Prop where
  layout : ∀ cpu, Layout (s.freelist cpu) 0 0 (pages cpu)
  nodup : ((List.finRange KALLOC_CPUS).flatMap pages).Nodup
  live : ((List.finRange KALLOC_CPUS).flatMap fun cpu => usedOf (s.freelist cpu)).Perm s.live

variable {s s' : KernelHeap} {pages : Fin KALLOC_CPUS → List Nat} {cpu : Fin KALLOC_CPUS}
  {size pg : Nat}

theorem Inv.distinct (h : Inv s pages) (cpu : Fin KALLOC_CPUS) : Distinct 0 (pages cpu) :=
  ⟨(nodup_flatMap.mp h.nodup).1 cpu (mem_finRange cpu), fun _ _ => Nat.succ_ne_zero _⟩

theorem live_update
    (hlive : ((List.finRange KALLOC_CPUS).flatMap fun cpu => usedOf (s.freelist cpu)).Perm s.live)
    (hgain : (usedOf l').Perm (x :: usedOf (s.freelist cpu))) :
    ((List.finRange KALLOC_CPUS).flatMap fun c =>
      usedOf (update s.freelist cpu l' c)).Perm (x :: s.live) := by
  have hupdate : (fun c => usedOf (update s.freelist cpu l' c)) =
      update (fun c => usedOf (s.freelist c)) cpu (usedOf l') :=
    funext fun c => Function.apply_update (fun _ => usedOf) s.freelist cpu l' c
  rw [hupdate]
  have hperm := flatMap_update_perm (f := fun c => usedOf (s.freelist c)) hgain
    (nodup_finRange _) (mem_finRange cpu)
  exact hperm.trans (hlive.cons x)

theorem layout_update {f : Fin KALLOC_CPUS → List Block} {pgs' : List Nat}
    (h : ∀ c, Layout (f c) 0 0 (pages c)) (hl : Layout l' 0 0 pgs') (c : Fin KALLOC_CPUS) :
    Layout (update f cpu l' c) 0 0 (update pages cpu pgs' c) := by
  obtain rfl | hc := eq_or_ne c cpu
  · rw [update_self, update_self]
    exact hl
  · rw [update_of_ne hc, update_of_ne hc]
    exact h c

theorem Inv.found (h : Inv s pages) (hsize : size ≤ PAGE_SIZE - BLOCK_BYTES) {addr : Nat}
    (hloop : kallocLoop (kallocAlign size) size (s.freelist cpu) = (some addr, l')) :
    Inv ⟨update s.freelist cpu l', (addr + BLOCK_BYTES, size) :: s.live⟩ pages := by
  obtain ⟨hlayout, hgains⟩ := kallocLoop_layout (Nat.le_trans hsize (Nat.sub_le ..)) (h.layout cpu)
    (h.distinct cpu)
  rw [hloop] at hlayout hgains
  have hupdate : ∀ c, Layout (update s.freelist cpu l' c) 0 0
      (update pages cpu (pages cpu) c) := layout_update h.layout hlayout
  rw [update_eq_self] at hupdate
  exact ⟨hupdate, h.nodup, live_update h.live hgains⟩

theorem Inv.newPage (h : Inv s pages) (hsize : size ≤ PAGE_SIZE - BLOCK_BYTES)
    (hloop : kallocLoop (kallocAlign size) size (s.freelist cpu) = (none, l'))
    (hfresh : s.Fresh pg) :
    Inv ⟨update s.freelist cpu (Block.take ⟨pg, PAGE_SIZE - BLOCK_BYTES, 0, true⟩ size :: l'),
      (pg + BLOCK_BYTES, size) :: s.live⟩ (update pages cpu (pg :: pages cpu)) := by
  obtain ⟨haligned, hword, hnone⟩ := hfresh
  obtain ⟨hlayout, hgains⟩ := kallocLoop_layout (Nat.le_trans hsize (Nat.sub_le ..)) (h.layout cpu)
    (h.distinct cpu)
  rw [hloop] at hlayout hgains
  have hnew : Block.Within ⟨pg, PAGE_SIZE - BLOCK_BYTES, 0, true⟩ (pg + PAGE_SIZE) := by
    have hlimit : pg + BLOCK_BYTES + (PAGE_SIZE - BLOCK_BYTES) ≤ pg + PAGE_SIZE := by
      simp only [PAGE_SIZE, BLOCK_BYTES]
      omega
    refine ⟨?_, hlimit, ?_, Nat.le_refl _, hword, fun hf => by cases hf⟩
    · simp only [PAGE_SIZE] at *
      omega
    · rw [Nat.add_mod_right]
      exact haligned
  have halign : pg % kallocAlign size = 0 := by
    obtain halign | halign := kallocAlign_cases size
    · rw [halign]
      exact hnew.addr
    · rw [halign]
      simp only [PAGE_SIZE] at haligned
      omega
  obtain ⟨hw, hused⟩ := take_within hnew hsize halign
  have hpage : Layout (Block.take ⟨pg, PAGE_SIZE - BLOCK_BYTES, 0, true⟩ size :: l') 0 0
      (pg :: pages cpu) := by
    refine ⟨pg + PAGE_SIZE, pages cpu, .page rfl rfl, hw, ?_⟩
    have hlimit : Block.limit (Block.take ⟨pg, PAGE_SIZE - BLOCK_BYTES, 0, true⟩ size) =
        pg + PAGE_SIZE := by
      simp only [Block.limit, Block.take, PAGE_SIZE, BLOCK_BYTES]
    exact hlayout.restart _
  refine ⟨layout_update h.layout hpage, ?_, live_update h.live ?_⟩
  · have hperm := flatMap_update_perm (List.Perm.refl (pg :: pages cpu)) (nodup_finRange _)
      (mem_finRange cpu)
    refine hperm.nodup_iff.mpr (nodup_cons.mpr ⟨fun hmem => ?_, h.nodup⟩)
    obtain ⟨c, -, hpg⟩ := mem_flatMap.mp hmem
    obtain ⟨b, hb, haddr⟩ := (h.layout c).page_start hpg
    have hbase : pageBase pg = pg := by
      simp only [pageBase, PAGE_SIZE] at *
      omega
    refine hnone c b hb ?_
    rw [haddr, hbase]
  · rw [usedOf_take hused]
    exact List.Perm.cons _ (List.Perm.of_eq hgains)

theorem Inv.kfree (h : Inv s pages) {ptr : Nat} (hptr : ptr ∈ s.live.map Prod.fst) :
    Inv ⟨fun cpu => kfreeBlock (usizeSub ptr BLOCK_BYTES) (s.freelist cpu),
      s.live.filter fun a => a.1 ≠ ptr⟩ pages := by
  have haddr : usizeSub ptr BLOCK_BYTES + BLOCK_BYTES = ptr := by
    obtain ⟨x, hx, rfl⟩ := mem_map.mp hptr
    obtain ⟨c, -, hused⟩ := mem_flatMap.mp (h.live.mem_iff.mpr hx)
    obtain ⟨b, hb, -, rfl⟩ := mem_usedOf.mp hused
    obtain ⟨stop', hw, -⟩ := (h.layout c).mem hb
    have hlimit := hw.limit
    have hword := hw.word
    simp only [Block.limit, usizeSub, usize, BLOCK_BYTES] at *
    omega
  refine ⟨fun cpu => (kfreeBlock_layout (h.layout cpu) (h.distinct cpu) _).1, h.nodup, ?_⟩
  have hused : (fun cpu => usedOf (kfreeBlock (usizeSub ptr BLOCK_BYTES) (s.freelist cpu))) =
      fun cpu => (usedOf (s.freelist cpu)).filter fun a => a.1 ≠ ptr := funext fun cpu => by
    rw [(kfreeBlock_layout (h.layout cpu) (h.distinct cpu) _).2, haddr]
  rw [hused, ← filter_flatMap]
  exact h.live.filter _

theorem Inv.step {call : HeapCall} (h : Inv s pages) (hstep : s.step call = .ok s') :
    ∃ pages', Inv s' pages' := by
  cases call with
  | kalloc cpu size pg =>
    obtain ⟨hsize, hstep⟩ := Runs.guard_ok hstep
    rw [KernelHeap.kalloc] at hstep
    split at hstep
    next ptr l' hkalloc =>
      cases hstep
      split at hkalloc
      next addr l1 hloop =>
        cases hkalloc
        exact ⟨pages, h.found hsize hloop⟩
      next l1 hloop =>
        obtain ⟨hfresh, ⟨⟩⟩ := Runs.guard_ok hkalloc
        exact ⟨_, h.newPage hsize hloop hfresh⟩
    next => cases hstep
  | kfree ptr =>
    obtain ⟨hptr, ⟨⟩⟩ := Runs.guard_ok hstep
    exact ⟨pages, h.kfree hptr⟩

theorem Inv.init (h : Init s) : Inv s fun _ => [] := by
  rw [h]
  exact ⟨fun _ => ⟨rfl, rfl⟩, by decide, by decide⟩

/-! ## What the invariant says -/

theorem Inv.page_of (h : Inv s pages) (hb : b ∈ s.freelist cpu) :
    ∃ pg ∈ pages cpu, b.Within (pg + PAGE_SIZE) := by
  obtain ⟨stop', hw, ⟨rfl, -⟩ | ⟨pg, hpg, rfl⟩⟩ := (h.layout cpu).mem hb
  · have hlimit := hw.limit
    simp only [Block.limit, BLOCK_BYTES] at hlimit
    omega
  · exact ⟨pg, hpg, hw⟩

theorem Inv.pages_ne (h : Inv s pages) {cpu' : Fin KALLOC_CPUS} (hne : cpu ≠ cpu') {pg pg' : Nat}
    (hpg : pg ∈ pages cpu) (hpg' : pg' ∈ pages cpu') : pg ≠ pg' := by
  have hpair := (nodup_flatMap.mp h.nodup).2
  have : Std.Symm (Function.onFun List.Disjoint pages) := ⟨fun _ _ hd _ h2 h1 => hd h1 h2⟩
  have hdisjoint := hpair.forall (mem_finRange cpu) (mem_finRange cpu') hne
  rintro rfl
  exact hdisjoint hpg hpg'

theorem Inv.apart (h : Inv s pages) :
    ((List.finRange KALLOC_CPUS).flatMap s.freelist).Pairwise Apart := by
  refine pairwise_flatMap.mpr
    ⟨fun cpu _ => (h.layout cpu).pairwise (h.distinct cpu), ?_⟩
  refine (nodup_finRange _).imp fun {cpu cpu'} hne b hb c hc => ?_
  obtain ⟨pg, hpg, hwb⟩ := h.page_of hb
  obtain ⟨pg', hpg', hwc⟩ := h.page_of hc
  have hpages := h.pages_ne hne hpg hpg'
  exact apart_of_pages hwb hwc fun heq => hpages (Nat.add_right_cancel heq)

theorem mem_blocks (hb : b ∈ s.freelist cpu) : b ∈ (List.finRange KALLOC_CPUS).flatMap s.freelist :=
  mem_flatMap.mpr ⟨cpu, mem_finRange cpu, hb⟩

theorem Inv.live_block (h : Inv s pages) (hx : x ∈ s.live) :
    ∃ cpu, ∃ b ∈ s.freelist cpu, b.free = false ∧ (b.addr + BLOCK_BYTES, b.used) = x := by
  obtain ⟨cpu, -, hused⟩ := mem_flatMap.mp (h.live.mem_iff.mpr hx)
  exact ⟨cpu, mem_usedOf.mp hused⟩

theorem usedOf_pairwise (h : l.Pairwise Apart) (hroom : ∀ b ∈ l, b.free = false → b.used ≤ b.size) :
    (usedOf l).Pairwise fun x y => x.1 + x.2 ≤ y.1 ∨ y.1 + y.2 ≤ x.1 := by
  refine pairwise_map.mpr (pairwise_filter.mpr ?_)
  refine h.imp_of_mem fun {b c} hb hc hapart hbfree hcfree => ?_
  have hb' := hroom b hb (by simpa using hbfree)
  have hc' := hroom c hc (by simpa using hcfree)
  simp only [Apart, Block.limit] at *
  omega

theorem Inv.live_pairwise (h : Inv s pages) :
    s.live.Pairwise fun x y => x.1 + x.2 ≤ y.1 ∨ y.1 + y.2 ≤ x.1 := by
  have hall : usedOf ((List.finRange KALLOC_CPUS).flatMap s.freelist) =
      (List.finRange KALLOC_CPUS).flatMap fun cpu => usedOf (s.freelist cpu) := by
    simp only [usedOf, filter_flatMap, map_flatMap]
  have hpair := usedOf_pairwise h.apart fun b hb hused => by
    obtain ⟨cpu, -, hb⟩ := mem_flatMap.mp hb
    obtain ⟨pg, -, hw⟩ := h.page_of hb
    exact (hw.used hused).1
  rw [hall] at hpair
  exact h.live.pairwise hpair fun hxy => hxy.symm

theorem Inv.live_sound (h : Inv s pages) (hx : x ∈ s.live) :
    (∃ pg, pg % PAGE_SIZE = 0 ∧ pg ≤ x.1 ∧ x.1 + x.2 ≤ pg + PAGE_SIZE) ∧
    (∀ cpu, ∀ c ∈ s.freelist cpu, x.1 + x.2 ≤ c.addr ∨ c.addr + BLOCK_BYTES ≤ x.1) ∧
    (x.2 % 8 = 0 → x.1 % 8 = 0) ∧ x.1 % 4 = 0 := by
  obtain ⟨cpu, b, hb, hused, rfl⟩ := h.live_block hx
  obtain ⟨pg, -, hw⟩ := h.page_of hb
  obtain ⟨hroom, halign⟩ := hw.used hused
  have haddr := hw.addr
  have hlimit := hw.limit
  have hpage := hw.page
  have hstart := hw.start
  refine ⟨⟨pg, ?_, ?_, ?_⟩, fun cpu' c hc => ?_, fun h8 => ?_, ?_⟩
  · rwa [Nat.add_mod_right] at hpage
  · dsimp only
    omega
  · simp only [Block.limit] at hlimit
    omega
  · have : Std.Symm Apart := ⟨fun _ _ hd => hd.symm⟩
    by_cases hbc : b = c
    · exact .inr (hbc ▸ Nat.le_refl _)
    · have hapart := h.apart.forall (mem_blocks hb) (mem_blocks hc) hbc
      simp only [Apart, Block.limit] at *
      omega
  · have h8' := halign h8
    simp only [BLOCK_BYTES]
    omega
  · simp only [BLOCK_BYTES]
    omega

theorem Inv.page_tiles (h : Inv s pages) (hb : b ∈ s.freelist cpu) :
    Tiles (pageBase b.addr + PAGE_SIZE) (pageBase b.addr)
      ((s.freelist cpu).filter fun c => pageBase c.addr = pageBase b.addr) ∧
    ∀ cpu', cpu' ≠ cpu → ∀ c ∈ s.freelist cpu', pageBase c.addr ≠ pageBase b.addr := by
  obtain ⟨pg, hpg, hw⟩ := h.page_of hb
  have hbase : pageBase b.addr = pg := Nat.add_right_cancel hw.pageBase
  rw [hbase]
  refine ⟨?_, fun cpu' hne c hc heq => ?_⟩
  · have htiles := ((h.layout cpu).tiles (h.distinct cpu)).2 pg hpg
    have hsame : (s.freelist cpu).filter (Block.onPage (pg + PAGE_SIZE)) =
        (s.freelist cpu).filter fun c => pageBase c.addr = pg :=
      filter_congr fun c _ => decide_eq_decide.mpr Nat.add_right_cancel_iff
    rwa [hsame] at htiles
  · obtain ⟨pg', hpg', hw'⟩ := h.page_of hc
    have hbase' := Nat.add_right_cancel hw'.pageBase
    exact h.pages_ne hne hpg' hpg (hbase'.symm.trans heq)

/-! ## Reuse -/

theorem mergeAdjacent_next {rest : List Block} {c : Block} (hfree : ∀ c ∈ l, c.free = true)
    (h : (mergeAdjacent b l).2 = c :: rest) : pageBase b.addr ≠ pageBase c.addr := by
  induction l generalizing b with
  | nil => cases h
  | cons d l ih =>
    rw [forall_mem_cons] at hfree
    rw [mergeAdjacent] at h
    split at h
    next => exact (ih hfree.2 h :)
    next hnot =>
      cases h
      exact fun hpage => hnot ⟨hfree.1, hpage⟩

theorem mergeAdjacent_limit (hl : Layout l b.limit stop pgs) (hb : b.Within stop)
    (hd : Distinct stop pgs) (hfree : ∀ c ∈ l, c.free = true) :
    (mergeAdjacent b l).1.limit = stop := by
  have hlayout := (mergeAdjacent_layout hb hl hd).layout
  cases hrest : (mergeAdjacent b l).2 with
  | nil =>
    rw [hrest] at hlayout
    exact hlayout.1
  | cons c rest =>
    have hnext := mergeAdjacent_next hfree hrest
    rw [hrest] at hlayout
    obtain ⟨stop', pgs', hent, hw, -⟩ := hlayout
    cases hent with
    | page hcur => exact hcur
    | here =>
      have hpage := hb.pageBase.trans hw.pageBase.symm
      exact absurd (Nat.add_right_cancel hpage) hnext

/-- The blocks of the first page become one, which is large enough. -/
theorem kallocLoop_of_free (h : Layout (b :: l) 0 0 pgs) (hd : Distinct 0 pgs)
    (hfree : ∀ c ∈ b :: l, c.free = true) (hsize : size ≤ PAGE_SIZE - BLOCK_BYTES) :
    (kallocLoop (kallocAlign size) size (b :: l)).1 = some b.addr := by
  obtain ⟨stop', pgs', hent, hb, hl⟩ := h
  have hd' := hent.distinct hd
  have haddr := (mergeAdjacent_layout hb hl hd').addr
  have hlimit := mergeAdjacent_limit hl hb hd' fun c hc => hfree c (mem_cons_of_mem _ hc)
  have hfits : b.addr % kallocAlign size = 0 ∧ size ≤ (mergeAdjacent b l).1.size := by
    have hstop := hb.limit
    have hpage := hb.page
    cases hent with
    | here =>
      simp only [Block.limit, BLOCK_BYTES] at hstop
      omega
    | page =>
      simp only [Block.limit, haddr, PAGE_SIZE, BLOCK_BYTES] at hlimit hpage hsize
      rcases kallocAlign_cases size with halign | halign <;> rw [halign] <;> omega
  rw [kallocLoop, if_pos (hfree b mem_cons_self)]
  simp [Block.fits, haddr, hfits]

end KernelHeap

open KernelHeap in
/-- The payloads of live allocations do not overlap, each lies inside a page, overlaps no header
and is aligned; the blocks of each page, which are in one list, tile it. -/
theorem kernel_heap_sound {s : KernelHeap} (h : Runs.Reach step Runs.always Init s) :
    (s.live.Pairwise fun x y => x.1 + x.2 ≤ y.1 ∨ y.1 + y.2 ≤ x.1) ∧
    (∀ x ∈ s.live, (∃ pg, pg % PAGE_SIZE = 0 ∧ pg ≤ x.1 ∧ x.1 + x.2 ≤ pg + PAGE_SIZE) ∧
      (∀ cpu, ∀ c ∈ s.freelist cpu, x.1 + x.2 ≤ c.addr ∨ c.addr + BLOCK_BYTES ≤ x.1) ∧
      (x.2 % 8 = 0 → x.1 % 8 = 0) ∧ x.1 % 4 = 0) ∧
    ∀ cpu, ∀ b ∈ s.freelist cpu,
      Tiles (pageBase b.addr + PAGE_SIZE) (pageBase b.addr)
        ((s.freelist cpu).filter fun c => pageBase c.addr = pageBase b.addr) ∧
      ∀ cpu', cpu' ≠ cpu → ∀ c ∈ s.freelist cpu', pageBase c.addr ≠ pageBase b.addr := by
  have hinv : ∃ pages, Inv s pages :=
    h.invariant (I := fun s => ∃ pages, Inv s pages) (fun _ hs => ⟨_, Inv.init hs⟩)
      fun _ _ _ hs _ hstep => by
        obtain ⟨pages, hs⟩ := hs
        exact hs.step hstep
  obtain ⟨pages, hinv⟩ := hinv
  exact ⟨hinv.live_pairwise, fun x hx => hinv.live_sound hx, fun cpu b hb => hinv.page_tiles hb⟩

open KernelHeap in
/-- Two processors allocate, one of them frees a block of the other, and its place is used again. -/
theorem KernelHeap.kernel_heap_sound_two : ∃ s, Runs.Reach step Runs.always Init s ∧
    s.live = [(4112, 7), (8208, 100), (4144, 8)] ∧
    s.live.Pairwise fun x y => x.1 + x.2 ≤ y.1 ∨ y.1 + y.2 ≤ x.1 := by
  have hinit : Init ⟨fun _ => [], []⟩ := rfl
  obtain ⟨s, hs, htest⟩ := Runs.Reach.of_execTest hinit
    (by decide +kernel : Runs.execTest step ⟨fun _ => [], []⟩
      [.kalloc 0 12 4096, .kalloc 0 8 4096, .kalloc 1 100 8192, .kfree 4112, .kalloc 0 7 0]
      (fun s => decide (s.live = [(4112, 7), (8208, 100), (4144, 8)])) = true)
  exact ⟨s, hs, of_decide_eq_true htest, (kernel_heap_sound hs).1⟩

open KernelHeap in
/-- Nothing is lost to fragments: once every pointer has been given back, a processor that has a page
serves any request of at most a page, and needs no page from `kalloc_page` for it. -/
theorem heap_reusable {s : KernelHeap} (h : Runs.Reach step Runs.always Init s) (hlive : s.live = [])
    {cpu : Fin KALLOC_CPUS} (hpage : s.freelist cpu ≠ []) {size : Nat}
    (hsize : size ≤ PAGE_SIZE - BLOCK_BYTES) :
    ∃ ptr l, ∀ pg, s.kalloc cpu size pg = .ok (ptr, l) := by
  obtain ⟨pages, hinv⟩ := h.invariant (I := fun s => ∃ pages, Inv s pages)
    (fun _ hs => ⟨_, Inv.init hs⟩) fun _ _ _ ⟨_, hs⟩ _ hstep => hs.step hstep
  have hlayout := hinv.layout cpu
  have hfree : ∀ c ∈ s.freelist cpu, c.free = true := by
    intro c hc
    by_contra hused
    have hmem := mem_usedOf.mpr ⟨c, hc, Bool.eq_false_of_not_eq_true hused, rfl⟩
    have hno := hinv.live.mem_iff.mp (mem_flatMap.mpr ⟨cpu, mem_finRange cpu, hmem⟩)
    rw [hlive] at hno
    cases hno
  cases hl : s.freelist cpu with
  | nil => exact absurd hl hpage
  | cons b l =>
    rw [hl] at hlayout hfree
    have hloop := kallocLoop_of_free hlayout (hinv.distinct cpu) hfree hsize
    exact ⟨_, _, fun pg => by rw [kalloc, hl, ← Prod.eta (kallocLoop _ _ _), hloop]⟩

open KernelHeap in
/-- The page has been cut into three blocks. -/
theorem KernelHeap.heap_reusable_page : ∃ s : KernelHeap,
    (s.freelist 0).length = 3 ∧ ∃ ptr l, ∀ pg, s.kalloc 0 4080 pg = .ok (ptr, l) := by
  have hinit : Init ⟨fun _ => [], []⟩ := rfl
  obtain ⟨s, hs, htest⟩ := Runs.Reach.of_execTest hinit
    (by decide +kernel : Runs.execTest step _
      [.kalloc 0 12 4096, .kalloc 0 8 0, .kalloc 0 20 0, .kfree 4112, .kfree 4144, .kfree 4168]
      (fun s => s.live = [] ∧ (s.freelist 0).length = 3) = true)
  obtain ⟨hlive, hlen⟩ := of_decide_eq_true htest
  exact ⟨s, hlen, heap_reusable hs hlive (by rintro h; simp [h] at hlen) (by decide)⟩

end OsKernel
