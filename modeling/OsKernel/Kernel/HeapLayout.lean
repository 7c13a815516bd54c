import Mathlib.Data.List.Pairwise
import Mathlib.Data.List.Perm.Basic
import OsKernel.Kernel.Heap

/-!
# The layout of the kernel heap

A list of blocks is made of pages one behind the other, and the blocks of a page tile it in the
order of their addresses.  `Layout l cur stop pgs` says so about the part `l` of a list that
starts inside a page: the tiling has reached `cur`, the page ends at `stop`, and `pgs` are the
pages behind it.  The operations of the heap change one block and those right behind it, and keep
the layout: `merge_adjacent` (`mergeAdjacent_layout`), the new headers (`split_within`) and the loop
of `kalloc` (`kallocLoop_layout`).
-/

namespace OsKernel

open List

namespace KernelHeap

def Block.limit (b : Block) : Nat := b.addr + BLOCK_BYTES + b.size

/-- The block lies inside the page that ends at `stop`.  A used block has room for the bytes that
were asked for, and their alignment. -/
structure Block.Within (b : Block) (stop : Nat) : Prop where
  addr : b.addr % 4 = 0
  limit : b.limit ≤ stop
  page : stop % PAGE_SIZE = 0
  start : stop ≤ b.addr + PAGE_SIZE
  word : stop ≤ 2 ^ 64
  used : b.free = false → b.used ≤ b.size ∧ (b.used % 8 = 0 → b.addr % 8 = 0)

/-- A block at `addr` comes next: it goes on with the page, or it starts the next one. -/
inductive Enters (cur stop : Nat) (pgs : List Nat) (addr : Nat) : Nat → List Nat → Prop where
  | here : addr = cur → Enters cur stop pgs addr stop pgs
  | page {pgs' : List Nat} : cur = stop → pgs = addr :: pgs' →
      Enters cur stop pgs addr (addr + PAGE_SIZE) pgs'

def Layout : List Block → Nat → Nat → List Nat → Prop
  | [], cur, stop, pgs => cur = stop ∧ pgs = []
  | b :: l, cur, stop, pgs => ∃ stop' pgs', Enters cur stop pgs b.addr stop' pgs' ∧
      b.Within stop' ∧ Layout l b.limit stop' pgs'

/-- The pages are different, and none of them is the one that ends at `stop`. -/
structure Distinct (stop : Nat) (pgs : List Nat) : Prop where
  nodup : pgs.Nodup
  other : ∀ pg ∈ pgs, pg + PAGE_SIZE ≠ stop

def usedOf (l : List Block) : List (Nat × Nat) :=
  (l.filter fun b => !b.free).map fun b => (b.addr + BLOCK_BYTES, b.used)

variable {b c : Block} {l : List Block} {cur stop stop' addr : Nat} {pgs pgs' : List Nat}

/-! ## Pages and blocks -/

theorem Enters.distinct (h : Enters cur stop pgs addr stop' pgs') (hd : Distinct stop pgs) :
    Distinct stop' pgs' := by
  cases h with
  | here _ => exact hd
  | page _ hpgs =>
    subst hpgs
    obtain ⟨hnot, hnodup⟩ := nodup_cons.mp hd.nodup
    refine ⟨hnodup, fun pg hpg heq => hnot ?_⟩
    have hsame : pg = addr := Nat.add_right_cancel heq
    rwa [← hsame]

theorem Block.Within.pageBase (h : b.Within stop) : pageBase b.addr + PAGE_SIZE = stop := by
  have hlimit := h.limit
  have hpage := h.page
  have hstart := h.start
  simp only [Block.limit, OsKernel.pageBase, PAGE_SIZE, BLOCK_BYTES] at *
  omega

theorem Block.Within.size_le (h : b.Within stop) : b.size ≤ PAGE_SIZE - BLOCK_BYTES := by
  have hlimit := h.limit
  have hstart := h.start
  simp only [Block.limit, PAGE_SIZE, BLOCK_BYTES] at *
  omega

def Apart (b c : Block) : Prop := b.limit ≤ c.addr ∨ c.limit ≤ b.addr

theorem Apart.symm (h : Apart b c) : Apart c b := Or.symm h

theorem apart_of_pages (hb : b.Within stop) (hc : c.Within stop') (hne : stop ≠ stop') :
    Apart b c := by
  have h1 := hb.limit
  have h2 := hb.page
  have h3 := hb.start
  have h4 := hc.limit
  have h5 := hc.page
  have h6 := hc.start
  simp only [Apart, Block.limit, PAGE_SIZE, BLOCK_BYTES] at *
  omega

theorem usedOf_free (h : b.free = true) (l : List Block) : usedOf (b :: l) = usedOf l := by
  simp [usedOf, h]

theorem usedOf_used (h : b.free = false) (l : List Block) :
    usedOf (b :: l) = (b.addr + BLOCK_BYTES, b.used) :: usedOf l := by
  simp [usedOf, h]

theorem mem_usedOf {a : Nat × Nat} : a ∈ usedOf l ↔
    ∃ b ∈ l, b.free = false ∧ (b.addr + BLOCK_BYTES, b.used) = a := by
  simp [usedOf, and_assoc]

/-! ## Blocks of a layout -/

theorem Layout.mem (h : Layout l cur stop pgs) (hb : b ∈ l) : ∃ stop', b.Within stop' ∧
    (stop' = stop ∧ cur ≤ b.addr ∨ ∃ pg ∈ pgs, stop' = pg + PAGE_SIZE) := by
  induction l generalizing cur stop pgs with
  | nil => cases hb
  | cons c l ih =>
    obtain ⟨stop', pgs', hent, hc, hl⟩ := h
    obtain rfl | hb := mem_cons.mp hb
    · refine ⟨stop', hc, ?_⟩
      cases hent with
      | here haddr => exact .inl ⟨rfl, haddr.ge⟩
      | page _ hpgs => exact .inr ⟨b.addr, hpgs ▸ mem_cons_self .., rfl⟩
    obtain ⟨stop1, hw, hwhere⟩ := ih hl hb
    refine ⟨stop1, hw, ?_⟩
    have hlimit : c.addr ≤ c.limit := by
      rw [Block.limit]
      omega
    cases hent with
    | here haddr =>
      obtain ⟨hstop, hcur⟩ | hpg := hwhere
      · exact .inl ⟨hstop, haddr ▸ hlimit.trans hcur⟩
      · exact .inr hpg
    | page _ hpgs =>
      subst hpgs
      obtain ⟨hstop, -⟩ | ⟨pg, hpg, hstop⟩ := hwhere
      · exact .inr ⟨c.addr, mem_cons_self .., hstop⟩
      · exact .inr ⟨pg, mem_cons_of_mem _ hpg, hstop⟩

theorem Layout.pairwise (h : Layout l cur stop pgs) (hd : Distinct stop pgs) :
    l.Pairwise Apart := by
  induction l generalizing cur stop pgs with
  | nil => exact List.Pairwise.nil
  | cons b l ih =>
    obtain ⟨stop', pgs', hent, hb, hl⟩ := h
    have hd' := hent.distinct hd
    refine List.Pairwise.cons (fun c hc => ?_) (ih hl hd')
    obtain ⟨stop1, hw, ⟨-, hcur⟩ | ⟨pg, hpg, rfl⟩⟩ := hl.mem hc
    · exact .inl hcur
    · exact apart_of_pages hb hw (hd'.other pg hpg).symm

theorem Layout.page_start (h : Layout l cur stop pgs) {pg : Nat} (hpg : pg ∈ pgs) :
    ∃ b ∈ l, b.addr = pg := by
  induction l generalizing cur stop pgs with
  | nil =>
    rw [h.2] at hpg
    cases hpg
  | cons c l ih =>
    obtain ⟨stop', pgs', hent, -, hl⟩ := h
    have hrest : pg ∈ pgs' → ∃ b ∈ c :: l, b.addr = pg := fun hmem => by
      obtain ⟨b, hb, haddr⟩ := ih hl hmem
      exact ⟨b, mem_cons_of_mem _ hb, haddr⟩
    cases hent with
    | here _ => exact hrest hpg
    | page _ hpgs =>
      subst hpgs
      obtain rfl | hpg := mem_cons.mp hpg
      · exact ⟨c, mem_cons_self .., rfl⟩
      · exact hrest hpg

theorem Layout.restart (h : Layout l stop stop pgs) (stop1 : Nat) : Layout l stop1 stop1 pgs := by
  cases l with
  | nil => exact ⟨rfl, h.2⟩
  | cons b l =>
    obtain ⟨stop', pgs', hent, hb, hl⟩ := h
    cases hent with
    | here haddr =>
      have hlimit := hb.limit
      rw [Block.limit] at hlimit
      simp only [BLOCK_BYTES] at hlimit
      omega
    | page _ hpgs => exact ⟨_, _, .page rfl hpgs, hb, hl⟩

/-! ## The blocks of one page -/

/-- The blocks cover the addresses from `start` to `stop`, one behind the other. -/
def Tiles (stop : Nat) : Nat → List Block → Prop
  | start, [] => start = stop
  | start, b :: l => b.addr = start ∧ Tiles stop b.limit l

/-- The block is on the page that ends at `stop`. -/
def Block.onPage (stop : Nat) (b : Block) : Bool := pageBase b.addr + PAGE_SIZE = stop

theorem Layout.filter_nil (h : Layout l cur stop pgs) {stop0 : Nat} (hstop : stop0 ≠ stop)
    (hpgs : ∀ pg ∈ pgs, pg + PAGE_SIZE ≠ stop0) : l.filter (Block.onPage stop0) = [] := by
  refine filter_eq_nil_iff.mpr fun b hb => ?_
  obtain ⟨stop', hw, hwhere⟩ := h.mem hb
  have hbase := hw.pageBase
  rw [Block.onPage, decide_eq_true_eq, hbase]
  obtain ⟨rfl, -⟩ | ⟨pg, hpg, rfl⟩ := hwhere
  · exact hstop.symm
  · exact hpgs pg hpg

theorem Block.Within.filter_cons (hb : b.Within stop) (l : List Block) :
    (b :: l).filter (Block.onPage stop) = b :: l.filter (Block.onPage stop) :=
  filter_cons_of_pos (decide_eq_true hb.pageBase)

theorem Block.Within.filter_other (hb : b.Within stop) (hne : stop ≠ stop') (l : List Block) :
    (b :: l).filter (Block.onPage stop') = l.filter (Block.onPage stop') := by
  refine filter_cons_of_neg fun h => hne ?_
  rw [← hb.pageBase]
  exact of_decide_eq_true h

theorem Layout.tiles (h : Layout l cur stop pgs) (hd : Distinct stop pgs) :
    Tiles stop cur (l.filter (Block.onPage stop)) ∧
      ∀ pg ∈ pgs, Tiles (pg + PAGE_SIZE) pg (l.filter (Block.onPage (pg + PAGE_SIZE))) := by
  induction l generalizing cur stop pgs with
  | nil =>
    obtain ⟨hcur, hpgs⟩ := h
    refine ⟨hcur, fun pg hpg => ?_⟩
    rw [hpgs] at hpg
    cases hpg
  | cons b l ih =>
    obtain ⟨stop', pgs', hent, hb, hl⟩ := h
    have hd' := hent.distinct hd
    obtain ⟨hfirst, hrest⟩ := ih hl hd'
    cases hent with
    | here haddr =>
      refine ⟨?_, fun pg hpg => ?_⟩
      · rw [hb.filter_cons]
        exact ⟨haddr, hfirst⟩
      · rw [hb.filter_other (hd.other pg hpg).symm]
        exact hrest pg hpg
    | page hcur hpgs =>
      subst hpgs
      have hne : b.addr + PAGE_SIZE ≠ stop := hd.other _ (mem_cons_self ..)
      refine ⟨?_, fun pg hpg => ?_⟩
      · rw [hb.filter_other hne, hl.filter_nil hne.symm fun pg hpg =>
          hd.other pg (mem_cons_of_mem _ hpg)]
        exact hcur
      cases mem_cons.mp hpg with
      | inl heq =>
        rw [heq, hb.filter_cons, Tiles]
        exact ⟨rfl, hfirst⟩
      | inr hmem =>
        rw [hb.filter_other (hd'.other pg hmem).symm]
        exact hrest pg hmem

/-! ## Headers -/

theorem gap_eq (hlo : b.addr + BLOCK_BYTES ≤ addr) (hhi : addr < 2 ^ 64) :
    b.gap addr = addr - b.addr - BLOCK_BYTES := by
  simp only [Block.gap, usizeSub, usize, BLOCK_BYTES] at *
  omega

theorem Block.Within.resize (hb : b.Within stop) (haddr : c.addr = b.addr) (hfree : c.free = b.free)
    (hused : c.used = b.used) (hlimit : c.limit ≤ stop) (hroom : b.free = false → b.used ≤ c.size) :
    c.Within stop := by
  refine ⟨haddr ▸ hb.addr, hlimit, hb.page, haddr ▸ hb.start, hb.word, fun hf => ?_⟩
  rw [hfree] at hf
  rw [hused, haddr]
  exact ⟨hroom hf, (hb.used hf).2⟩

theorem resize_fields (b : Block) (n : Nat) : (b.resize n).addr = b.addr ∧
    (b.resize n).free = b.free ∧ (b.resize n).used = b.used := ⟨rfl, rfl, rfl⟩

theorem split_fst (b : Block) (addr : Nat) : (b.split addr).1.addr = b.addr ∧
    (b.split addr).1.free = b.free ∧ (b.split addr).1.used = b.used := by
  rw [Block.split]
  exact resize_fields b _

theorem split_snd (b : Block) (addr : Nat) : (b.split addr).2.addr = addr ∧
    (b.split addr).2.free = true := by
  rw [Block.split]
  exact ⟨rfl, rfl⟩

theorem split_eq (hb : b.Within stop) (hlo : b.addr + BLOCK_BYTES ≤ addr)
    (hhi : addr + BLOCK_BYTES ≤ b.limit) : b.split addr =
      (b.resize (addr - b.addr - BLOCK_BYTES), ⟨addr, b.limit - addr - BLOCK_BYTES, 0, true⟩) := by
  have hlimit := hb.limit
  have hstart := hb.start
  have hword := hb.word
  have hgap : b.gap addr = addr - b.addr - BLOCK_BYTES := by
    apply gap_eq hlo
    simp only [BLOCK_BYTES] at hhi
    omega
  have hsize1 : u16 (addr - b.addr - BLOCK_BYTES) = addr - b.addr - BLOCK_BYTES := by
    simp only [u16, Block.limit, PAGE_SIZE, BLOCK_BYTES] at *
    omega
  have hsize2 : u16 (usizeSub b.size (usize (addr - b.addr - BLOCK_BYTES + BLOCK_BYTES))) =
      b.limit - addr - BLOCK_BYTES := by
    simp only [u16, usizeSub, usize, Block.limit, PAGE_SIZE, BLOCK_BYTES] at *
    omega
  rw [Block.split, hgap, hsize1, hsize2]

theorem split_within (hb : b.Within stop) (haddr : addr % 4 = 0)
    (hlo : b.addr + BLOCK_BYTES ≤ addr) (hhi : addr + BLOCK_BYTES ≤ b.limit)
    (hused : b.free = false → b.addr + BLOCK_BYTES + b.used ≤ addr) :
    (b.split addr).1.Within stop ∧ (b.split addr).1.limit = addr ∧
      (b.split addr).2.Within stop ∧ (b.split addr).2.limit = b.limit := by
  have hlimit := hb.limit
  have hstart := hb.start
  have hlimit1 : (b.resize (addr - b.addr - BLOCK_BYTES)).limit = addr := by
    simp only [Block.limit, Block.resize]
    omega
  have hlimit2 : Block.limit ⟨addr, b.limit - addr - BLOCK_BYTES, 0, true⟩ = b.limit := by
    simp only [Block.limit] at *
    omega
  rw [split_eq hb hlo hhi]
  refine ⟨hb.resize rfl rfl rfl ?_ fun hf => ?_, hlimit1, ⟨haddr, ?_, hb.page, ?_, hb.word, ?_⟩,
    hlimit2⟩
  · rw [hlimit1]
    omega
  · have hroom := hused hf
    simp only [Block.resize]
    omega
  · rw [hlimit2]
    exact hlimit
  · dsimp only
    omega
  · intro hf
    cases hf

theorem take_within (hb : b.Within stop) {size : Nat} (hsize : size ≤ b.size)
    (halign : b.addr % kallocAlign size = 0) :
    (b.take size).Within stop ∧ (b.take size).used = size := by
  have hmax := hb.size_le
  have hused : (b.take size).used = size := by
    simp only [Block.take, u16, PAGE_SIZE, BLOCK_BYTES] at *
    omega
  refine ⟨⟨hb.addr, hb.limit, hb.page, hb.start, hb.word, fun _ => ?_⟩, hused⟩
  rw [hused]
  refine ⟨hsize, fun h8 => ?_⟩
  rw [kallocAlign, if_pos h8] at halign
  exact halign

section

variable {align size k : Nat}

/-- Where the address behind `k` bytes of the block is rounded to, if there is room for a header. -/
theorem alignUp_room (hb : b.Within stop) (halign : align = 4 ∨ align = 8) (hk : k ≤ b.size)
    {n : Nat} (hn : n = alignUp (usize (b.addr + BLOCK_BYTES + k)) align) (hsize : size ≤ PAGE_SIZE)
    (hroom : usize (usize (size + b.gap n) + BLOCK_BYTES) ≤ b.size) :
    b.addr + BLOCK_BYTES + k ≤ n ∧ n % align = 0 ∧ n + BLOCK_BYTES + size ≤ b.limit := by
  have haddr := hb.addr
  have hlimit := hb.limit
  have hstart := hb.start
  have hword := hb.word
  obtain rfl | rfl := halign
  · simp only [alignUp, Block.gap, usizeSub, usize, Block.limit, PAGE_SIZE, BLOCK_BYTES] at *
    omega
  · simp only [alignUp, Block.gap, usizeSub, usize, Block.limit, PAGE_SIZE, BLOCK_BYTES] at *
    omega

end

/-! ## `merge_adjacent` -/

/-- What `merge_adjacent` makes of a block and the list behind it. -/
structure Merged (b : Block) (l : List Block) (stop : Nat) (pgs : List Nat)
    (m : Block × List Block) : Prop where
  addr : m.1.addr = b.addr
  free : m.1.free = b.free
  used : m.1.used = b.used
  within : m.1.Within stop
  layout : Layout m.2 m.1.limit stop pgs
  same : usedOf m.2 = usedOf l

theorem mergeAdjacent_layout (hb : b.Within stop) (hl : Layout l b.limit stop pgs)
    (hd : Distinct stop pgs) : Merged b l stop pgs (mergeAdjacent b l) := by
  induction l generalizing b with
  | nil => exact ⟨rfl, rfl, rfl, hb, hl, rfl⟩
  | cons c l ih =>
    rw [mergeAdjacent]
    split
    next hmerge =>
      obtain ⟨hfree, hbase⟩ := hmerge
      obtain ⟨stop', pgs', hent, hc, hrest⟩ := hl
      cases hent with
      | here haddr =>
        have hsize : u16 (b.size + (c.size + BLOCK_BYTES)) = b.size + (c.size + BLOCK_BYTES) := by
          have hstart := hb.start
          have hlimit := hc.limit
          simp only [u16, Block.limit, PAGE_SIZE, BLOCK_BYTES] at *
          omega
        have hlimit : (b.resize (b.size + (c.size + BLOCK_BYTES))).limit = c.limit := by
          simp only [Block.limit, Block.resize] at *
          omega
        have hbig : (b.resize (b.size + (c.size + BLOCK_BYTES))).Within stop := by
          refine hb.resize rfl rfl rfl (hlimit ▸ hc.limit) fun hf => ?_
          have hroom := (hb.used hf).1
          simp only [Block.resize]
          omega
        rw [← hlimit] at hrest
        rw [hsize]
        obtain ⟨h1, h2, h3, h4, h5, h6⟩ := ih hbig hrest
        exact ⟨h1, h2, h3, h4, h5, h6.trans (usedOf_free hfree l).symm⟩
      | page _ hpgs =>
        -- the block is on another page
        have hother := hd.other c.addr (hpgs ▸ mem_cons_self ..)
        have hbpage := hb.pageBase
        have hcpage := hc.pageBase
        omega
    next => exact ⟨rfl, rfl, rfl, hb, hl, rfl⟩

/-! ## The loop of `kalloc` -/

/-- The list has one allocation more, at the block that the loop has found. -/
def Gains (size : Nat) (l l' : List Block) : Option Nat → Prop
  | none => usedOf l' = usedOf l
  | some a => (usedOf l').Perm ((a + BLOCK_BYTES, size) :: usedOf l)

variable {size : Nat}

variable {l' : List Block} {r : Option Nat}

theorem Gains.cons (h : Gains size l l' r)
    (haddr : c.addr = b.addr) (hfree : c.free = b.free) (hused : c.used = b.used) :
    Gains size (b :: l) (c :: l') r := by
  cases hf : b.free with
  | true =>
    cases r with
    | none =>
      rw [Gains, usedOf_free hf, usedOf_free (hfree.trans hf)]
      exact h
    | some a =>
      rw [Gains, usedOf_free hf, usedOf_free (hfree.trans hf)]
      exact h
  | false =>
    cases r with
    | none =>
      rw [Gains, usedOf_used hf, usedOf_used (hfree.trans hf), haddr, hused, h]
    | some a =>
      rw [Gains, usedOf_used hf, usedOf_used (hfree.trans hf), haddr, hused]
      exact (List.Perm.cons _ h).trans (List.Perm.swap ..)

theorem Gains.congr {l0 : List Block} (h : Gains size l l' r)
    (hsame : usedOf l = usedOf l0) : Gains size l0 l' r := by
  cases r with
  | none => exact Eq.trans h hsame
  | some a =>
    rw [Gains, ← hsame]
    exact h

theorem kallocAlign_cases (size : Nat) : kallocAlign size = 4 ∨ kallocAlign size = 8 := by
  rw [kallocAlign]
  split
  · exact .inr rfl
  · exact .inl rfl

theorem mod_four {n align : Nat} (halign : align = 4 ∨ align = 8) (h : n % align = 0) :
    n % 4 = 0 := by
  obtain rfl | rfl := halign <;> omega

theorem usedOf_take (hused : (b.take size).used = size) (l : List Block) :
    usedOf (b.take size :: l) = (b.addr + BLOCK_BYTES, size) :: usedOf l := by
  have hfree : (b.take size).free = false := rfl
  have haddr : (b.take size).addr = b.addr := rfl
  rw [usedOf_used hfree, hused, haddr]

theorem split_aligned (hb : b.Within stop) (hfree : b.free = true) (hsize : size ≤ PAGE_SIZE)
    (hfits : b.fits (kallocAlign size) size) (hmis : b.addr % kallocAlign size ≠ 0) :
    ((b.split (b.aligned (kallocAlign size))).2.take size).Within stop ∧
      ((b.split (b.aligned (kallocAlign size))).2.take size).used = size ∧
      ((b.split (b.aligned (kallocAlign size))).2.take size).limit = b.limit ∧
      (b.split (b.aligned (kallocAlign size))).1.Within stop ∧
      (b.split (b.aligned (kallocAlign size))).1.limit = b.aligned (kallocAlign size) := by
  have halign := kallocAlign_cases size
  have hroom : usize (usize (size + b.gap (b.aligned (kallocAlign size))) + BLOCK_BYTES) ≤
      b.size := by
    rw [Block.fits, decide_eq_true_eq] at hfits
    obtain ⟨h, -⟩ | ⟨-, h⟩ := hfits
    · exact absurd h hmis
    · exact h
  have hn : b.aligned (kallocAlign size) =
      alignUp (usize (b.addr + BLOCK_BYTES + 0)) (kallocAlign size) := rfl
  obtain ⟨hlo, hmod, hhi⟩ := alignUp_room hb halign (Nat.zero_le _) hn hsize hroom
  obtain ⟨hw1, hl1, hw2, hl2⟩ := split_within hb (mod_four halign hmod) hlo (by omega)
    fun hf => by rw [hfree] at hf; cases hf
  obtain ⟨haddr2, -⟩ := split_snd b (b.aligned (kallocAlign size))
  have hfit : size ≤ (b.split (b.aligned (kallocAlign size))).2.size := by
    rw [Block.limit, haddr2] at hl2
    omega
  obtain ⟨hw, hused⟩ := take_within hw2 hfit (by rw [haddr2]; exact hmod)
  exact ⟨hw, hused, hl2, hw1, hl1⟩

theorem split_slack (hb : b.Within stop) (hused : b.free = false)
    (hslack : b.hasSlack (kallocAlign size)) :
    (b.split (b.newAddr (kallocAlign size))).1.Within stop ∧
      (b.split (b.newAddr (kallocAlign size))).1.limit = b.newAddr (kallocAlign size) ∧
      (b.split (b.newAddr (kallocAlign size))).2.Within stop ∧
      (b.split (b.newAddr (kallocAlign size))).2.limit = b.limit := by
  have halign := kallocAlign_cases size
  have hroom : usize (usize (0 + b.gap (b.newAddr (kallocAlign size))) + BLOCK_BYTES) ≤ b.size := by
    have hword : usize (b.gap (b.newAddr (kallocAlign size))) = b.gap (b.newAddr (kallocAlign size)) :=
      Nat.mod_mod _ _
    rw [Nat.zero_add, hword]
    exact of_decide_eq_true hslack
  have hn : b.newAddr (kallocAlign size) =
      alignUp (usize (b.addr + BLOCK_BYTES + b.used)) (kallocAlign size) := rfl
  obtain ⟨hlo, hmod, hhi⟩ := alignUp_room hb halign (hb.used hused).1 hn (Nat.zero_le _) hroom
  exact split_within hb (mod_four halign hmod) (by omega) hhi fun _ => hlo

/-- A block is split in two, and something is done to the list from the second one on. -/
theorem cons_split {b1 b2 : Block}
    (hent : Enters cur stop pgs b.addr stop' pgs') (haddr1 : b1.addr = b.addr)
    (hfree1 : b1.free = b.free) (hused1 : b1.used = b.used) (hw1 : b1.Within stop')
    (hnext : b2.addr = b1.limit) (hw2 : b2.Within stop') (hl2 : b2.limit = b.limit)
    (hfree2 : b2.free = true) (hl : Layout l b.limit stop' pgs')
    (h : Layout (b2 :: l) b1.limit stop' pgs' →
      Layout l' b1.limit stop' pgs' ∧ Gains size (b2 :: l) l' r) :
    Layout (b1 :: l') cur stop pgs ∧ Gains size (b :: l) (b1 :: l') r := by
  rw [← hl2] at hl
  rw [← haddr1] at hent
  obtain ⟨hlayout, hgains⟩ := h ⟨stop', pgs', .here hnext, hw2, hl⟩
  exact ⟨⟨stop', pgs', hent, hw1, hlayout⟩,
    (hgains.congr (usedOf_free hfree2 l)).cons haddr1 hfree1 hused1⟩

theorem kallocLoop_layout (hsize : size ≤ PAGE_SIZE)
    (h : Layout l cur stop pgs) (hd : Distinct stop pgs) :
    Layout (kallocLoop (kallocAlign size) size l).2 cur stop pgs ∧
      Gains size l (kallocLoop (kallocAlign size) size l).2
        (kallocLoop (kallocAlign size) size l).1 := by
  fun_induction kallocLoop (kallocAlign size) size l generalizing cur stop pgs
  case case1 => exact ⟨h, rfl⟩
  case case2 blk rest hfree merged hfits hmis b1 b2 hsplit =>
      obtain ⟨stop', pgs', hent, hb, hl⟩ := h
      have hm := mergeAdjacent_layout hb hl (hent.distinct hd)
      have hmfree : merged.1.free = true := hm.free.trans hfree
      obtain ⟨hw2, hused, hl2, hw1, hl1⟩ := split_aligned hm.within hmfree hsize hfits hmis
      obtain ⟨haddr1, hfree1, -⟩ := split_fst merged.1 (merged.1.aligned (kallocAlign size))
      obtain ⟨haddr2, -⟩ := split_snd merged.1 (merged.1.aligned (kallocAlign size))
      rw [hsplit] at hw2 hused hl2 hw1 hl1 haddr1 hfree1 haddr2
      have haddr : b1.addr = blk.addr := haddr1.trans hm.addr
      refine ⟨⟨stop', pgs', haddr ▸ hent, hw1, stop', pgs', .here ?_, hw2, ?_⟩, ?_⟩
      · exact haddr2.trans hl1.symm
      · rw [hl2]
        exact hm.layout
      · rw [Gains, usedOf_free (hfree1.trans hmfree), usedOf_take hused, usedOf_free hfree, hm.same]
  case case3 blk rest hfree merged hfits halign =>
      obtain ⟨stop', pgs', hent, hb, hl⟩ := h
      have hm := mergeAdjacent_layout hb hl (hent.distinct hd)
      have hzero := not_not.mp halign
      have hfit : size ≤ merged.1.size := by
        rw [Block.fits, decide_eq_true_eq] at hfits
        obtain ⟨-, h⟩ | ⟨h, -⟩ := hfits
        · exact h
        · exact absurd hzero h
      obtain ⟨hw, hused⟩ := take_within hm.within hfit hzero
      refine ⟨⟨stop', pgs', hm.addr ▸ hent, hw, hm.layout⟩, ?_⟩
      rw [Gains, usedOf_take hused, usedOf_free hfree, hm.same]
  case case4 blk rest hfree merged hfits found ih =>
      obtain ⟨stop', pgs', hent, hb, hl⟩ := h
      have hd' := hent.distinct hd
      have hm := mergeAdjacent_layout hb hl hd'
      obtain ⟨hlayout, hgains⟩ := ih hm.layout hd'
      exact ⟨⟨stop', pgs', hm.addr ▸ hent, hm.within, hlayout⟩,
        (hgains.congr hm.same).cons hm.addr hm.free hm.used⟩
  case case5 blk rest hfree hslack found ih =>
      obtain ⟨stop', pgs', hent, hb, hl⟩ := h
      have hused : blk.free = false := Bool.eq_false_iff.mpr hfree
      obtain ⟨hw1, hl1, hw2, hl2⟩ := split_slack hb hused hslack
      obtain ⟨haddr1, hfree1, hused1⟩ := split_fst blk (blk.newAddr (kallocAlign size))
      obtain ⟨haddr2, hfree2⟩ := split_snd blk (blk.newAddr (kallocAlign size))
      have hnext := haddr2.trans hl1.symm
      exact cons_split hent haddr1 hfree1 hused1 hw1 hnext hw2 hl2 hfree2 hl fun hnew =>
        ih hnew (hent.distinct hd)
  case case6 blk rest hfree hslack found ih =>
      obtain ⟨stop', pgs', hent, hb, hl⟩ := h
      obtain ⟨hlayout, hgains⟩ := ih hl (hent.distinct hd)
      exact ⟨⟨stop', pgs', hent, hb, hlayout⟩, hgains.cons rfl rfl rfl⟩

end KernelHeap

end OsKernel
