import Mathlib.Data.List.FinRange
import OsKernel.Kernel.Mmu
import OsKernel.Lib.Runs

/-!
# The kernel heap

`kalloc` and `kfree` of `kernel/mem.c`.  The list that starts at `freelist[cpu]` is a list of blocks,
free ones and used ones; a block is known by the address of its header.  A call is atomic.
`kalloc_page` gives a page that no block is on.

A state also has the allocations that are live: the pointers that `kalloc` has returned and that
have not been given to `kfree`, with the sizes that were asked for.
-/

namespace OsKernel

abbrev KALLOC_CPUS : Nat := 4

/-- `sizeof(Block)`. -/
abbrev BLOCK_BYTES : Nat := 16

/-- A value stored in a `u16`. -/
def u16 (n : Nat) : Nat := n % 2 ^ 16

def pageBase (addr : Nat) : Nat := addr / PAGE_SIZE * PAGE_SIZE

/-- `(x + align - 1) / align * align` in 64 bits. -/
def alignUp (x align : Nat) : Nat := usize (x + (align - 1)) / align * align

namespace KernelHeap

/-- `Block` with its address. -/
structure Block where
  addr : Nat
  size : Nat
  used : Nat
  free : Bool
deriving DecidableEq, Repr

namespace Block

variable (blk : Block)

/-- `addr - (u64)blk - sizeof(Block)`. -/
def gap (addr : Nat) : Nat := usizeSub addr (usize (blk.addr + BLOCK_BYTES))

def resize (size : Nat) : Block := { blk with size := size }

/-- A new header at `addr`: what is left of the block, and the new free block.  Its field `used` is
not written, and not read while the block is free. -/
def split (addr : Nat) : Block × Block :=
  (blk.resize (u16 (blk.gap addr)),
    ⟨addr, u16 (usizeSub blk.size (usize (blk.gap addr + BLOCK_BYTES))), 0, true⟩)

def take (size : Nat) : Block := { blk with used := u16 size, free := false }

def aligned (align : Nat) : Nat := alignUp (usize (blk.addr + BLOCK_BYTES)) align

/-- A free block is large enough, with room for another header if it is not aligned. -/
def fits (align size : Nat) : Bool :=
  (blk.addr % align = 0 ∧ size ≤ blk.size) ∨
  (blk.addr % align ≠ 0 ∧
    usize (usize (size + blk.gap (blk.aligned align)) + BLOCK_BYTES) ≤ blk.size)

def newAddr (align : Nat) : Nat :=
  alignUp (usize (blk.addr + BLOCK_BYTES + blk.used)) align

/-- There is room for a header behind the used bytes. -/
def hasSlack (align : Nat) : Bool :=
  usize (blk.gap (blk.newAddr align) + BLOCK_BYTES) ≤ blk.size

end Block

/-- `merge_adjacent`: the head with the free blocks behind it on its page, and the rest. -/
def mergeAdjacent (head : Block) : List Block → Block × List Block
  | [] => (head, [])
  | cur :: rest =>
    if cur.free ∧ pageBase head.addr = pageBase cur.addr then
      mergeAdjacent (head.resize (u16 (head.size + (cur.size + BLOCK_BYTES)))) rest
    else (head, cur :: rest)

theorem mergeAdjacent_length (head : Block) (l : List Block) :
    (mergeAdjacent head l).2.length ≤ l.length := by
  induction l generalizing head with
  | nil => exact Nat.le_refl 0
  | cons cur rest ih =>
    rw [mergeAdjacent]
    split
    · exact Nat.le_succ_of_le (ih _)
    · exact Nat.le_refl _

/-- How many turns the loop of `kalloc` can still take. -/
def loopBound : List Block → Nat
  | [] => 0
  | blk :: rest => 2 * rest.length + if blk.free then 1 else 2

theorem loopBound_lt {l rest : List Block} (h : l.length ≤ rest.length) (blk : Block) :
    loopBound l < loopBound (blk :: rest) := by
  have hcons : 2 * rest.length < loopBound (blk :: rest) := by
    rw [loopBound]
    split <;> omega
  cases l with
  | nil => exact Nat.lt_of_le_of_lt (Nat.zero_le _) hcons
  | cons blk' l =>
    rw [List.length_cons] at h
    rw [loopBound]
    split <;> omega

/-- The loop of `kalloc`: the address of the block that it stops at, which is handed out, and the
list from the block where it starts on. -/
def kallocLoop (align size : Nat) (l : List Block) : Option Nat × List Block :=
  match l with
  | [] => (none, [])
  | blk :: rest =>
    if blk.free then
      let merged := mergeAdjacent blk rest
      if merged.1.fits align size then
        if merged.1.addr % align ≠ 0 then
          let (blk, splitBlk) := merged.1.split (merged.1.aligned align)
          (some splitBlk.addr, blk :: splitBlk.take size :: merged.2)
        else (some merged.1.addr, merged.1.take size :: merged.2)
      else
        let found := kallocLoop align size merged.2
        (found.1, merged.1 :: found.2)
    else if blk.hasSlack align then
      let found := kallocLoop align size ((blk.split (blk.newAddr align)).2 :: rest)
      (found.1, (blk.split (blk.newAddr align)).1 :: found.2)
    else
      let found := kallocLoop align size rest
      (found.1, blk :: found.2)
termination_by loopBound l
decreasing_by
  · exact loopBound_lt (mergeAdjacent_length blk rest) blk
  · simp_all [loopBound, Block.split]
  · exact loopBound_lt (Nat.le_refl _) blk

end KernelHeap

structure KernelHeap where
  freelist : Fin KALLOC_CPUS → List KernelHeap.Block
  live : List (Nat × Nat)

namespace KernelHeap

def kallocAlign (size : Nat) : Nat := if size % 8 = 0 then 8 else 4

def Fresh (s : KernelHeap) (pg : Nat) : Prop :=
  pg % PAGE_SIZE = 0 ∧ pg + PAGE_SIZE ≤ 2 ^ 64 ∧
    ∀ cpu, ∀ blk ∈ s.freelist cpu, pageBase blk.addr ≠ pg

instance (s : KernelHeap) (pg : Nat) : Decidable (s.Fresh pg) :=
  inferInstanceAs (Decidable (_ ∧ _ ∧ ∀ cpu, ∀ blk ∈ s.freelist cpu, pageBase blk.addr ≠ pg))

/-- The list of the processor after `kalloc`, and the pointer; `pg` is from `kalloc_page`. -/
def kalloc (s : KernelHeap) (cpu : Fin KALLOC_CPUS) (size pg : Nat) :
    Except Runs.Stop (Nat × List Block) :=
  match kallocLoop (kallocAlign size) size (s.freelist cpu) with
  | (some addr, l) => .ok (addr + BLOCK_BYTES, l)
  | (none, l) =>
    if s.Fresh pg then
      let newPage : Block := ⟨pg, PAGE_SIZE - BLOCK_BYTES, 0, true⟩
      .ok (newPage.addr + BLOCK_BYTES, newPage.take size :: l)
    else .error .disabled

/-- What `kfree` does to a list that has a block at the address. -/
def kfreeBlock (addr : Nat) : List Block → List Block
  | [] => []
  | blk :: rest =>
    if blk.addr = addr then
      let merged := mergeAdjacent blk rest
      { merged.1 with free := true } :: merged.2
    else blk :: kfreeBlock addr rest

inductive HeapCall where
  | kalloc (cpu : Fin KALLOC_CPUS) (size pg : Nat)
  | kfree (ptr : Nat)
deriving DecidableEq, Repr

/-- `kalloc` of at most a page, or `kfree` of a live pointer, on any processor. -/
def step (s : KernelHeap) : HeapCall → Except Runs.Stop KernelHeap
  | .kalloc cpu size pg =>
    if size ≤ PAGE_SIZE - BLOCK_BYTES then
      match s.kalloc cpu size pg with
      | .ok (ptr, l) => .ok ⟨Function.update s.freelist cpu l, (ptr, size) :: s.live⟩
      | .error e => .error e
    else .error .disabled
  | .kfree ptr =>
    if ptr ∈ s.live.map Prod.fst then
      .ok ⟨fun cpu => kfreeBlock (usizeSub ptr BLOCK_BYTES) (s.freelist cpu),
        s.live.filter fun a => a.1 ≠ ptr⟩
    else .error .disabled

def Init (s : KernelHeap) : Prop := s = ⟨fun _ => [], []⟩

end KernelHeap

end OsKernel
