import OsKernel.Lib.Bytes

/-!
# On-disk format

The constants of `fs/defines.h` and `fs/cache.h`, the super block, bitmap blocks,
inode and directory entries, the layout that `mkfs` computes, and the log header
with its representation in a block.
-/

namespace OsKernel

open List Bytes

variable {i : Nat}

abbrev BLOCK_SIZE : Nat := 512

/-- `sizeof(usize)`. -/
abbrev USIZE_BYTES : Nat := 8

/-- A value of type `usize`. -/
def usize (n : Nat) : Nat := n % 2 ^ 64

/-- `a - b` on values of type `usize`. -/
def usizeSub (a b : Nat) : Nat := usize (a + 2 ^ 64 - b)

theorem usize_lt (n : Nat) : usize n < 2 ^ 64 := Nat.mod_lt _ (by decide)

/-- The number of block numbers the log header has room for. -/
def LOG_MAX_SIZE : Nat := (BLOCK_SIZE - USIZE_BYTES) / USIZE_BYTES

def OP_MAX_NUM_BLOCKS : Nat := 10

def EVICTION_THRESHOLD : Nat := 20

theorem LOG_MAX_SIZE_eq : LOG_MAX_SIZE = 63 := rfl

theorem OP_MAX_NUM_BLOCKS_eq : OP_MAX_NUM_BLOCKS = 10 := rfl

abbrev Data := Bytes BLOCK_SIZE

variable {d : Data}

structure SuperBlock where
  numBlocks : Nat
  numDataBlocks : Nat
  numInodes : Nat
  numLogBlocks : Nat
  logStart : Nat
  inodeStart : Nat
  bitmapStart : Nat
deriving DecidableEq, Repr

/-! ## Inode blocks -/

/-- `sizeof(InodeEntry)`. -/
abbrev INODE_ENTRY_BYTES : Nat := 64

/-- `INODE_PER_BLOCK`, `IPB` in `mkfs`. -/
abbrev INODE_PER_BLOCK : Nat := BLOCK_SIZE / INODE_ENTRY_BYTES

/-- `to_block_no`: the block with the entry of an inode. -/
def SuperBlock.toBlockNo (sb : SuperBlock) (inodeNo : Nat) : Nat :=
  sb.inodeStart + inodeNo / INODE_PER_BLOCK

/-! ## Bitmap blocks -/

abbrev BIT_PER_BLOCK : Nat := BLOCK_SIZE * 8

namespace Bitmap

/-- `data[i / 8] & (1 << (i % 8))`. -/
def bit (d : Data) (i : Nat) : Bool := d.get (i / 8) &&& (1 <<< UInt8.ofNat (i % 8)) != 0

/-- `data[i / 8] |= 1 << (i % 8)`. -/
def setBit (d : Data) (i : Nat) : Data :=
  d.splice (i / 8) 1 fun _ => d.get (i / 8) ||| (1 <<< UInt8.ofNat (i % 8))

/-- `data[i / 8] &= ~(1 << (i % 8))`. -/
def clearBit (d : Data) (i : Nat) : Data :=
  d.splice (i / 8) 1 fun _ => d.get (i / 8) &&& ~~~(1 <<< UInt8.ofNat (i % 8))

/-- The first clear bit among the first `n`. -/
def firstClear (d : Data) (n : Nat) : Option Nat := (List.range n).find? fun i => !bit d i

theorem firstClear_eq_some {n : Nat} (h : firstClear d n = some i) :
    i < n ∧ bit d i = false :=
  ⟨mem_range.mp (mem_of_find?_eq_some h), by simpa using List.find?_some h⟩

theorem firstClear_eq_none {n : Nat} (h : firstClear d n = none) (hi : i < n) :
    bit d i = true := by
  simpa using List.find?_eq_none.mp h i (mem_range.mpr hi)

theorem mask_and : ∀ k m : Fin 8, (1 <<< UInt8.ofNat k.val : UInt8) &&& 1 <<< UInt8.ofNat m.val =
    if m = k then 1 <<< UInt8.ofNat m.val else 0 := by
  decide

theorem not_mask_and : ∀ k m : Fin 8,
    (~~~(1 <<< UInt8.ofNat k.val) : UInt8) &&& 1 <<< UInt8.ofNat m.val =
      if m = k then (0 : UInt8) else 1 <<< UInt8.ofNat m.val := by
  decide

theorem mask_ne_zero : ∀ m : Fin 8, (1 <<< UInt8.ofNat m.val : UInt8) ≠ 0 := by decide

theorem or_and_distrib (x a b : UInt8) : (x ||| a) &&& b = (x &&& b) ||| (a &&& b) := by
  apply UInt8.toBitVec_inj.mp
  ext i
  simp [Bool.and_or_distrib_right]

theorem or_mask (x : UInt8) (k m : Fin 8) :
    ((x ||| 1 <<< UInt8.ofNat k.val) &&& (1 <<< UInt8.ofNat m.val) != 0) =
      ((x &&& (1 <<< UInt8.ofNat m.val) != 0) || decide (m = k)) := by
  rw [or_and_distrib, mask_and]
  by_cases h : m = k
  · have hne := mask_ne_zero k
    simp [h, hne]
  · simp [h]

theorem and_not_mask (x : UInt8) (k m : Fin 8) :
    ((x &&& ~~~(1 <<< UInt8.ofNat k.val)) &&& (1 <<< UInt8.ofNat m.val) != 0) =
      ((x &&& (1 <<< UInt8.ofNat m.val) != 0) && !decide (m = k)) := by
  rw [UInt8.and_assoc, not_mask_and]
  by_cases h : m = k
  · simp [h]
  · simp [h]

theorem and_not_of_and_eq_zero {x m : UInt8} (h : x &&& m = 0) : x &&& ~~~m = x := by
  apply UInt8.toBitVec_inj.mp
  ext i hi
  have hbit := congrArg (fun v => v.toBitVec.getLsbD i) h
  simp [BitVec.getLsbD_eq_getElem hi] at hbit ⊢
  exact hbit

theorem bit_splice (d : Data) (hi : i < BIT_PER_BLOCK) (x : UInt8) (j : Nat) :
    bit (d.splice (i / 8) 1 fun _ => x) j =
      if j / 8 = i / 8 then x &&& (1 <<< UInt8.ofNat (j % 8)) != 0 else bit d j := by
  rw [bit, get_splice]
  by_cases hb : j / 8 = i / 8
  · have hlt : j / 8 < BLOCK_SIZE := by
      simp only [BIT_PER_BLOCK, BLOCK_SIZE] at *
      omega
    rw [if_pos ⟨hlt, by omega, by omega⟩, if_pos hb]
  · rw [if_neg (by omega), if_neg hb, bit]

theorem bit_setBit (d : Data) (hi : i < BIT_PER_BLOCK) (j : Nat) :
    bit (setBit d i) j = (bit d j || decide (j = i)) := by
  rw [setBit, bit_splice d hi]
  split
  next hb =>
    have hmask := or_mask (d.get (i / 8)) ⟨i % 8, by omega⟩ ⟨j % 8, by omega⟩
    have hiff : decide (j = i) = decide (j % 8 = i % 8) := by
      rw [decide_eq_decide]
      omega
    rw [hiff, bit, hb]
    simpa using hmask
  next hb =>
    have hne : j ≠ i := by
      rintro rfl
      exact hb rfl
    simp [hne]

theorem bit_clearBit (d : Data) (hi : i < BIT_PER_BLOCK) (j : Nat) :
    bit (clearBit d i) j = (bit d j && !decide (j = i)) := by
  rw [clearBit, bit_splice d hi]
  split
  next hb =>
    have hmask := and_not_mask (d.get (i / 8)) ⟨i % 8, by omega⟩ ⟨j % 8, by omega⟩
    have hiff : decide (j = i) = decide (j % 8 = i % 8) := by
      rw [decide_eq_decide]
      omega
    rw [hiff, bit, hb]
    simpa using hmask
  next hb =>
    have hne : j ≠ i := by
      rintro rfl
      exact hb rfl
    simp [hne]

theorem clearBit_of_clear (h : bit d i = false) : clearBit d i = d := by
  have hbyte := and_not_of_and_eq_zero (by simpa [bit] using h)
  funext j
  rw [clearBit, splice, hbyte]
  split
  next hj =>
    obtain hj' : j.val = i / 8 := by omega
    rw [← hj', Bytes.get, dif_pos j.isLt]
  next => rfl

end Bitmap

/-! ## Inode and directory entries -/

abbrev INODE_NUM_DIRECT : Nat := 12

/-- `INODE_NUM_INDIRECT`, with `sizeof(u32) = 4`. -/
abbrev INODE_NUM_INDIRECT : Nat := BLOCK_SIZE / 4

def INODE_MAX_BYTES : Nat := (INODE_NUM_DIRECT + INODE_NUM_INDIRECT) * BLOCK_SIZE

abbrev FILE_NAME_MAX_LENGTH : Nat := 14

abbrev INODE_INVALID : Nat := 0
abbrev INODE_DIRECTORY : Nat := 1
abbrev INODE_REGULAR : Nat := 2
abbrev INODE_DEVICE : Nat := 3

abbrev ROOT_INODE_NO : Nat := 1

/-- `InodeEntry`, byte by byte: `type`, `major`, `minor`, `num_links` (`u16`),
`num_bytes`, twelve `addrs` and `indirect` (`u32`). -/
abbrev InodeEntry := Bytes INODE_ENTRY_BYTES

namespace InodeEntry

variable (e : InodeEntry)

def type : Nat := e.readLE 0 2
def numLinks : Nat := e.readLE 6 2
def numBytes : Nat := e.readLE 8 4
def addr (i : Nat) : Nat := e.readLE (12 + 4 * i) 4
def indirect : Nat := e.readLE 60 4

def setType (v : Nat) : InodeEntry := e.writeLE 0 2 v
def setMajor (v : Nat) : InodeEntry := e.writeLE 2 2 v
def setMinor (v : Nat) : InodeEntry := e.writeLE 4 2 v
def setNumLinks (v : Nat) : InodeEntry := e.writeLE 6 2 v
def setNumBytes (v : Nat) : InodeEntry := e.writeLE 8 4 v
def setAddr (i v : Nat) : InodeEntry := e.writeLE (12 + 4 * i) 4 v
def setIndirect (v : Nat) : InodeEntry := e.writeLE 60 4 v

/-- The offset of the entry of an inode in its block. -/
def offset (inodeNo : Nat) : Nat := inodeNo % INODE_PER_BLOCK * INODE_ENTRY_BYTES

/-- `*get_entry(block, inode_no)`. -/
def ofBlock (d : Data) (inodeNo : Nat) : InodeEntry := fun i => d.get (offset inodeNo + i.val)

/-- `*get_entry(block, inode_no) = e`. -/
def intoBlock (d : Data) (inodeNo : Nat) : Data :=
  d.splice (offset inodeNo) INODE_ENTRY_BYTES e.get

theorem offset_le (no : Nat) : offset no + INODE_ENTRY_BYTES ≤ BLOCK_SIZE := by
  simp only [offset, INODE_PER_BLOCK, INODE_ENTRY_BYTES, BLOCK_SIZE] at *
  omega

theorem ofBlock_intoBlock (d : Data) (no : Nat) : ofBlock (e.intoBlock d no) no = e := by
  funext i
  have hi := i.isLt
  have hoff := offset_le no
  rw [ofBlock, intoBlock, get_splice_of_mem _ _ (by omega) (by omega) (by omega),
    Nat.add_sub_cancel_left, get_of_lt _ hi]

theorem ofBlock_intoBlock_of_ne (d : Data) {no no' : Nat}
    (h : no' % INODE_PER_BLOCK ≠ no % INODE_PER_BLOCK) :
    ofBlock (e.intoBlock d no) no' = ofBlock d no' := by
  funext i
  refine get_splice_of_not_mem _ _ ?_
  simp only [offset, INODE_PER_BLOCK, INODE_ENTRY_BYTES, BLOCK_SIZE] at *
  omega

theorem type_setType (v : Nat) : (e.setType v).type = v % 2 ^ 16 :=
  readLE_writeLE_self _ _ (by decide)

/-! Each field is read back, and the others stay. -/

section

variable (e : InodeEntry) (v : Nat)

theorem addr_lt (i : Nat) : e.addr i < 2 ^ 32 := readLE_lt _ _ _

theorem indirect_lt : e.indirect < 2 ^ 32 := readLE_lt _ _ _

theorem numBytes_lt : e.numBytes < 2 ^ 32 := readLE_lt _ _ _

theorem addr_setAddr_self (h : i < INODE_NUM_DIRECT) :
    (e.setAddr i v).addr i = v % 2 ^ 32 :=
  readLE_writeLE_self _ _ (by simp only [INODE_NUM_DIRECT, INODE_ENTRY_BYTES] at *; omega)

theorem addr_setAddr_of_ne {j : Nat} (h : j ≠ i) : (e.setAddr i v).addr j = e.addr j :=
  readLE_writeLE_of_disjoint _ _ (by omega)

theorem indirect_setAddr (h : i < INODE_NUM_DIRECT) :
    (e.setAddr i v).indirect = e.indirect :=
  readLE_writeLE_of_disjoint _ _ (by simp only [INODE_NUM_DIRECT] at h; omega)

theorem indirect_setIndirect : (e.setIndirect v).indirect = v % 2 ^ 32 :=
  readLE_writeLE_self _ _ (by decide)

theorem addr_setIndirect (h : i < INODE_NUM_DIRECT) :
    (e.setIndirect v).addr i = e.addr i :=
  readLE_writeLE_of_disjoint _ _ (by simp only [INODE_NUM_DIRECT] at h; omega)

theorem numBytes_setNumBytes : (e.setNumBytes v).numBytes = v % 2 ^ 32 :=
  readLE_writeLE_self _ _ (by decide)

@[simp] theorem addr_setNumBytes (i : Nat) : (e.setNumBytes v).addr i = e.addr i :=
  readLE_writeLE_of_disjoint _ _ (by omega)

@[simp] theorem indirect_setNumBytes : (e.setNumBytes v).indirect = e.indirect :=
  readLE_writeLE_of_disjoint _ _ (by decide)

@[simp] theorem type_setNumBytes : (e.setNumBytes v).type = e.type :=
  readLE_writeLE_of_disjoint _ _ (by decide)

@[simp] theorem numLinks_setNumBytes : (e.setNumBytes v).numLinks = e.numLinks :=
  readLE_writeLE_of_disjoint _ _ (by decide)

@[simp] theorem addr_setType (i : Nat) : (e.setType v).addr i = e.addr i :=
  readLE_writeLE_of_disjoint _ _ (by omega)

@[simp] theorem indirect_setType : (e.setType v).indirect = e.indirect :=
  readLE_writeLE_of_disjoint _ _ (by decide)

@[simp] theorem addr_setNumLinks (i : Nat) : (e.setNumLinks v).addr i = e.addr i :=
  readLE_writeLE_of_disjoint _ _ (by omega)

@[simp] theorem indirect_setNumLinks : (e.setNumLinks v).indirect = e.indirect :=
  readLE_writeLE_of_disjoint _ _ (by decide)

@[simp] theorem type_setNumLinks : (e.setNumLinks v).type = e.type :=
  readLE_writeLE_of_disjoint _ _ (by decide)

@[simp] theorem numBytes_setNumLinks : (e.setNumLinks v).numBytes = e.numBytes :=
  readLE_writeLE_of_disjoint _ _ (by decide)

end

/-- Two entries agree outside the addresses: in `type`, `major`, `minor`, `num_links` and
`num_bytes`. -/
def SameAttrs (e e' : InodeEntry) : Prop := ∀ k < 12, e'.get k = e.get k

namespace SameAttrs

variable {e e' e'' : InodeEntry}

theorem refl (e : InodeEntry) : SameAttrs e e := fun _ _ => rfl

section

variable (h : SameAttrs e e')

include h

theorem trans (h' : SameAttrs e' e'') : SameAttrs e e'' :=
  fun k hk => (h' k hk).trans (h k hk)

theorem type : e'.type = e.type :=
  readLE_congr fun k _ hk => h k (by omega)

theorem numLinks : e'.numLinks = e.numLinks :=
  readLE_congr fun k _ hk => h k (by omega)

theorem numBytes : e'.numBytes = e.numBytes :=
  readLE_congr fun k _ hk => h k (by omega)

end

theorem setAddr (e : InodeEntry) (i v : Nat) : SameAttrs e (e.setAddr i v) :=
  fun k hk => get_splice_of_not_mem _ _ (by omega)

theorem setIndirect (e : InodeEntry) (v : Nat) : SameAttrs e (e.setIndirect v) :=
  fun k hk => get_splice_of_not_mem _ _ (by omega)

end SameAttrs

end InodeEntry

/-- `sizeof(DirEntry)`. -/
abbrev DIR_ENTRY_BYTES : Nat := 16

/-- `DirEntry`, byte by byte: `inode_no` (`u16`) and `name`. -/
abbrev DirEntry := Bytes DIR_ENTRY_BYTES

namespace DirEntry

def inodeNo (e : DirEntry) : Nat := e.readLE 0 2

def name (e : DirEntry) (i : Nat) : UInt8 := e.get (2 + i)

end DirEntry

/-- Entry `i` of an `IndirectBlock`. -/
def indirectAddr (d : Data) (i : Nat) : Nat := d.readLE (4 * i) 4

def setIndirectAddr (d : Data) (i v : Nat) : Data := d.writeLE (4 * i) 4 v

theorem indirectAddr_lt (d : Data) (i : Nat) : indirectAddr d i < 2 ^ 32 := readLE_lt _ _ _

theorem indirectAddr_setIndirectAddr_self (d : Data) (v : Nat)
    (h : i < INODE_NUM_INDIRECT) : indirectAddr (setIndirectAddr d i v) i = v % 2 ^ 32 :=
  readLE_writeLE_self _ _ (by simp only [INODE_NUM_INDIRECT, BLOCK_SIZE] at *; omega)

theorem indirectAddr_setIndirectAddr_of_ne (d : Data) {j : Nat} (v : Nat) (h : j ≠ i) :
    indirectAddr (setIndirectAddr d i v) j = indirectAddr d j :=
  readLE_writeLE_of_disjoint _ _ (by omega)

theorem indirectAddr_zero (i : Nat) : indirectAddr Bytes.zero i = 0 := readLE_zero _ _

/-! ## The layout of `mkfs` -/

namespace Mkfs

def NINODES : Nat := 200

def FSSIZE : Nat := 1000

def nbitmap : Nat := FSSIZE / (BLOCK_SIZE * 8) + 1

def ninodeblocks : Nat := NINODES / INODE_PER_BLOCK + 1

/-- `num_log_blocks = LOGSIZE`. -/
def numLogBlocks : Nat := LOG_MAX_SIZE

def nmeta : Nat := 2 + numLogBlocks + ninodeblocks + nbitmap

/-- The super block that `main` of `mkfs` fills in. -/
def superBlock : SuperBlock where
  numBlocks := FSSIZE
  numDataBlocks := FSSIZE - nmeta
  numInodes := NINODES
  numLogBlocks := numLogBlocks
  logStart := 2
  inodeStart := 2 + numLogBlocks
  bitmapStart := 2 + numLogBlocks + ninodeblocks

end Mkfs

/-! ## The log header -/

/-- `LogHeader`.  Of `block_no` the first `LOG_MAX_SIZE` entries exist. -/
structure LogHeader where
  numBlocks : Nat
  blockNo : Nat → Nat

namespace LogHeader

def logged (h : LogHeader) : List Nat := (List.range h.numBlocks).map h.blockNo

/-- `header.block_no[header.num_blocks] = b; header.num_blocks++`. -/
def push (h : LogHeader) (b : Nat) : LogHeader where
  numBlocks := h.numBlocks + 1
  blockNo := fun i => if i = h.numBlocks then b else h.blockNo i

/-- `header.num_blocks = 0`. -/
def clear (h : LogHeader) : LogHeader := { h with numBlocks := 0 }

/-- The bytes of the header: `num_blocks`, then the array, each entry eight
bytes. -/
def toData (h : LogHeader) : Data := fun i =>
  if i.val < USIZE_BYTES then Bytes.byte h.numBlocks i.val
  else Bytes.byte (h.blockNo ((i.val - USIZE_BYTES) / USIZE_BYTES))
    ((i.val - USIZE_BYTES) % USIZE_BYTES)

def ofData (d : Data) : LogHeader where
  numBlocks := d.readLE 0 USIZE_BYTES
  blockNo := fun i => d.readLE (USIZE_BYTES + USIZE_BYTES * i) USIZE_BYTES

@[simp] theorem length_logged (h : LogHeader) : h.logged.length = h.numBlocks := by
  simp [logged]

variable {i : Nat} {h : LogHeader}

theorem getElem_logged (h : LogHeader) (hi : i < h.logged.length) : h.logged[i] = h.blockNo i := by
  simp [logged]

theorem mem_logged {b : Nat} : b ∈ h.logged ↔ ∃ i, i < h.numBlocks ∧ h.blockNo i = b := by
  simp [logged]

theorem blockNo_mem_logged (hi : i < h.numBlocks) :
    h.blockNo i ∈ h.logged := mem_logged.mpr ⟨i, hi, rfl⟩

@[simp] theorem numBlocks_push (h : LogHeader) (b : Nat) :
    (h.push b).numBlocks = h.numBlocks + 1 := rfl

@[simp] theorem logged_push (h : LogHeader) (b : Nat) : (h.push b).logged = h.logged ++ [b] := by
  rw [logged, numBlocks_push, range_succ, map_append, map_singleton]
  congr 1
  · refine map_congr_left fun i hi => ?_
    simp [push, Nat.ne_of_lt (mem_range.mp hi)]
  · simp [push]

@[simp] theorem numBlocks_clear (h : LogHeader) : h.clear.numBlocks = 0 := rfl

theorem logged_eq_nil (hn : h.numBlocks = 0) : h.logged = [] := by
  simp [logged, hn]

/-! ### The header survives a write and a read -/

theorem get_toData_low (h : LogHeader) (hi : i < USIZE_BYTES) :
    h.toData.get i = Bytes.byte h.numBlocks i := by
  rw [get_of_lt _ (Nat.lt_trans hi (by decide))]
  simp [toData, hi]

theorem get_toData_high (h : LogHeader) {j : Nat} (hi : i < LOG_MAX_SIZE) (hj : j < USIZE_BYTES) :
    h.toData.get (USIZE_BYTES + USIZE_BYTES * i + j) = Bytes.byte (h.blockNo i) j := by
  rw [LOG_MAX_SIZE_eq] at hi
  simp only [USIZE_BYTES] at hj ⊢
  have hlt : 8 + 8 * i + j < BLOCK_SIZE := by
    simp only [BLOCK_SIZE]
    omega
  have h1 : ¬ 8 + 8 * i + j < 8 := by omega
  have h2 : (8 + 8 * i + j - 8) / 8 = i := by omega
  have h3 : (8 + 8 * i + j - 8) % 8 = j := by omega
  rw [get_of_lt _ hlt]
  simp only [toData, USIZE_BYTES, h1, if_false, h2, h3]

theorem numBlocks_ofData_toData (h : LogHeader) :
    (ofData h.toData).numBlocks = h.numBlocks % 2 ^ 64 := by
  have := readLE_of_bytes (d := h.toData) (v := h.numBlocks) (k := 8) 0 0
    fun i hi => by rw [Nat.zero_add, get_toData_low h hi]
  simpa [ofData] using this

theorem blockNo_ofData_toData (h : LogHeader) (hi : i < LOG_MAX_SIZE) :
    (ofData h.toData).blockNo i = h.blockNo i % 2 ^ 64 := by
  have := readLE_of_bytes (d := h.toData) (v := h.blockNo i) (k := 8)
    (USIZE_BYTES + USIZE_BYTES * i) 0
    fun j hj => by rw [Nat.zero_add, get_toData_high h hi hj]
  simpa [ofData] using this

/-- Block numbers of type `usize` in a header that is not overfull are read back
as they were written. -/
theorem logged_ofData_toData (h : LogHeader) (hn : h.numBlocks ≤ LOG_MAX_SIZE)
    (hb : ∀ b ∈ h.logged, b < 2 ^ 64) : (ofData h.toData).logged = h.logged := by
  have hnum : (ofData h.toData).numBlocks = h.numBlocks := by
    rw [numBlocks_ofData_toData, Nat.mod_eq_of_lt]
    rw [LOG_MAX_SIZE_eq] at hn
    omega
  rw [logged, logged, hnum]
  refine map_congr_left fun i hi => ?_
  rw [mem_range] at hi
  rw [blockNo_ofData_toData h (by omega), Nat.mod_eq_of_lt (hb _ (blockNo_mem_logged hi))]

theorem numBlocks_ofData_zero : (ofData Bytes.zero).numBlocks = 0 := readLE_zero 0 USIZE_BYTES

theorem numBlocks_ofData_clear (h : LogHeader) : (ofData h.clear.toData).numBlocks = 0 := by
  rw [numBlocks_ofData_toData]
  rfl

end LogHeader

end OsKernel
