import OsKernel.Fs.FileContents
import OsKernel.Fs.MockCache

/-!
# Files are byte arrays

Sequences of `inode_write` and `inode_clear` on one inode, against the byte array that the
same writes give: `FileOp.apply` splices the written buffer into the array, and a clear
empties it.  On a block store that does not stop and has room for the longest file, every
call returns, the file is the array, and `inode_read` returns its slices.
-/

namespace OsKernel

open Prog List

variable {offset : Nat} {src : List UInt8}

/-! ## Byte arrays -/

inductive FileOp where
  | write (offset : Nat) (src : List UInt8)
  | clear
deriving DecidableEq, Repr

variable {ops : List FileOp}

namespace FileOp

def apply (bs : List UInt8) : FileOp → List UInt8
  | .write offset src => bs.take offset ++ src ++ bs.drop (offset + src.length)
  | .clear => []

def array (ops : List FileOp) : List UInt8 := ops.foldl apply []

/-- The largest end of a write since the last clear. -/
def maxEnd (ops : List FileOp) : Nat :=
  ops.foldl (fun m op =>
    match op with
    | .write offset src => max m (offset + src.length)
    | .clear => 0) 0

/-- A write starts in the array or at its end, and ends where a file can end. -/
def Fits (bs : List UInt8) : FileOp → Prop
  | .write offset src => offset ≤ bs.length ∧ offset + src.length ≤ INODE_MAX_BYTES
  | .clear => True

instance (bs : List UInt8) : (op : FileOp) → Decidable (op.Fits bs)
  | .write _ _ => inferInstanceAs (Decidable (_ ∧ _))
  | .clear => .isTrue trivial

/-- Every call fits the array that the calls before it give. -/
def AllFit : List UInt8 → List FileOp → Prop
  | _, [] => True
  | bs, op :: ops => op.Fits bs ∧ AllFit (op.apply bs) ops

instance decidableAllFit : (bs : List UInt8) → (ops : List FileOp) → Decidable (AllFit bs ops)
  | _, [] => .isTrue trivial
  | bs, op :: ops =>
    have := decidableAllFit (op.apply bs) ops
    inferInstanceAs (Decidable (_ ∧ _))

theorem length_apply_write {bs : List UInt8} (h : offset ≤ bs.length) :
    (apply bs (.write offset src)).length = max bs.length (offset + src.length) := by
  simp only [apply, length_append, length_take, length_drop]
  omega

theorem getD_apply_write {bs : List UInt8} (h : offset ≤ bs.length) (j : Nat) :
    (apply bs (.write offset src)).getD j 0 =
      if offset ≤ j ∧ j < offset + src.length then src.getD (j - offset) 0 else bs.getD j 0 := by
  simp only [apply, getD_eq_getElem?_getD, List.getElem?_append, length_append,
    length_take, Nat.min_eq_left h]
  by_cases h1 : j < offset
  · rw [if_pos (by omega), if_pos h1, if_neg (by omega), List.getElem?_take_of_lt h1]
  · by_cases h2 : j < offset + src.length
    · rw [if_pos h2, if_neg h1, if_pos (by omega)]
    · rw [if_neg h2, if_neg (by omega), List.getElem?_drop, Nat.add_sub_cancel' (by omega)]

theorem length_array_from : ∀ {bs : List UInt8}, AllFit bs ops →
    (ops.foldl apply bs).length = ops.foldl (fun m op =>
      match op with
      | .write offset src => max m (offset + src.length)
      | .clear => 0) bs.length := by
  induction ops with
  | nil => exact fun _ => rfl
  | cons op ops ih =>
    rintro bs ⟨hop, hrest⟩
    rw [foldl_cons, foldl_cons, ih hrest]
    cases op with
    | write offset src => rw [length_apply_write hop.1]
    | clear => rfl

theorem length_array (h : AllFit [] ops) :
    (array ops).length = maxEnd ops := length_array_from h

/-- The call on the inode at `ip`. -/
def run {κ : Type} (env : FsEnv κ) (ctx ip : Nat) : FileOp → FsM κ Unit
  | .write offset src => do
    let _ ← inodeWrite env (some ctx) ip (fun i => src.getD i 0) offset src.length
    return ()
  | .clear => inodeClear env (some ctx) ip

end FileOp

/-! ## The file and the array -/

section

variable {κ : Type} {env : FsEnv κ} {B : StoreView κ} {s : Fs κ} {ip ctx : Nat} {c c' : κ}
  {e e' : InodeEntry} {bs : List UInt8} {sb : SuperBlock} {no : Nat}

/-- The entry is that of a file with the bytes `bs`, on a store with room for the longest
file. -/
structure FileIs (B : StoreView κ) (c : κ) (e : InodeEntry) (bs : List UInt8) : Prop where
  settled : B.Settled c
  file : FileOk B c e
  type : e.type ≠ INODE_DEVICE
  size : e.numBytes = bs.length
  fits : bs.length ≤ INODE_MAX_BYTES
  full : Full (B.view c) e bs.length
  bytes : ∀ j < bs.length, byteAt (B.view c) e j = bs.getD j 0
  room : MAX_BLOCKS + 1 ≤ B.room c + (refs (B.view c) e).length

theorem FileIs.not_stops (h : FileIs B c e bs) (hstop : ¬ B.stops) :
    ¬ (B.stops ∨ B.Scarce c e) := by
  rintro (hst | hroom)
  · exact hstop hst
  · exact absurd h.room (Nat.not_le.mpr hroom)

theorem FileIs.empty (hs : B.Settled c) (htype : e.type ≠ INODE_DEVICE)
    (hd : ∀ i < INODE_NUM_DIRECT, e.addr i = 0) (hi : e.indirect = 0) (hn : e.numBytes = 0)
    (hroom : MAX_BLOCKS + 1 ≤ B.room c) : FileIs B c e [] where
  settled := hs
  file := by
    have hnil : refs (B.view c) e = [] := refs_eq_nil hd hi
    constructor <;> rw [hnil]
    · exact nodup_nil
    · exact fun _ h => nomatch h
    · exact fun _ h => nomatch h
  type := htype
  size := hn
  fits := Nat.zero_le _
  full := fun i h => absurd h (Nat.not_lt_zero _)
  bytes := fun j h => absurd h (Nat.not_lt_zero _)
  room := Nat.le_trans hroom (Nat.le_add_right _ _)

theorem FileIs.written (h : FileIs B c e bs) (hfit : (FileOp.write offset src).Fits bs)
    (hw : FileWritten B sb no c e offset src.length (fun i => src.getD i 0) c' e') :
    FileIs B c' e' (FileOp.apply bs (.write offset src)) := by
  obtain ⟨hoff, hmax⟩ := hfit
  have hlen : (FileOp.apply bs (.write offset src)).length = max bs.length (offset + src.length) :=
    FileOp.length_apply_write hoff
  have hsize : e'.numBytes = (FileOp.apply bs (.write offset src)).length := by
    rw [hw.numBytes, h.size, hlen]
  refine ⟨hw.settled, hw.file, hw.type ▸ h.type, hsize, ?_, hsize ▸ hw.full, fun j hj => ?_, ?_⟩
  · rw [hlen]
    exact Nat.max_le.mpr ⟨h.fits, hmax⟩
  · rw [hw.bytes j (hsize ▸ hj), FileOp.getD_apply_write hoff]
    split
    · rfl
    next hout => exact h.bytes j (by omega)
  · rw [hw.room]
    exact h.room

theorem FileIs.cleared (h : FileIs B c e bs) (hc : Cleared B sb no c e c' e') :
    FileIs B c' e' [] := by
  refine .empty hc.settled (hc.type ▸ h.type) hc.direct hc.indirect hc.numBytes ?_
  have hroom := hc.room
  rw [refs_eq_nil hc.direct hc.indirect, length_nil, Nat.add_zero] at hroom
  rw [hroom]
  exact h.room

theorem post_run (L : StoreLaws env.cache B) (hib : InodeBlocks B env.sb) (hstop : ¬ B.stops)
    (hno : (s.inodes ip).inodeNo < env.sb.numInodes) (h : FileIs B c e bs) {op : FileOp}
    (hfit : op.Fits bs) :
    Post (fun _ s' => ∃ c' e', s' = s.setFile ip c' e' ∧ FileIs B c' e' (op.apply bs))
      (fun _ => False) ((op.run env ctx ip).exec (s.setFile ip c e)) := by
  cases op with
  | write offset src =>
    refine (post_inodeWrite L hib (h.not_stops hstop) h.settled h.file hno h.type
      (h.size ▸ h.full) (h.size ▸ h.fits) (h.size ▸ hfit.1) hfit.2).bind ?_
    rintro _ _ ⟨-, c', e', rfl, hw⟩
    exact ⟨c', e', rfl, h.written hfit hw⟩
  | clear =>
    refine (post_inodeClear L hib hstop h.settled h.file hno).imp ?_ fun _ hf => hf
    rintro _ _ ⟨c', e', rfl, hc⟩
    exact ⟨c', e', rfl, h.cleared hc⟩

theorem post_runs (ctx : Nat) (L : StoreLaws env.cache B) (hib : InodeBlocks B env.sb) (hstop : ¬ B.stops)
    (hno : (s.inodes ip).inodeNo < env.sb.numInodes) :
    ∀ {c : κ} {e : InodeEntry} {bs : List UInt8}, FileIs B c e bs → FileOp.AllFit bs ops →
    Post (fun _ s' => ∃ c' e', s' = s.setFile ip c' e' ∧ FileIs B c' e' (ops.foldl FileOp.apply bs))
      (fun _ => False) ((ops.forM fun op => op.run env ctx ip).exec (s.setFile ip c e)) := by
  induction ops with
  | nil => exact fun h _ => ⟨_, _, rfl, h⟩
  | cons op ops ih =>
    rintro c e bs h ⟨hop, hrest⟩
    refine (post_run L hib hstop hno h hop).bind ?_
    rintro _ _ ⟨c', e', rfl, h'⟩
    exact ih h' hrest

/-- An inode that is not a device, with a zero-initialised entry, on a store with room for the
longest file. -/
structure ZeroInode (B : StoreView κ) (sb : SuperBlock) (s : Fs κ) (ip : Nat) : Prop where
  settled : B.Settled s.cache
  inode : (s.inodes ip).inodeNo < sb.numInodes
  type : (s.inodes ip).entry.type ≠ INODE_DEVICE
  direct : ∀ i < INODE_NUM_DIRECT, (s.inodes ip).entry.addr i = 0
  indirect : (s.inodes ip).entry.indirect = 0
  numBytes : (s.inodes ip).entry.numBytes = 0
  room : MAX_BLOCKS + 1 ≤ B.room s.cache

/-- Files are byte arrays: the calls return, the file is as long as the array and has all
its blocks, and `inode_read` returns the slices of the array. -/
theorem file_is_byte_array (ctx : Nat) (ops : List FileOp) (L : StoreLaws env.cache B)
    (hib : InodeBlocks B env.sb) (hstop : ¬ B.stops) (h : ZeroInode B env.sb s ip)
    (hops : FileOp.AllFit [] ops) :
    ∃ s', (ops.forM fun op => op.run env ctx ip).exec s = (.ok (), s') ∧
      (s'.inodes ip).entry.numBytes = (FileOp.array ops).length ∧
      (s'.inodes ip).entry.numBytes = FileOp.maxEnd ops ∧
      (∀ i < ((s'.inodes ip).entry.numBytes + (BLOCK_SIZE - 1)) / BLOCK_SIZE,
        fileBlock (B.view s'.cache) (s'.inodes ip).entry i ≠ 0) ∧
      ∀ (offset count : Nat) (dest : Nat → UInt8), offset ≤ (s'.inodes ip).entry.numBytes →
        offset + count < 2 ^ 64 →
        ∃ dest' s'', (inodeRead env ip dest offset count).exec s' =
            (.ok (dest', min count ((s'.inodes ip).entry.numBytes - offset)), s'') ∧
          ∀ i, dest' i = if i < min count ((s'.inodes ip).entry.numBytes - offset)
            then (FileOp.array ops).getD (offset + i) 0 else dest i := by
  have h0 : FileIs B s.cache (s.inodes ip).entry [] :=
    .empty h.settled h.type h.direct h.indirect h.numBytes h.room
  obtain ⟨_, s', hexec, c', e', rfl, hf⟩ :=
    (post_runs ctx L hib hstop h.inode h0 hops).returns fun _ hf => hf
  rw [Fs.setFile_self] at hexec
  refine ⟨_, hexec, ?_⟩
  rw [Fs.inodes_setFile, Fs.cache_setFile]
  refine ⟨hf.size, hf.size.trans (FileOp.length_array hops), fun i hi => hf.full i ?_,
    fun offset count dest hoff hlt => ?_⟩
  · rw [← hf.size]
    simp only [BLOCK_SIZE] at *
    omega
  obtain ⟨⟨dest', n⟩, s'', hexec', hn, hdest, -⟩ := (post_inodeRead (P := False) L hf.settled
    hf.file hf.type (hf.size ▸ hf.full) (hf.size ▸ hf.fits) hoff hlt).returns fun _ hf => hf
  dsimp only at hn hdest
  subst hn
  refine ⟨dest', s'', hexec', fun i => ?_⟩
  rw [hdest i]
  split
  next hi => exact hf.bytes _ (by have := hf.size; omega)
  next => rfl

end

namespace MockCache

/-- A regular file that has just been allocated, at address 0. -/
def start : Fs MockCache where
  cache := ⟨fun _ => Bytes.zero, fun _ => false, fun _ => false⟩
  inodes := fun _ => { initInode with
    inodeNo := 2
    rc := 1
    valid := true
    entry := InodeEntry.setType Bytes.zero INODE_REGULAR }
  inodeHead := [0]
  inodeBrk := 1
  cwd := 0
  junk := fun _ _ => 0
  loads := []

theorem inodeBlocks : InodeBlocks view superBlock := by
  have h : ∀ no < superBlock.numInodes, superBlock.toBlockNo no < BLOCK_START := fun no hno => by
    simp only [superBlock, SuperBlock.toBlockNo, BLOCK_START, INODE_PER_BLOCK, INODE_ENTRY_BYTES,
      BLOCK_SIZE] at hno ⊢
    omega
  refine ⟨fun no hno => .inl (h no hno), fun no hno hown => ?_, fun no hno => ?_⟩
  · have := h no hno
    simp only [view, BLOCK_START, NUM_BLOCKS] at this hown
    omega
  · exact Nat.lt_trans (h no hno) (by decide)

theorem settled_start : view.Settled start.cache := ⟨trivial, fun _ => rfl, fun _ _ _ => trivial⟩

theorem room_start : view.room start.cache = 1000 := by
  show (freeBlocks _).card = 1000
  have hall : start.cache.freeBlocks = Finset.Ico BLOCK_START NUM_BLOCKS :=
    Finset.filter_true_of_mem fun _ _ => rfl
  rw [hall, Nat.card_Ico]
  rfl

theorem zeroInode_start : ZeroInode view superBlock start 0 := by
  have hzero : ∀ off k, 2 ≤ off →
      Bytes.readLE (InodeEntry.setType Bytes.zero INODE_REGULAR) off k = 0 := fun off k h => by
    rw [InodeEntry.setType, Bytes.readLE_writeLE_of_disjoint _ _ (.inr h), Bytes.readLE_zero]
  refine ⟨settled_start, by decide, ?_, fun i _ => hzero _ _ (by omega), hzero _ _ (by decide),
    hzero _ _ (by decide), by rw [room_start]; decide⟩
  show (InodeEntry.setType Bytes.zero INODE_REGULAR).type ≠ INODE_DEVICE
  rw [InodeEntry.type_setType]
  decide

def fourCalls : List FileOp := [.write 0 [1, 2, 3], .write 2 [4, 5], .clear, .write 0 [6, 7]]

theorem file_is_byte_array_mock :
    ∃ s', (fourCalls.forM fun op => FileOp.run env 0 0 op).exec start = (.ok (), s') ∧
      (s'.inodes 0).entry.numBytes = 2 ∧
      ∃ dest s'', (inodeRead env 0 (fun _ => 0) 1 10).exec s' = (.ok (dest, 1), s'') ∧
        dest 0 = 7 := by
  obtain ⟨s', hexec, -, hsize, -, hread⟩ := file_is_byte_array 0 fourCalls
    (show StoreLaws env.cache view from laws) inodeBlocks id zeroInode_start (by decide)
  obtain ⟨dest, s'', hexec', hdest⟩ := hread 1 10 (fun _ => 0) (by rw [hsize]; decide) (by decide)
  rw [hsize] at hexec' hdest
  exact ⟨s', hexec, hsize, dest, s'', hexec', by rw [hdest]; rfl⟩

/-- At the end of a file of one byte, a count that wraps around makes `inode_read` fail its
assertion. -/
theorem inode_read_count_wraps :
    ∃ s', (FileOp.run env 0 0 (.write 0 [7])).exec start = (.ok (), s') ∧
      (s'.inodes 0).entry.numBytes = 1 ∧ 1 ≤ (s'.inodes 0).entry.numBytes ∧
      ∃ s'', (inodeRead env 0 (fun _ => 0) 1 (2 ^ 64 - 1)).exec s' = (.error .panic, s'') := by
  obtain ⟨_, s', hexec, c', e', rfl, hf⟩ := (post_run (show StoreLaws env.cache view from laws)
    inodeBlocks id zeroInode_start.inode (.empty settled_start zeroInode_start.type zeroInode_start.direct
      zeroInode_start.indirect zeroInode_start.numBytes zeroInode_start.room)
    (show (FileOp.write 0 [7]).Fits [] by decide)).returns fun _ hf => hf
  rw [Fs.setFile_self] at hexec
  have hn := hf.size
  refine ⟨_, hexec, hn, Nat.le_of_eq hn.symm, _, exec_inodeRead_overflow env hf.type
    (Nat.le_of_eq hn.symm) (by decide) (by decide)⟩

end MockCache

end OsKernel
