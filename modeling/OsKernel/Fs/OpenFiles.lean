import OsKernel.Fs.FileArray
import OsKernel.Fs.FileWrite

/-!
# Reading and writing open files

`file_read` and `file_write` on open regular files, and the system calls `read` and `write`.  What
`file_write` does in several operations is one write of the bytes of the file, if nobody else uses
the `File` meanwhile.  In general the calls of several processes interleave, and each operation of
`file_write` starts at the offset that it finds.  Neither call fails an assertion of the inode layer
as long as each operation ends within `INODE_MAX_BYTES`: an open file starts at offset 0, and no call
moves its offset past the end of the file.
-/

namespace OsKernel

open Prog Function

variable {src : Nat → UInt8} {v : Nat → Data} {sb : SuperBlock} {κ : Type}
  {env : FsEnv κ} {B : StoreView κ} {O : OpView κ} {s s' : Fs κ}

/-! ## The bytes of a file -/

def fileBytes (v : Nat → Data) (e : InodeEntry) : List UInt8 :=
  (List.range e.numBytes).map (byteAt v e)

@[simp] theorem length_fileBytes (v : Nat → Data) (e : InodeEntry) :
    (fileBytes v e).length = e.numBytes := by
  rw [fileBytes, List.length_map, List.length_range]

variable {e : InodeEntry} {bs : List UInt8} {offset count ip : Nat} {c : κ}

theorem getD_fileBytes {j : Nat} (h : j < e.numBytes) :
    (fileBytes v e).getD j 0 = byteAt v e j := by
  rw [fileBytes, List.getD_eq_getElem?_getD, List.getElem?_map, List.getElem?_range h]
  rfl

theorem fileBytes_eq
    (hlen : e.numBytes = bs.length) (h : ∀ j < e.numBytes, byteAt v e j = bs.getD j 0) :
    fileBytes v e = bs := by
  refine List.ext_getElem (by rw [length_fileBytes, hlen]) fun j hj hj' => ?_
  have hj'' : j < e.numBytes := by rwa [length_fileBytes] at hj
  rw [← List.getD_eq_getElem _ 0 hj, ← List.getD_eq_getElem _ 0 hj', getD_fileBytes hj'', h j hj'']

theorem FileWritten.fileBytes {no : Nat} {c' : κ}
    {e' : InodeEntry} (h : FileWritten B sb no c e offset count src c' e')
    (hoff : offset ≤ e.numBytes) :
    fileBytes (B.view c') e' =
      FileOp.apply (fileBytes (B.view c) e) (.write offset ((List.range count).map src)) := by
  have hoff' : offset ≤ (OsKernel.fileBytes (B.view c) e).length := by rwa [length_fileBytes]
  have hlen : ((List.range count).map src).length = count := by simp
  refine fileBytes_eq ?_ fun j hj => ?_
  · rw [h.numBytes, FileOp.length_apply_write hoff', length_fileBytes, hlen]
  rw [h.bytes j hj, FileOp.getD_apply_write hoff', hlen]
  split
  next hin =>
    rw [List.getD_eq_getElem?_getD, List.getElem?_map, List.getElem?_range (by omega)]
    rfl
  next hout =>
    have hnum := h.numBytes
    rw [getD_fileBytes (by omega)]

/-! ## Regular files -/

theorem RegularFile.of_same (L : StoreLaws env.cache B) (hib : InodeBlocks B env.sb)
    (h : RegularFile B env.sb s ip) (hs : B.Same s.cache c) :
    RegularFile B env.sb { s with cache := c } ip where
  ok := h.ok.of_same L hib hs s.junk
  mem := h.mem
  rc := h.rc
  type := h.type
  size := h.size
  full := h.full.of_same L (h.ok.file h.mem) hs

theorem RegularFile.other (L : StoreLaws env.cache B) (hib : InodeBlocks B env.sb) {jp : Nat}
    (h : RegularFile B env.sb s jp) (hip : ip ∈ s.inodeHead) (hne : jp ≠ ip)
    (hw : FileWritten B env.sb (s.inodes ip).inodeNo s.cache (s.inodes ip).entry offset count src c e) :
    RegularFile B env.sb (s.setFile ip c e) jp := by
  have hr := h.ok.resident ip hip
  have hrj := h.ok.resident jp h.mem
  have hent := hw.written hr.entry.symm
  have hno : (s.inodes jp).inodeNo ≠ (s.inodes ip).inodeNo := fun he => hne (h.ok.inj h.mem hip he)
  have hstep := hw.toFileStep
  rw [hr.entry] at hstep
  have hkept := h.ok.volume.other L hib hr.inode hstep hrj.inode hno
  have hi := s.inodes_setFile_of_ne c e hne
  refine ⟨h.ok.file_step L hib hip hw.toFileStep hent, h.mem, ?_, ?_, ?_, ?_⟩ <;> rw [hi]
  · exact h.rc
  · exact h.type
  · exact h.size
  intro i hlt
  have hfull := h.full i hlt
  rw [Fs.cache_setFile, fileBlock_congr (e := (s.inodes jp).entry) (v := B.view s.cache)
    (fun _ _ => rfl) rfl fun h0 => ?_]
  · exact hfull
  · rw [hrj.entry] at h0 ⊢
    exact hkept.data _ (indirect_mem_refs h0)

/-! ## `file_read` -/

/-- A `File` of type `FD_INODE`, with its field `readable`. -/
structure OpenFile extends InodeFile where
  readable : Bool

variable {f g : OpenFile}

/-- The conversions between `isize` and `usize`. -/
def usizeOfInt (n : Int) : Nat := (n % 2 ^ 64).toNat

def isize (n : Nat) : Int := (BitVec.ofNat 64 n).toInt

theorem isize_eq {n : Nat} (h : n < 2 ^ 63) : isize n = n := by
  rw [isize, BitVec.toInt_eq_toNat_bmod, BitVec.toNat_ofNat, Nat.mod_eq_of_lt (by omega)]
  exact Int.bmod_eq_of_le (by omega) (by omega)

/-! Without a context the inode layer calls `acquire`, `release` and nothing else. -/

def FsEnv.readOnly (env : FsEnv κ) : FsEnv κ := ⟨env.sb, env.cache.readOnly⟩

theorem mapIndirect_readOnly (env : FsEnv κ) (ip idx : Nat) :
    mapIndirect env.readOnly none ip idx = mapIndirect env none ip idx := by
  unfold mapIndirect
  simp only [ne_eq, not_true_eq_false, and_false, if_false]
  rfl

theorem inodeMap_readOnly (env : FsEnv κ) (ip offset : Nat) :
    inodeMap env.readOnly none ip offset = inodeMap env none ip offset := by
  unfold inodeMap
  simp only [ne_eq, not_true_eq_false, and_false, if_false, if_true, mapIndirect_readOnly]

theorem readLoop_readOnly (env : FsEnv κ) (ip offset count : Nat) :
    ∀ (fuel : Nat) (dest : Nat → UInt8) (n : Nat),
    readLoop env.readOnly ip offset count fuel dest n = readLoop env ip offset count fuel dest n := by
  intro fuel
  induction fuel with
  | zero => exact fun _ _ => rfl
  | succ fuel ih =>
    intro dest n
    unfold readLoop
    simp only [ih, inodeMap_readOnly]
    rfl

theorem inodeRead_readOnly (env : FsEnv κ) (ip : Nat) (dest : Nat → UInt8) (offset count : Nat) :
    inodeRead env.readOnly ip dest offset count = inodeRead env ip dest offset count := by
  unfold inodeRead
  simp only [readLoop_readOnly]
  rfl

/-- `file_read`: its result, the file and the buffer. -/
def fileRead (env : FsEnv κ) (f : OpenFile) (addr : Nat → UInt8) (n : Int) :
    FsM κ (Int × OpenFile × (Nat → UInt8)) :=
  if f.readable then do
    inodeLock env f.ip
    let (addr, r) ← inodeRead env f.ip addr f.off (usizeOfInt n)
    inodeUnlock f.ip
    return (isize r, { f with off := usize (f.off + r) }, addr)
  else return (-1, f, addr)

/-- `file_read` has returned `r` bytes. -/
structure ReadBytes (B : StoreView κ) (O : OpView κ) (f : OpenFile) (addr : Nat → UInt8) (s : Fs κ)
    (r : Nat) (f' : OpenFile) (addr' : Nat → UInt8) (s' : Fs κ) : Prop where
  file : f' = { f with off := f.off + r }
  state : s' = { s with cache := s'.cache }
  same : B.Same s.cache s'.cache
  idle : O.idle s'.cache
  bytes : ∀ i, addr' i =
    if i < r then (fileBytes (B.view s.cache) (s.inodes f.ip).entry).getD (f.off + i) 0 else addr i

theorem exec_fileRead (W : OpLaws env.cache B O) (L : StoreLaws env.cache B)
    (addr : Nat → UInt8) {n : Int} (h : RegularFile B env.sb s f.ip) (hidle : O.idle s.cache)
    (hreadable : f.readable = true) (hoff : f.off ≤ (s.inodes f.ip).entry.numBytes) (hn : 0 ≤ n)
    (hlt : n < 2 ^ 63) :
    ∃ f' addr' s', (fileRead env f addr n).exec s =
        (.ok (min n ((s.inodes f.ip).entry.numBytes - f.off), f', addr'), s') ∧
      ReadBytes B O f addr s (min n.toNat ((s.inodes f.ip).entry.numBytes - f.off)) f' addr' s' := by
  have hr := h.ok.resident f.ip h.mem
  have hfile := h.ok.file h.mem
  have hsize := h.size
  have hmax : INODE_MAX_BYTES < 2 ^ 32 := by decide
  have hcount : usizeOfInt n = n.toNat := by
    rw [usizeOfInt, Int.emod_eq_of_lt hn (by omega)]
  have hlock : (inodeLock env f.ip).exec s =
      (.ok (), (s.setLock f.ip (.initSem 0)).setFile f.ip s.cache (s.inodes f.ip).entry) := by
    rw [exec_inodeLock hr h.rc]
    exact congrArg _ (s.setLock_eq_setFile f.ip (.initSem 0))
  have hfile' : FileOk (B.idle O) s.cache (s.inodes f.ip).entry := ⟨hfile.nodup, hfile.used, hfile.data⟩
  have hK := W.readOnly L
  have hpost : Post (fun r s' => r.2 = min n.toNat ((s.inodes f.ip).entry.numBytes - f.off) ∧
        ReadUpTo (B.idle O) s.cache (s.inodes f.ip).entry f.off addr
          (min n.toNat ((s.inodes f.ip).entry.numBytes - f.off)) r.1 ∧
        ∃ c, s' = (s.setLock f.ip (.initSem 0)).setFile f.ip c (s.inodes f.ip).entry ∧
          (B.idle O).Same s.cache c) (fun _ => False)
      ((inodeRead env.readOnly f.ip addr f.off n.toNat).exec
        ((s.setLock f.ip (.initSem 0)).setFile f.ip s.cache (s.inodes f.ip).entry)) :=
    post_inodeRead hK (h.ok.volume.settled.toIdle hidle) hfile' h.not_device h.full h.size hoff
      (by omega)
  obtain ⟨⟨addr', r⟩, s1, hread, hrlen, hbytes, c, rfl, hsame⟩ := hpost.returns fun _ hf => hf
  rw [inodeRead_readOnly] at hread
  obtain ⟨hsame, hidle'⟩ := hsame.ofIdle
  have hunlock : (inodeUnlock f.ip).exec
      ((s.setLock f.ip (.initSem 0)).setFile f.ip c (s.inodes f.ip).entry) =
      (.ok (), s.setFile f.ip c (s.inodes f.ip).entry) := exec_inodeUnlock_setFile hr h.rc c _
  have hset : s.setFile f.ip c (s.inodes f.ip).entry = { s with cache := c } := by
    simp [Fs.setFile]
  dsimp only at hrlen hbytes
  subst hrlen
  have hoff' : usize (f.off + min n.toNat ((s.inodes f.ip).entry.numBytes - f.off)) =
      f.off + min n.toNat ((s.inodes f.ip).entry.numBytes - f.off) := Nat.mod_eq_of_lt (by omega)
  refine ⟨{ f with off := f.off + min n.toNat ((s.inodes f.ip).entry.numBytes - f.off) }, addr',
    { s with cache := c }, ?_, rfl, rfl, hsame, hidle', fun i => ?_⟩
  · rw [fileRead, if_pos hreadable, hcount, exec_bind_ok hlock, exec_bind_ok hread]
    rw [exec_bind_ok hunlock, hset, hoff', isize_eq (by omega), exec_pure]
    congr 3
    omega
  rw [hbytes i]
  split
  next hi =>
    rw [getD_fileBytes (by omega)]
    rfl
  next => rfl

/-! ## `file_write` is one write -/

theorem FileIs.fileBytes_eq (h : FileIs B c e bs) : fileBytes (B.view c) e = bs :=
  OsKernel.fileBytes_eq h.size fun j hj => h.bytes j (h.size ▸ hj)

theorem exec_inodeWrite_bytes (L : StoreLaws env.cache B) (hib : InodeBlocks B env.sb)
    (hstop : ¬ B.stops) (ctx : Nat) (hno : (s.inodes ip).inodeNo < env.sb.numInodes)
    (h : FileIs B s.cache (s.inodes ip).entry bs) (addr : Nat → UInt8)
    (hoff : offset ≤ bs.length) (hmax : offset + count ≤ INODE_MAX_BYTES) :
    ∃ s', (inodeWrite env (some ctx) ip addr offset count).exec s = (.ok count, s') ∧
      fileBytes (B.view s'.cache) (s'.inodes ip).entry =
        FileOp.apply bs (.write offset ((List.range count).map addr)) := by
  have hsize := h.size
  have hwrite : Post (fun r s' => r = count ∧ ∃ c' e', s' = s.setFile ip c' e' ∧
        FileWritten B env.sb (s.inodes ip).inodeNo s.cache (s.inodes ip).entry offset count addr c' e')
      (fun _ => False) ((inodeWrite env (some ctx) ip addr offset count).exec
        (s.setFile ip s.cache (s.inodes ip).entry)) :=
    post_inodeWrite L hib (h.not_stops hstop) h.settled h.file hno h.type (hsize ▸ h.full)
      (hsize ▸ h.fits) (hsize ▸ hoff) hmax
  rw [Fs.setFile_self] at hwrite
  obtain ⟨r, s', hexec, rfl, c', e', rfl, hw⟩ := hwrite.returns fun _ hf => hf
  refine ⟨_, hexec, ?_⟩
  rw [Fs.inodes_setFile, Fs.cache_setFile]
  rw [hw.fileBytes (hsize ▸ hoff), h.fileBytes_eq]

theorem WroteUpTo.readBack (W : OpLaws env.cache B O) (L : StoreLaws env.cache B)
    (hib : InodeBlocks B env.sb) {f' : InodeFile} {addr : Nat → UInt8} {n : Int}
    (h0 : RegularFile B env.sb s f.ip)
    (hreadable : f.readable = true) (hoff : f.off ≤ (s.inodes f.ip).entry.numBytes) (hn : 0 ≤ n)
    (hmax : f.off + n ≤ INODE_MAX_BYTES)
    (h : WroteUpTo B O env.sb addr f.toInodeFile s f' n.toNat s') (buf : Nat → UInt8) :
    ∃ f'' addr' s'', (fileRead env f buf n).exec s' = (.ok (n, f'', addr'), s'') ∧
      ∀ i < n.toNat, addr' i = addr i := by
  have hreg : RegularFile B env.sb s' f.ip := by
    have hreg := h.regular L hib h0 (by omega)
    rwa [h.file] at hreg
  have hnum := h.written.numBytes
  have hmaxlt : INODE_MAX_BYTES < 2 ^ 32 := by decide
  obtain ⟨f'', addr', s'', hexec, hread⟩ :=
    exec_fileRead W L buf hreg h.idle hreadable (by omega) hn (by omega)
  have hall : min n.toNat ((s'.inodes f.ip).entry.numBytes - f.off) = n.toNat := by omega
  have hret : min n ((s'.inodes f.ip).entry.numBytes - f.off) = n := by omega
  rw [hret] at hexec
  refine ⟨f'', addr', s'', hexec, fun i hi => ?_⟩
  have hoff' : f.off ≤ (fileBytes (B.view s.cache) (s.inodes f.ip).entry).length := by
    rwa [length_fileBytes]
  have hlen : ((List.range n.toNat).map addr).length = n.toNat := by simp
  rw [hread.bytes i, hall, if_pos hi, h.written.fileBytes hoff, FileOp.getD_apply_write hoff', hlen,
    if_pos (by omega), Nat.add_sub_cancel_left, List.getD_eq_getElem?_getD, List.getElem?_map,
    List.getElem?_range hi]
  rfl

/-- `file_write` of `n` bytes that end within `INODE_MAX_BYTES` returns `n` and leaves the bytes of the
file, its size and the offset as one `inode_write` would that no log limits, and `file_read` from the
old offset returns what was written; or it stops because no free block is left, which it does not
if there is room for the longest file. -/
theorem file_write_eq_inode_write {sb : SuperBlock} (hl : sb.Layout) {s : Fs Cache} {f : OpenFile}
    (addr : Nat → UInt8) {n : Int} (h : RegularFile (kernelView sb) sb s f.ip) (hidle : Idle s.cache)
    (hwritable : f.writable = true) (hreadable : f.readable = true)
    (hoff : f.off ≤ (s.inodes f.ip).entry.numBytes) (hn : 0 ≤ n) (hmax : f.off + n ≤ INODE_MAX_BYTES)
    -- the same file on a store without a limit
    (L : StoreLaws env.cache B) (hib : InodeBlocks B env.sb) (hstop : ¬ B.stops) {t : Fs κ} {ip : Nat}
    (ctx : Nat) (hno : (t.inodes ip).inodeNo < env.sb.numInodes)
    (ht : FileIs B t.cache (t.inodes ip).entry (fileBytes s.cache.contents (s.inodes f.ip).entry)) :
    ∃ t', (inodeWrite env (some ctx) ip addr f.off n.toNat).exec t = (.ok n.toNat, t') ∧
      ((∃ s', (fileWrite (.kernel sb) f.toInodeFile addr n).exec s =
          (.ok (n, { f.toInodeFile with off := f.off + n.toNat }), s') ∧
        (s'.inodes f.ip).entry.numBytes = (t'.inodes ip).entry.numBytes ∧
        fileBytes s'.cache.contents (s'.inodes f.ip).entry =
          fileBytes (B.view t'.cache) (t'.inodes ip).entry ∧
        ∀ buf, ∃ f' addr' s'', (fileRead (.kernel sb) f buf n).exec s' = (.ok (n, f', addr'), s'') ∧
          ∀ i < n.toNat, addr' i = addr i) ∨
      ∃ halt s', (fileWrite (.kernel sb) f.toInodeFile addr n).exec s = (.error halt, s') ∧
        (s'.cache.freeBlocks sb).card = 0 ∧ ¬ RoomForFile (kernelView sb) s f.ip) := by
  obtain ⟨W, K, hibk⟩ := kernel_laws hl
  obtain ⟨t', hexec', hbytes'⟩ := exec_inodeWrite_bytes L hib hstop ctx hno ht addr
    (by rwa [length_fileBytes]) (show f.off + n.toNat ≤ INODE_MAX_BYTES by omega)
  refine ⟨t', hexec', ?_⟩
  have hpost := post_fileWrite W K hibk addr h hidle hwritable hoff hn hmax
  rcases hexec : (fileWrite (.kernel sb) f.toInodeFile addr n).exec s with ⟨halt | ⟨r, f'⟩, s'⟩
  · rw [hexec] at hpost
    obtain ⟨⟨c, hfull⟩, hroom⟩ := hpost
    exact .inr ⟨halt, s', rfl, hfull.rm.2.2, hroom⟩
  rw [hexec] at hpost
  obtain ⟨hr, hwrote⟩ := hpost
  have hbytes : fileBytes s'.cache.contents (s'.inodes f.ip).entry =
      fileBytes (B.view t'.cache) (t'.inodes ip).entry := by
    rw [hbytes']
    exact hwrote.written.fileBytes hoff
  refine .inl ⟨s', ?_, ?_, hbytes, hwrote.readBack W K hibk h hreadable hoff hn hmax⟩
  · rw [← hwrote.file, ← hr]
  · rw [← length_fileBytes s'.cache.contents, hbytes, length_fileBytes]

theorem room_kernel (sb : SuperBlock) (c : Cache) :
    (kernelView sb).room c = (c.freeBlocks sb).card := rfl

theorem roomForFile_smallOpen : RoomForFile (kernelView Mkfs.superBlock) smallOpen 0 := by
  have hsub : Finset.Ico 93 300 ⊆ smallOpen.cache.freeBlocks Mkfs.superBlock := by
    intro b hb
    obtain ⟨hle, hlt⟩ := Finset.mem_Ico.mp hb
    have hfree : ∀ i < 207, smallOpen.cache.bit Mkfs.superBlock (93 + i) = false := by decide +kernel
    refine mem_freeBlocks.mpr ⟨Nat.lt_trans hlt (by decide), ?_⟩
    have := hfree (b - 93) (by omega)
    rwa [Nat.add_sub_cancel' hle] at this
  have hcard := Finset.card_le_card hsub
  rw [Nat.card_Ico] at hcard
  have hmax : MAX_BLOCKS + 1 = 141 := rfl
  rw [RoomForFile, hmax, room_kernel]
  omega

/-- 3000 bytes, in two operations on the cache of the kernel and in one call on a simple store. -/
theorem file_write_eq_inode_write_small :
    ∃ s' t', (fileWrite (.kernel Mkfs.superBlock) ⟨true, 0, 0⟩ (fun i => .ofNat i) 3000).exec smallOpen =
        (.ok (3000, ⟨true, 0, 3000⟩), s') ∧
      (inodeWrite MockCache.env (some 0) 0 (fun i => .ofNat i) 0 3000).exec MockCache.start =
        (.ok 3000, t') ∧
      fileBytes s'.cache.contents (s'.inodes 0).entry =
        fileBytes (MockCache.view.view t'.cache) (t'.inodes 0).entry := by
  obtain ⟨hreg, hidle⟩ := smallOpen_ready
  have hsize : (smallOpen.inodes 0).entry.numBytes = 0 := by decide +kernel
  have hnil : fileBytes smallOpen.cache.contents (smallOpen.inodes 0).entry = [] := by
    rw [fileBytes, hsize]
    rfl
  have hz := MockCache.zeroInode_start
  obtain ⟨t', ht', hboth⟩ := file_write_eq_inode_write (s := smallOpen) (f := ⟨⟨true, 0, 0⟩, true⟩)
    layout_mkfs (fun i => .ofNat i) (n := 3000) hreg hidle rfl rfl (Nat.zero_le _) (by decide)
    (by decide) (show StoreLaws MockCache.env.cache MockCache.view from MockCache.laws)
    MockCache.inodeBlocks id 0 hz.inode
    (hnil ▸ .empty hz.settled hz.type hz.direct hz.indirect hz.numBytes hz.room)
  rcases hboth with ⟨s', hs', -, hbytes, -⟩ | ⟨-, -, -, -, hroom⟩
  · exact ⟨s', t', hs', ht', hbytes⟩
  · exact absurd roomForFile_smallOpen hroom

def fullImage : Nat → Data := fun b => if b = 91 then fun _ => 255 else smallImage b

/-- On a full disk a write of one byte to an empty file stops the kernel. -/
theorem file_write_stops_on_full_disk :
    RegularFile (kernelView Mkfs.superBlock) Mkfs.superBlock (openImage fullImage 1) 0 ∧
      Idle (openImage fullImage 1).cache ∧ 0 + 1 ≤ INODE_MAX_BYTES ∧
      ∃ s', (fileWrite (.kernel Mkfs.superBlock) ⟨true, 0, 0⟩ (fun _ => 7) 1).exec
        (openImage fullImage 1) = (.error .panic, s') := by
  obtain ⟨hreg, hidle⟩ := openImage_ready (d := fullImage) (fun b _ hb => if_neg hb)
    (by decide +kernel) (n := 1) (by decide +kernel) (by decide +kernel)
  refine ⟨hreg 0 Nat.one_pos, hidle, by decide, ?_⟩
  have hrun : ((fileWrite (.kernel Mkfs.superBlock) ⟨true, 0, 0⟩ (fun _ => 7) 1).exec
      (openImage fullImage 1)).1.map (fun _ => ()) = .error .panic := by decide +kernel
  rcases hexec : (fileWrite (.kernel Mkfs.superBlock) ⟨true, 0, 0⟩ (fun _ => 7) 1).exec
    (openImage fullImage 1) with ⟨halt | r, s'⟩
  · rw [hexec] at hrun
    cases hrun
    exact ⟨s', rfl⟩
  · rw [hexec] at hrun
    cases hrun

/-! ## The system calls -/

/-- The system call `read` on the `File` behind a descriptor.  `user` is the result of
`user_writeable`. -/
def sysRead (env : FsEnv κ) (f : Option OpenFile) (buffer : Nat → UInt8) (size : Int) (user : Bool) :
    FsM κ (Int × Option OpenFile × (Nat → UInt8)) :=
  match f with
  | none => return (-1, none, buffer)
  | some f => do
    if size ≤ 0 ∨ user = false then return (-1, some f, buffer)
    else
      let (r, f, buffer) ← fileRead env f buffer size
      return (r, some f, buffer)

/-- A call of `file_write` before a turn of its loop: the place of its `File` in `ftable`, its
arguments, and the number of bytes it has written. -/
structure Writing where
  file : Nat
  buffer : Nat → UInt8
  size : Int
  idx : Nat

/-- A process is in `file_write`, or its last system call `write` has returned `r`. -/
inductive Writer where
  | returned (r : Int)
  | writing (w : Writing)

namespace Writing

def len (w : Writing) : Nat := min (w.size - w.idx).toNat maxbytes

/-- The operation of a turn.  It reads the offset of the `File`, which other calls may have moved
since the last turn. -/
def turn (env : FsEnv κ) (w : Writing) (f : OpenFile) : FsM κ Nat :=
  writeTransaction env f.toInodeFile (fun i => w.buffer (w.idx + i)) w.len

/-- The rest of the turn, and what follows the loop after the last one. -/
def next (w : Writing) (written : Nat) : Except Runs.Stop Writer :=
  if written ≠ w.len then .ok (.returned (-1))
  else if (w.idx + written : Int) < w.size then .ok (.writing { w with idx := w.idx + written })
  else if (w.idx + written : Int) = w.size then .ok (.returned w.size)
  else .error .panic

/-- After a turn that has written its bytes the call goes on behind them, or it is done. -/
inductive Next (w : Writing) : Writer → Prop where
  | writing {idx : Nat} : w.idx < idx → (idx : Int) < w.size → Next w (.writing { w with idx := idx })
  | returned : Next w (.returned w.size)

theorem next_len {w : Writing} (h : (w.idx : Int) < w.size) :
    ∃ c, w.next w.len = .ok c ∧ w.Next c := by
  have hpos : 0 < maxbytes := by decide
  have hlen : w.len = min (w.size - w.idx).toNat maxbytes := rfl
  rw [next, if_neg (fun hne => hne rfl)]
  split
  next hlt => exact ⟨_, rfl, .writing (by omega) (by omega)⟩
  next hge =>
    rw [if_pos (by omega)]
    exact ⟨_, rfl, .returned⟩

end Writing

/-- The file system, the open files on regular inodes, by their place in `ftable`, and the
processes that write to them. -/
structure OpenFiles (κ : Type) where
  fs : Fs κ
  files : Nat → Option OpenFile
  writer : Nat → Writer

/-- What happens to the open files.  A `write` of process `p` is its call up to the loop of
`file_write` and a `turn` for each turn of the loop; the calls of other processes come in between.
`other` is what the rest of the kernel does. -/
inductive FileCall (κ : Type) where
  | openat (i ip : Nat) (writable readable : Bool)
  | close (i : Nat)
  | read (i : Nat) (buffer : Nat → UInt8) (size : Int) (user : Bool)
  | write (p i : Nat) (buffer : Nat → UInt8) (size : Int) (user : Bool)
  | turn (p : Nat)
  | other (s' : Fs κ)

namespace OpenFiles

/-- The open file at place `i` becomes `f`. -/
def set (st : OpenFiles κ) (i : Nat) (f : Option OpenFile) (s : Fs κ) : OpenFiles κ :=
  { st with fs := s, files := update st.files i f }

/-- The system call `write` up to the loop.  `user` is the result of `user_readable`. -/
def startWrite (st : OpenFiles κ) (i : Nat) (buffer : Nat → UInt8) (size : Int) (user : Bool) :
    Writer :=
  match st.files i with
  | none => .returned (-1)
  | some f =>
    if size ≤ 0 ∨ user = false then .returned (-1)
    else if f.writable then .writing ⟨i, buffer, size, 0⟩
    else .returned (-1)

def turn (env : FsEnv κ) (st : OpenFiles κ) (p : Nat) : Except Runs.Stop (OpenFiles κ) :=
  match st.writer p with
  | .returned _ => .error .disabled
  | .writing w =>
    match st.files w.file with
    | none => .error .disabled
    | some f =>
      match (w.turn env f).exec st.fs with
      | (.ok written, s') => do
        let c ← w.next written
        return { st.set w.file (some { f with off := usize (f.off + written) }) s' with
          writer := update st.writer p c }
      | (.error _, _) => .error .panic

def step (env : FsEnv κ) (st : OpenFiles κ) : FileCall κ → Except Runs.Stop (OpenFiles κ)
  | .openat i ip writable readable => .ok (st.set i (some ⟨⟨writable, ip, 0⟩, readable⟩) st.fs)
  | .close i => .ok (st.set i none st.fs)
  | .read i buffer size user =>
    match (sysRead env (st.files i) buffer size user).exec st.fs with
    | (.ok (_, f, _), s') => .ok (st.set i f s')
    | (.error _, _) => .error .panic
  | .write p i buffer size user =>
    match st.writer p with
    | .returned _ => .ok { st with writer := update st.writer p (st.startWrite i buffer size user) }
    | .writing _ => .error .disabled
  | .turn p => st.turn env p
  | .other s' => .ok { st with fs := s' }

/-- The files are open on regular inodes, at an offset in them or at their end, and those that are
written to are open. -/
structure Inv (B : StoreView κ) (O : OpView κ) (sb : SuperBlock) (st : OpenFiles κ) : Prop where
  ok : FsOk B sb st.fs
  idle : O.idle st.fs.cache
  file : ∀ i f, st.files i = some f → RegularFile B sb st.fs f.ip ∧
    f.off ≤ (st.fs.inodes f.ip).entry.numBytes
  writing : ∀ p w, st.writer p = .writing w → (w.idx : Int) < w.size ∧ (st.files w.file).isSome

/-- `openat` is of a regular inode; a file that is written to is not closed; sizes are `int`s; the
rest of the kernel leaves open files regular and without holes and makes none shorter. -/
def Allowed (B : StoreView κ) (O : OpView κ) (sb : SuperBlock) (st : OpenFiles κ) :
    FileCall κ → Prop
  | .openat _ ip _ _ => RegularFile B sb st.fs ip
  | .close i => ∀ p w, st.writer p = .writing w → w.file ≠ i
  | .read _ _ size _ => size < 2 ^ 31
  | .write _ _ _ size _ => size < 2 ^ 31
  | .turn _ => True
  | .other s' => FsOk B sb s' ∧ O.idle s'.cache ∧ ∀ i f, st.files i = some f →
      RegularFile B sb s' f.ip ∧
        (st.fs.inodes f.ip).entry.numBytes ≤ (s'.inodes f.ip).entry.numBytes

def Init (B : StoreView κ) (O : OpView κ) (sb : SuperBlock) (st : OpenFiles κ) : Prop :=
  FsOk B sb st.fs ∧ O.idle st.fs.cache ∧ (st.files = fun _ => none) ∧ ∀ p, ∃ r, st.writer p = .returned r

section

variable {st st' : OpenFiles κ} {i p : Nat} {f : Option OpenFile} {w : Writing}

theorem set_self (st : OpenFiles κ) (i : Nat) : st.set i (st.files i) st.fs = st := by
  rw [set, update_eq_self]

theorem Inv.set (h : Inv B O sb st) {s : Fs κ} (hok : FsOk B sb s) (hidle : O.idle s.cache)
    (hfiles : ∀ j g, st.files j = some g → RegularFile B sb s g.ip ∧
      g.off ≤ (s.inodes g.ip).entry.numBytes)
    (hf : ∀ g, f = some g → RegularFile B sb s g.ip ∧ g.off ≤ (s.inodes g.ip).entry.numBytes)
    (hw : f = none → ∀ p w, st.writer p = .writing w → w.file ≠ i) :
    Inv B O sb (st.set i f s) := by
  refine ⟨hok, hidle, fun j g hg => ?_, fun p w hp => ?_⟩
  · have hg' : update st.files i f j = some g := hg
    by_cases hj : j = i
    · rw [hj, update_self] at hg'
      exact hf g hg'
    · rw [update_of_ne hj] at hg'
      exact hfiles j g hg'
  · obtain ⟨hlt, hopen⟩ := h.writing p w hp
    refine ⟨hlt, ?_⟩
    show (update st.files i f w.file).isSome
    by_cases hi : w.file = i
    · rw [hi, update_self]
      exact Option.isSome_iff_ne_none.mpr fun hn => hw hn p w hp hi
    · rwa [update_of_ne hi]

/-- A `write` that gets to the loop has bytes to write, and an open file. -/
theorem startWrite_writing {buffer : Nat → UInt8} {size : Int} {user : Bool}
    (hw : st.startWrite i buffer size user = .writing w) :
    (w.idx : Int) < w.size ∧ (st.files w.file).isSome := by
  unfold startWrite at hw
  split at hw
  next => cases hw
  next f hf =>
    split at hw
    next => cases hw
    next hgood =>
      split at hw
      next =>
        cases hw
        refine ⟨?_, Option.isSome_iff_exists.mpr ⟨f, hf⟩⟩
        dsimp only
        omega
      next => cases hw

/-- A process goes on to a place in `file_write` that is one of an open file. -/
theorem Inv.goes (h : Inv B O sb st) {c : Writer}
    (hc : ∀ w, c = .writing w → (w.idx : Int) < w.size ∧ (st.files w.file).isSome) (p : Nat) :
    Inv B O sb { st with writer := update st.writer p c } := by
  refine ⟨h.ok, h.idle, h.file, fun q w hq => ?_⟩
  have hq' : update st.writer p c q = .writing w := hq
  by_cases hqp : q = p
  · rw [hqp, update_self] at hq'
    exact hc w hq'
  · rw [update_of_ne hqp] at hq'
    exact h.writing q w hq'

/-- `read` of an open file returns a number of bytes or -1, and keeps the invariant. -/
theorem Inv.read (W : OpLaws env.cache B O) (L : StoreLaws env.cache B) (hib : InodeBlocks B env.sb)
    (h : Inv B O env.sb st) (i : Nat) (buffer : Nat → UInt8) {size : Int} (user : Bool)
    (hsize : size < 2 ^ 31) : ∃ r f buffer' s', (sysRead env (st.files i) buffer size user).exec st.fs =
        (.ok (r, f, buffer'), s') ∧ (r = -1 ∨ 0 ≤ r ∧ r ≤ size) ∧ Inv B O env.sb (st.set i f s') := by
  cases hf : st.files i with
  | none => exact ⟨-1, none, buffer, st.fs, rfl, .inl rfl, by rw [← hf, set_self]; exact h⟩
  | some f =>
    have hkeep : Inv B O env.sb (st.set i (some f) st.fs) := by
      rw [← hf, set_self]
      exact h
    unfold sysRead
    dsimp only
    by_cases hbad : size ≤ 0 ∨ user = false
    · rw [if_pos hbad]
      exact ⟨-1, some f, buffer, st.fs, rfl, .inl rfl, hkeep⟩
    rw [if_neg hbad]
    by_cases hr : f.readable = true
    · obtain ⟨hreg, hoff⟩ := h.file i f hf
      obtain ⟨f', buffer', s', hexec, hread⟩ :=
        exec_fileRead (n := size) W L buffer hreg h.idle hr hoff (by omega) (by omega)
      rw [exec_bind_ok hexec]
      refine ⟨_, _, _, _, rfl, .inr (by omega), ?_⟩
      have hsame : ∀ jp, RegularFile B env.sb st.fs jp → RegularFile B env.sb s' jp := fun jp hjp => by
        rw [hread.state]
        exact hjp.of_same L hib hread.same
      have hinodes : s'.inodes = st.fs.inodes := by rw [hread.state]
      refine h.set (hsame f.ip hreg).ok hread.idle (fun j g hg => ?_) (fun g hg => ?_) nofun
      · obtain ⟨hgreg, hgoff⟩ := h.file j g hg
        exact ⟨hsame g.ip hgreg, by rwa [hinodes]⟩
      · cases hg
        rw [hread.file, hinodes]
        exact ⟨hsame f.ip hreg, by dsimp only; omega⟩
    · rw [fileRead, if_neg hr]
      exact ⟨-1, some f, buffer, st.fs, rfl, .inl rfl, hkeep⟩

theorem Inv.written (L : StoreLaws env.cache B) (hib : InodeBlocks B env.sb) (h : Inv B O env.sb st)
    {g' : InodeFile} (hg : st.files i = some g) {buffer : Nat → UInt8} {n : Nat}
    {s' : Fs κ} (hmax : g.off + n ≤ INODE_MAX_BYTES)
    (hw : WroteUpTo B O env.sb buffer g.toInodeFile st.fs g' n s') :
    Inv B O env.sb (st.set i (some { g with toInodeFile := g' }) s') := by
  obtain ⟨hreg, hoff⟩ := h.file i g hg
  have hreg' : RegularFile B env.sb s' g.ip := by
    have hreg' := hw.regular L hib hreg hmax
    rwa [hw.file] at hreg'
  have hnum := hw.written.numBytes
  refine h.set hreg'.ok hw.idle (fun j k hk => ?_) (fun k hk => ?_) nofun
  · obtain ⟨hkreg, hkoff⟩ := h.file j k hk
    by_cases hip : k.ip = g.ip
    · rw [hip] at hkoff ⊢
      exact ⟨hreg', by omega⟩
    have hkreg' := hkreg.other L hib hreg.mem hip hw.written
    have hi : s'.inodes k.ip = st.fs.inodes k.ip := by
      rw [hw.state]
      exact st.fs.inodes_setFile_of_ne _ _ hip
    rw [← hw.state] at hkreg'
    exact ⟨hkreg', by rwa [hi]⟩
  · cases hk
    rw [hw.file]
    exact ⟨hreg', by dsimp only; omega⟩

section

variable (W : OpLaws env.cache B O) (h : Inv B O env.sb st) (hp : st.writer p = .writing w)

include W h hp

/-- What a turn does that ends within `INODE_MAX_BYTES`. -/
theorem Inv.turn (L : StoreLaws env.cache B) (hib : InodeBlocks B env.sb)
    (hg : st.files w.file = some g) (hmax : g.off + w.len ≤ INODE_MAX_BYTES) :
    (∃ st' c, st.turn env p = .ok st' ∧ w.next w.len = .ok c ∧ w.Next c ∧ Inv B O env.sb st' ∧
      (st'.files = update st.files w.file (some { g with off := g.off + w.len })) ∧
      st'.writer = update st.writer p c ∧
      (RoomForFile B st.fs g.ip → RoomForFile B st'.fs g.ip)) ∨
    ∃ halt s', (w.turn env g).exec st.fs = (.error halt, s') ∧ OutOfBlocks B O st.fs.cache s'.cache ∧
      ¬ RoomForFile B st.fs g.ip := by
  obtain ⟨hreg, hoff⟩ := h.file _ g hg
  have hlen : w.len ≤ maxbytes := Nat.min_le_right _ _
  have hstart : WroteUpTo B O env.sb (fun i => w.buffer (w.idx + i)) g.toInodeFile st.fs
      g.toInodeFile 0 st.fs := .start hreg h.idle hoff
  have hpost := hstart.turn W L hib hreg hlen (by rwa [Nat.zero_add])
  simp only [Nat.zero_add] at hpost
  rcases hexec : (w.turn env g).exec st.fs with ⟨halt | written, s'⟩ <;> rw [Writing.turn] at hexec <;>
    rw [hexec] at hpost
  · exact .inr ⟨halt, s', rfl, hpost⟩
  obtain ⟨rfl, -, hwrote⟩ := hpost
  obtain ⟨hlt, -⟩ := h.writing p w hp
  obtain ⟨c, hc, hnext⟩ := Writing.next_len hlt
  have hinv := h.written L hib hg hmax hwrote
  have hoff' : usize (g.off + w.len) = g.off + w.len := congrArg InodeFile.off hwrote.file
  refine .inl ⟨_, c, ?_, hc, hnext, hinv.goes ?_ p, ?_, rfl, hwrote.roomForFile⟩
  · simp only [OpenFiles.turn, hp, hg, Writing.turn, hexec, hc]
    rfl
  · rintro w' rfl
    cases hnext with
    | writing _ hlt' =>
      refine ⟨hlt', ?_⟩
      show (update st.files w.file _ w.file).isSome
      rw [update_self]
      rfl
  · show update st.files w.file (some { g with off := usize (g.off + w.len) }) = _
    rw [hoff']

theorem Inv.turn_too_long (hg : st.files w.file = some g)
    (hlong : INODE_MAX_BYTES < g.off + w.len) : st.turn env p = .error .panic := by
  obtain ⟨hreg, hoff⟩ := h.file _ g hg
  obtain ⟨s', hexec⟩ := exec_writeTransaction_too_long W (fun i => w.buffer (w.idx + i)) hreg h.idle hoff
    (Nat.min_le_right _ _) hlong
  simp only [OpenFiles.turn, hp, hg, Writing.turn, Writing.len, hexec]

end

section

variable (W : OpLaws env.cache B O) (L : StoreLaws env.cache B) (hib : InodeBlocks B env.sb)

include W L hib

theorem Inv.step (h : Inv B O env.sb st) {call : FileCall κ} (hok : Allowed B O env.sb st call)
    (hstep : step env st call = .ok st') : Inv B O env.sb st' := by
  cases call with
  | openat i ip writable readable =>
    cases hstep
    refine h.set h.ok h.idle h.file (fun g hg => ?_) nofun
    cases hg
    exact ⟨hok, Nat.zero_le _⟩
  | close i =>
    cases hstep
    exact h.set h.ok h.idle h.file nofun fun _ => hok
  | read i buffer size user =>
    obtain ⟨r, f, buffer', s', hexec, -, hinv⟩ := h.read W L hib i buffer user hok
    rw [OpenFiles.step, hexec] at hstep
    cases hstep
    exact hinv
  | write p i buffer size user =>
    rw [OpenFiles.step] at hstep
    split at hstep
    next =>
      cases hstep
      exact h.goes (fun _ => startWrite_writing) p
    next => cases hstep
  | turn p =>
    rw [OpenFiles.step] at hstep
    cases hp : st.writer p with
    | returned r =>
      rw [OpenFiles.turn, hp] at hstep
      cases hstep
    | writing w =>
      obtain ⟨g, hg⟩ := Option.isSome_iff_exists.mp (h.writing p w hp).2
      rcases Nat.lt_or_ge INODE_MAX_BYTES (g.off + w.len) with hlong | hmax
      · cases (h.turn_too_long W hp hg hlong).symm.trans hstep
      · rcases h.turn W hp L hib hg hmax with ⟨st1, c, hturn, -, -, hinv, -⟩ | ⟨halt, s', hexec, -⟩
        · cases hturn.symm.trans hstep
          exact hinv
        · simp only [OpenFiles.turn, hp, hg, hexec] at hstep
          cases hstep
  | other s' =>
    cases hstep
    obtain ⟨hfs, hidle, hfiles⟩ := hok
    refine ⟨hfs, hidle, fun j g hg => ?_, h.writing⟩
    obtain ⟨hreg, hle⟩ := hfiles j g hg
    exact ⟨hreg, (h.file j g hg).2.trans hle⟩

theorem Inv.of_reach
    (h : Runs.Reach (OpenFiles.step env) (Allowed B O env.sb) (Init B O env.sb) st) :
    Inv B O env.sb st := by
  refine h.invariant ?_ fun st call st' hinv hok hstep => hinv.step W L hib hok hstep
  rintro st ⟨hok, hidle, hnone, hidlers⟩
  refine ⟨hok, hidle, fun i f hf => ?_, fun p w hp => ?_⟩
  · rw [hnone] at hf
    cases hf
  · obtain ⟨r, hr⟩ := hidlers p
    cases hr.symm.trans hp

end

end

end OpenFiles

/-- The states of all runs of calls on open files. -/
def OpenFiles.Reached (sb : SuperBlock) : OpenFiles Cache → Prop :=
  Runs.Reach (OpenFiles.step (.kernel sb)) (OpenFiles.Allowed (kernelView sb) kernelOp sb)
    (OpenFiles.Init (kernelView sb) kernelOp sb)

/-- The file `f` of the small image is opened for reading and writing, and process 0 begins to
write `size` sevens to it. -/
def smallFiles (size : Int) : OpenFiles Cache where
  fs := smallOpen
  files := update (fun _ => none) 0 (some ⟨⟨true, 0, 0⟩, true⟩)
  writer := update (fun _ => .returned 0) 0 (.writing ⟨0, fun _ => 7, size, 0⟩)

theorem smallFiles_reach (size : Int) (hpos : 0 < size) (hint : size < 2 ^ 31) :
    (smallFiles size).Reached Mkfs.superBlock := by
  obtain ⟨hreg, hidle⟩ := smallOpen_ready
  have hinit : OpenFiles.Init (kernelView Mkfs.superBlock) kernelOp Mkfs.superBlock
      ⟨smallOpen, fun _ => none, fun _ => .returned 0⟩ := ⟨hreg.ok, hidle, rfl, fun _ => ⟨0, rfl⟩⟩
  refine .step (l := .write 0 0 (fun _ => 7) size true)
    (.step (l := .openat 0 0 true true) (.init hinit) hreg rfl) hint ?_
  simp [OpenFiles.step, OpenFiles.startWrite, OpenFiles.set, smallFiles, Int.not_le.mpr hpos]

/-- The write of 71681 bytes after `k` turns. -/
theorem smallFiles_turns {k : Nat} (hk : k ≤ 46) : ∃ st : OpenFiles Cache,
    st.Reached Mkfs.superBlock ∧ st.files 0 = some ⟨⟨true, 0, 1536 * k⟩, true⟩ ∧
      st.writer 0 = .writing ⟨0, fun _ => 7, 71681, 1536 * k⟩ ∧
      RoomForFile (kernelView Mkfs.superBlock) st.fs 0 := by
  obtain ⟨W, L, hib⟩ := kernel_laws layout_mkfs
  induction k with
  | zero =>
    exact ⟨_, smallFiles_reach 71681 (by decide) (by decide), rfl, rfl, roomForFile_smallOpen⟩
  | succ k ih =>
    obtain ⟨st, hst, hf, hp, hroom⟩ := ih (by omega)
    have hlen : Writing.len ⟨0, fun _ => 7, 71681, 1536 * k⟩ = 1536 := by
      have hmax : maxbytes = 1536 := by decide
      rw [Writing.len, hmax]
      dsimp only
      omega
    have hmax : INODE_MAX_BYTES = 71680 := by decide
    have hfit : 1536 * k + Writing.len ⟨0, fun _ => 7, 71681, 1536 * k⟩ ≤ INODE_MAX_BYTES := by omega
    rcases (OpenFiles.Inv.of_reach W L hib hst).turn W hp L hib hf hfit with
      ⟨st', c, hturn, hc, -, -, hfiles, hwriter, hroom'⟩ | ⟨-, -, -, -, hnot⟩
    · rw [hlen] at hc hfiles
      rw [Writing.next, hlen, if_neg (fun hne => hne rfl), if_pos (by dsimp only; omega)] at hc
      cases hc
      refine ⟨st', .step (l := .turn 0) hst trivial hturn, ?_, ?_, hroom' hroom⟩
      · rw [hfiles, update_self, Nat.mul_succ]
      · rw [hwriter, update_self, Nat.mul_succ]
    · exact absurd hroom hnot

/-- The blocks of inode `no`. -/
def Fs.blocksOf (sb : SuperBlock) (s : Fs Cache) (no : Nat) : List Nat :=
  refs s.cache.contents (entryAt sb s.cache.contents no)

/-- Whatever is read and written, the blocks of an inode are data blocks that are marked as
allocated, no block is there twice, and none belongs to another inode. -/
theorem blocks_owned_once {sb : SuperBlock} (hl : sb.Layout) {st : OpenFiles Cache}
    (h : Runs.Reach (OpenFiles.step (.kernel sb)) (OpenFiles.Allowed (kernelView sb) kernelOp sb)
      (OpenFiles.Init (kernelView sb) kernelOp sb) st) {no : Nat} (hno : sb.HasInode no) :
    (st.fs.blocksOf sb no).Nodup ∧ ∀ b ∈ st.fs.blocksOf sb no,
      sb.dataStart ≤ b ∧ b < sb.numBlocks ∧ st.fs.cache.bit sb b = true ∧
      ∀ no', sb.HasInode no' → no' ≠ no → b ∉ st.fs.blocksOf sb no' := by
  obtain ⟨W, L, hib⟩ := kernel_laws hl
  have hv := (OpenFiles.Inv.of_reach W L hib h).ok.volume
  have hfile := hv.file no hno
  refine ⟨hfile.nodup, fun b hb => ?_⟩
  obtain ⟨hlo, hhi⟩ := not_or.mp (hfile.data b hb)
  exact ⟨Nat.not_lt.mp hlo, Nat.not_le.mp hhi, (hfile.used b hb).resolve_left hhi,
    fun no' hno' hne => hv.apart no no' hno hno' hne.symm b hb⟩

/-- The small image with a second empty file, inode 3. -/
def pairImage : Nat → Data := fun b =>
  if b = 65 then
    InodeEntry.intoBlock ((InodeEntry.setType Bytes.zero INODE_REGULAR).setNumLinks 1) (smallImage 65) 3
  else smallImage b

/-- Its two files are opened. -/
def pairFiles : OpenFiles Cache where
  fs := openImage pairImage 2
  files := update (update (fun _ => none) 0 (some ⟨⟨true, 0, 0⟩, true⟩)) 1 (some ⟨⟨true, 1, 0⟩, true⟩)
  writer := fun _ => .returned 0

/-- Each of two processes writes 600 bytes to one of the files. -/
def pairCalls : List (FileCall Cache) :=
  [.write 0 0 (fun _ => 7) 600 true, .write 1 1 (fun _ => 8) 600 true, .turn 0, .turn 1]

theorem blocks_owned_once_pair : ∃ st : OpenFiles Cache,
    st.fs.blocksOf Mkfs.superBlock 2 = [93, 94] ∧ st.fs.blocksOf Mkfs.superBlock 3 = [95, 96] ∧
      st.fs.cache.bit Mkfs.superBlock 93 = true ∧ 93 ∉ st.fs.blocksOf Mkfs.superBlock 3 := by
  obtain ⟨hreg, hidle⟩ := openImage_ready (d := pairImage) (fun b hb _ => if_neg hb) (by decide +kernel)
    (n := 2) (by decide +kernel) (by decide +kernel)
  have hinit : OpenFiles.Init (kernelView Mkfs.superBlock) kernelOp Mkfs.superBlock
      ⟨openImage pairImage 2, fun _ => none, fun _ => .returned 0⟩ :=
    ⟨(hreg 0 (by decide)).ok, hidle, rfl, fun _ => ⟨0, rfl⟩⟩
  have hopen : OpenFiles.Reached Mkfs.superBlock pairFiles :=
    .step (l := .openat 1 1 true true) (.step (l := .openat 0 0 true true) (.init hinit)
      (hreg 0 (by decide)) rfl) (hreg 1 (by decide)) rfl
  obtain ⟨st, hexec, ht⟩ := Runs.exists_of_execTest
    (show Runs.execTest (OpenFiles.step (.kernel Mkfs.superBlock)) pairFiles pairCalls (fun st =>
      st.fs.blocksOf Mkfs.superBlock 2 = [93, 94] ∧ st.fs.blocksOf Mkfs.superBlock 3 = [95, 96]) = true by
      decide +kernel)
  obtain ⟨h2, h3⟩ := of_decide_eq_true ht
  have hst := hopen.exec (by simp [pairCalls, OpenFiles.Allowed]) hexec
  obtain ⟨-, howned⟩ := blocks_owned_once layout_mkfs hst
    (show Mkfs.superBlock.HasInode 2 by decide)
  obtain ⟨-, -, hbit, hother⟩ := howned 93 (h2 ▸ .head _)
  exact ⟨st, h2, h3, hbit, hother 3 (by decide) (by decide)⟩

end OsKernel
