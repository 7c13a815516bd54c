import OsKernel.Fs.FsRecovery
import OsKernel.Fs.InodeTable
import OsKernel.Fs.WriteBudget

/-!
# `file_write`

The loop of `file_write` writes its buffer in operations of at most `maxbytes` bytes each.  Such an
operation passes at most `OP_MAX_NUM_BLOCKS` blocks to `cache_sync`, and stops only if there is no
free block left.  All operations together do what one `inode_write` would do.
-/

namespace OsKernel

open Prog Mkfs

variable {len : Nat} {src : Nat → UInt8} {f : InodeFile} {addr : Nat → UInt8} {sb : SuperBlock}
  {n : Int} {idx : Nat} {κ : Type} {env : FsEnv κ} {B : StoreView κ} {O : OpView κ} {s s' : Fs κ}

/-- An in-memory inode of a regular file without holes, to which somebody has a reference. -/
structure RegularFile (B : StoreView κ) (sb : SuperBlock) (s : Fs κ) (ip : Nat) : Prop where
  ok : FsOk B sb s
  mem : ip ∈ s.inodeHead
  rc : 0 < (s.inodes ip).rc
  type : (s.inodes ip).entry.type = INODE_REGULAR
  size : (s.inodes ip).entry.numBytes ≤ INODE_MAX_BYTES
  full : Full (B.view s.cache) (s.inodes ip).entry (s.inodes ip).entry.numBytes

theorem RegularFile.not_device {ip : Nat} (h : RegularFile B env.sb s ip) :
    (s.inodes ip).entry.type ≠ INODE_DEVICE := by
  rw [h.type]
  decide

theorem RegularFile.written (L : StoreLaws env.cache B) (hib : InodeBlocks B env.sb) {ip : Nat}
    (h : RegularFile B env.sb s ip) {offset count : Nat} {c : κ}
    {e : InodeEntry} (hmax : offset + count ≤ INODE_MAX_BYTES)
    (hw : FileWritten B env.sb (s.inodes ip).inodeNo s.cache (s.inodes ip).entry offset count src
      c e) : RegularFile B env.sb (s.setFile ip c e) ip := by
  have hent := hw.written (h.ok.resident ip h.mem).entry.symm
  have hi : (s.setFile ip c e).inodes ip = { s.inodes ip with entry := e } := s.inodes_setFile ip c e
  refine ⟨h.ok.file_step L hib h.mem hw.toFileStep hent, h.mem, ?_, ?_, ?_, ?_⟩ <;> rw [hi]
  · exact h.rc
  · exact hw.type.trans h.type
  · show e.numBytes ≤ _
    rw [hw.numBytes]
    exact Nat.max_le.mpr ⟨h.size, hmax⟩
  · exact hw.full

/-- The free blocks and those of the file are enough for the longest file. -/
def RoomForFile (B : StoreView κ) (s : Fs κ) (ip : Nat) : Prop :=
  MAX_BLOCKS + 1 ≤ B.room s.cache + (refs (B.view s.cache) (s.inodes ip).entry).length

/-! ## One operation -/

/-- The operation in a turn of the loop of `file_write`. -/
def writeTransaction (env : FsEnv κ) (f : InodeFile) (src : Nat → UInt8) (len : Nat) : FsM κ Nat :=
  transaction env fun ctx => do
    inodeLock env f.ip
    let written ← inodeWrite env ctx f.ip src f.off len
    inodeUnlock f.ip
    return written

/-- What an operation has passed to `sync`: at most `OP_MAX_NUM_BLOCKS` different blocks. -/
def FitsLog (O : OpView κ) (c c' : κ) : Prop :=
  ∃ l, O.syncs c' = O.syncs c ++ l ∧ l.toFinset.card ≤ OP_MAX_NUM_BLOCKS

/-- An operation has stopped because the disk is full, and not because of the log. -/
def OutOfBlocks (B : StoreView κ) (O : OpView κ) (c c' : κ) : Prop :=
  ∃ c₀, O.syncs c₀ = O.syncs c ∧ DiskFull B O c₀ c'

theorem OutOfBlocks.fitsLog (W : OpLaws env.cache B O) {c c' : κ} (h : OutOfBlocks B O c c') :
    FitsLog O c c' := by
  obtain ⟨c0, hsyncs, hfull⟩ := h
  obtain ⟨l, hl, hpassed⟩ := W.trace hfull.running
  refine ⟨l, by rw [hl, hsyncs], ?_⟩
  have := hfull.log
  rw [hpassed]
  omega

theorem post_writeTransaction (W : OpLaws env.cache B O) (L : StoreLaws env.cache B)
    (hib : InodeBlocks B env.sb)
    (h : RegularFile B env.sb s f.ip) (hidle : O.idle s.cache)
    (hoff : f.off ≤ (s.inodes f.ip).entry.numBytes) (hmax : f.off + len ≤ INODE_MAX_BYTES)
    (hlen : len ≤ maxbytes) :
    Post (fun r s' => r = len ∧ ∃ c e, s' = s.setFile f.ip c e ∧
        FileWritten B env.sb (s.inodes f.ip).inodeNo s.cache (s.inodes f.ip).entry f.off len src c e ∧
        O.idle c ∧ FitsLog O s.cache c)
      (fun s' => OutOfBlocks B O s.cache s'.cache ∧ ¬ RoomForFile B s f.ip)
      ((writeTransaction env f src len).exec s) := by
  have hr := h.ok.resident f.ip h.mem
  have hno := hr.inode.2
  have hs := h.ok.volume.settled
  have hfile := h.ok.file h.mem
  obtain ⟨c0, hbegin, hsame, hrun, hpassed, hsyncs⟩ := W.beginOp hs hidle
  let s1 : Fs κ := { s with cache := c0 }
  have hlock : (inodeLock env f.ip).exec s1 =
      (.ok (), (s1.setLock f.ip (.initSem 0)).setFile f.ip c0 (s.inodes f.ip).entry) := by
    rw [exec_inodeLock (s := s1) hr h.rc]
    exact congrArg _ (s1.setLock_eq_setFile f.ip (.initSem 0))
  have hinode : ((s1.setLock f.ip (.initSem 0)).inodes f.ip).inodeNo = (s.inodes f.ip).inodeNo := by
    rw [s1.inodes_setLock]
  have hfits : weight (O.passed c0) (env.sb.toBlockNo (s.inodes f.ip).inodeNo)
      (s.inodes f.ip).entry.indirect + demand f.off len ≤ OP_MAX_NUM_BLOCKS := by
    have hw := weight_empty_le (env.sb.toBlockNo (s.inodes f.ip).inodeNo)
      (s.inodes f.ip).entry.indirect
    have hd := demand_le (p := f.off) hlen
    rw [hpassed, OP_MAX_NUM_BLOCKS_eq]
    omega
  have hstep : FileStep B env.sb (s.inodes f.ip).inodeNo s.cache (s.inodes f.ip).entry c0
      (s.inodes f.ip).entry := .of_same L hib hs.ok hfile hsame
  have hwrite := op_inodeWrite (P := ¬ RoomForFile B s f.ip) (s1.setLock f.ip (.initSem 0)) f.ip src
    W L hib (fun hlt hle => absurd (hstep.room ▸ hlt) (Nat.not_lt.mpr hle))
    hrun hsame.settled (hfile.of_same L hsame) (hinode ▸ hno) h.not_device
    (h.full.of_same L hfile hsame) h.size hoff hmax (hinode ▸ hfits)
  rw [hinode] at hwrite
  unfold writeTransaction transaction
  rw [exec_bind_ok (exec_onCache hbegin)]
  rw [bind_assoc, exec_bind_ok hlock, bind_assoc]
  refine Post.bind (hwrite.imp (fun _ _ hq => hq) fun s' hfull => ⟨⟨c0, hsyncs, hfull.1⟩, hfull.2⟩) ?_
  rintro _ _ ⟨rfl, c2, e, rfl, hw, hrun', hcard⟩
  have hw' := hw.of_same L hib hno hs.ok hfile h.full h.size hoff hsame
  have hnum : e.numBytes ≤ INODE_MAX_BYTES := by
    rw [hw.numBytes]
    exact Nat.max_le.mpr ⟨h.size, hmax⟩
  have hunlock : (inodeUnlock f.ip).exec ((s1.setLock f.ip (.initSem 0)).setFile f.ip c2 e) =
      (.ok (), s.setFile f.ip c2 e) := exec_inodeUnlock_setFile (s := s1) hr h.rc c2 e
  obtain ⟨c3, hend, hsame3, hidle3, hsyncs3⟩ := W.endOp hw.settled hrun'
  obtain ⟨l, hl, hlpassed⟩ := W.trace hrun'
  rw [bind_assoc, exec_bind_ok hunlock, exec_bind_ok (exec_pure _ _),
    exec_bind_ok (exec_onCache (s := s.setFile f.ip c2 e) hend)]
  refine ⟨rfl, c3, e, rfl, hw'.trans_same L hib hno hnum hsame3, hidle3, l, ?_, hlpassed ▸ hcard⟩
  rw [hsyncs3, hl, hsyncs]

theorem exec_writeTransaction_too_long (W : OpLaws env.cache B O)
    (src : Nat → UInt8) (h : RegularFile B env.sb s f.ip) (hidle : O.idle s.cache)
    (hoff : f.off ≤ (s.inodes f.ip).entry.numBytes) (hlen : len ≤ maxbytes)
    (hlong : INODE_MAX_BYTES < f.off + len) :
    ∃ s', (writeTransaction env f src len).exec s = (.error .panic, s') := by
  have hr := h.ok.resident f.ip h.mem
  obtain ⟨c0, hbegin, -⟩ := W.beginOp h.ok.volume.settled hidle
  let s1 : Fs κ := { s with cache := c0 }
  have hlock := exec_inodeLock (s := s1) hr h.rc
  have hinode : (s1.setLock f.ip (.initSem 0)).inodes f.ip =
      { s.inodes f.ip with lock := .initSem 0 } := s1.inodes_setLock f.ip (.initSem 0)
  have hmaxbytes : maxbytes < 2 ^ 32 := by decide
  have hsize := h.size
  have hmax : INODE_MAX_BYTES < 2 ^ 32 := by decide
  have hwrite := exec_inodeWrite_too_long (s := s1.setLock f.ip (.initSem 0)) env (some stackCtx) f.ip
    src (by rw [hinode]; exact h.not_device) (by rw [hinode]; exact hoff)
    (show f.off + len < 2 ^ 64 by omega) hlong
  unfold writeTransaction transaction
  rw [exec_bind_ok (exec_onCache hbegin)]
  rw [bind_assoc, exec_bind_ok hlock, bind_assoc, exec_bind_error hwrite]
  exact ⟨_, rfl⟩

/-! ## The loop -/

/-- The state in which the loop of `file_write(f₀, addr, n)`, started in `s₀`, begins a turn with
`idx` bytes written and the file `f`. -/
inductive WriteTurn (env : FsEnv κ) (addr : Nat → UInt8) (n : Int) (f₀ : InodeFile) (s₀ : Fs κ) :
    InodeFile → Nat → Fs κ → Prop where
  | start : f₀.writable = true → WriteTurn env addr n f₀ s₀ f₀ 0 s₀
  | next {f : InodeFile} {idx : Nat} {s s' : Fs κ} {written : Nat} :
      WriteTurn env addr n f₀ s₀ f idx s → (idx : Int) < n →
      (writeTransaction env f (fun i => addr (idx + i)) (min (n - idx).toNat maxbytes)).exec s =
        (.ok written, s') → written = min (n - idx).toNat maxbytes →
      WriteTurn env addr n f₀ s₀ { f with off := usize (f.off + written) } (idx + written) s'

theorem exec_fileWriteLoop_done {fuel : Nat} (h : (idx : Int) = n) :
    (fileWriteLoop env addr n fuel f idx).exec s = (.ok (n, f), s) := by
  cases fuel with
  | zero => rfl
  | succ fuel =>
    rw [fileWriteLoop, if_neg (by omega), if_pos h]
    rfl

theorem exec_fileWriteLoop_turn {fuel : Nat} (h : (idx : Int) < n) :
    (fileWriteLoop env addr n (fuel + 1) f idx).exec s =
      (writeTransaction env f (fun i => addr (idx + i)) (min (n - idx).toNat maxbytes) >>= fun w =>
        if w ≠ min (n - idx).toNat maxbytes then return (-1, { f with off := usize (f.off + w) })
        else fileWriteLoop env addr n fuel { f with off := usize (f.off + w) } (idx + w)).exec s := by
  rw [fileWriteLoop, if_pos h]
  rfl

/-- The first `idx` bytes of the buffer have been written. -/
structure WroteUpTo (B : StoreView κ) (O : OpView κ) (sb : SuperBlock) (addr : Nat → UInt8)
    (f₀ : InodeFile) (s₀ : Fs κ) (f : InodeFile) (idx : Nat) (s : Fs κ) : Prop where
  file : f = { f₀ with off := f₀.off + idx }
  idle : O.idle s.cache
  state : s = s₀.setFile f₀.ip s.cache (s.inodes f₀.ip).entry
  written : FileWritten B sb (s₀.inodes f₀.ip).inodeNo s₀.cache (s₀.inodes f₀.ip).entry f₀.off idx
    addr s.cache (s.inodes f₀.ip).entry

section

variable {addr : Nat → UInt8} {n : Int} {f₀ f : InodeFile} {s₀ : Fs κ} {idx : Nat}

theorem WroteUpTo.start (h : RegularFile B env.sb s₀ f₀.ip) (hidle : O.idle s₀.cache)
    (hoff : f₀.off ≤ (s₀.inodes f₀.ip).entry.numBytes) :
    WroteUpTo B O env.sb addr f₀ s₀ f₀ 0 s₀ where
  file := rfl
  idle := hidle
  state := (s₀.setFile_self f₀.ip).symm
  written := .refl h.ok.volume.settled (h.ok.file h.mem) h.full hoff

theorem WroteUpTo.regular (L : StoreLaws env.cache B) (hib : InodeBlocks B env.sb)
    (h : WroteUpTo B O env.sb addr f₀ s₀ f idx s) (h₀ : RegularFile B env.sb s₀ f₀.ip)
    (hmax : f₀.off + idx ≤ INODE_MAX_BYTES) : RegularFile B env.sb s f.ip := by
  rw [h.file, h.state]
  exact h₀.written L hib hmax h.written

theorem WroteUpTo.ip_eq (h : WroteUpTo B O env.sb addr f₀ s₀ f idx s) : f.ip = f₀.ip := by rw [h.file]

theorem WroteUpTo.off_le (h : WroteUpTo B O env.sb addr f₀ s₀ f idx s) :
    f.off ≤ (s.inodes f.ip).entry.numBytes := by
  rw [h.ip_eq, h.file, h.written.numBytes]
  exact Nat.le_max_right _ _

theorem WroteUpTo.roomForFile (h : WroteUpTo B O env.sb addr f₀ s₀ f idx s)
    (hroom : RoomForFile B s₀ f₀.ip) : RoomForFile B s f.ip := by
  rw [h.ip_eq, RoomForFile, h.written.room]
  exact hroom

theorem WroteUpTo.trans {f' : InodeFile} {s' : Fs κ}
    (h : WroteUpTo B O env.sb addr f₀ s₀ f idx s) (h' : WroteUpTo B O env.sb src f s f' len s')
    (hsrc : ∀ i < len, src i = addr (idx + i)) :
    WroteUpTo B O env.sb addr f₀ s₀ f' (idx + len) s' where
  file := by rw [h'.file, h.file, Nat.add_assoc]
  idle := h'.idle
  state := by
    have hstate := h'.state
    rw [h.ip_eq] at hstate
    rw [hstate, h.state]
    simp
  written := by
    have hno : (s.inodes f₀.ip).inodeNo = (s₀.inodes f₀.ip).inodeNo := by
      rw [h.state, Fs.inodeNo_setFile]
    have hw := h'.written
    rw [h.ip_eq, hno, h.file] at hw
    exact h.written.append hw hsrc

theorem off_add_le (hmax : f₀.off + n ≤ INODE_MAX_BYTES) (hlt : (idx : Int) < n)
    (hlen : len = min (n - idx).toNat maxbytes) :
    f₀.off + (idx + len) ≤ INODE_MAX_BYTES ∧ ((idx + len : Nat) : Int) ≤ n ∧ 0 < len := by
  have hpos : 0 < maxbytes := by decide
  refine ⟨?_, ?_, ?_⟩ <;> omega

variable (W : OpLaws env.cache B O) (L : StoreLaws env.cache B) (hib : InodeBlocks B env.sb)

include W L hib

theorem WroteUpTo.turn (h : WroteUpTo B O env.sb addr f₀ s₀ f idx s)
    (h₀ : RegularFile B env.sb s₀ f₀.ip) (hlen : len ≤ maxbytes)
    (hmax : f₀.off + (idx + len) ≤ INODE_MAX_BYTES) :
    Post (fun w s' => w = len ∧ FitsLog O s.cache s'.cache ∧
        WroteUpTo B O env.sb addr f₀ s₀ { f with off := usize (f.off + len) } (idx + len) s')
      (fun s' => OutOfBlocks B O s.cache s'.cache ∧ ¬ RoomForFile B s₀ f₀.ip)
      ((writeTransaction env f (fun i => addr (idx + i)) len).exec s) := by
  have hreg := h.regular L hib h₀ (by omega)
  have hfoff : f.off = f₀.off + idx := by rw [h.file]
  refine (post_writeTransaction W L hib hreg h.idle h.off_le (by omega) hlen).imp ?_
    fun _ hE => ⟨hE.1, fun hr => hE.2 (h.roomForFile hr)⟩
  rintro w _ ⟨hwlen, c, e, rfl, hw, hidle, hfits⟩
  have husize : usize (f.off + len) = f.off + len :=
    Nat.mod_eq_of_lt (Nat.lt_of_le_of_lt (show f.off + len ≤ INODE_MAX_BYTES by omega) (by decide))
  refine ⟨hwlen, hfits, h.trans ⟨by rw [husize], hidle, by simp, ?_⟩ fun _ _ => rfl⟩
  rwa [Fs.inodes_setFile, Fs.cache_setFile]

section

variable (h₀ : RegularFile B env.sb s₀ f₀.ip)

include h₀

theorem WriteTurn.wroteUpTo (hidle : O.idle s₀.cache)
    (hoff : f₀.off ≤ (s₀.inodes f₀.ip).entry.numBytes) (hmax : f₀.off + n ≤ INODE_MAX_BYTES)
    (h : WriteTurn env addr n f₀ s₀ f idx s) : WroteUpTo B O env.sb addr f₀ s₀ f idx s := by
  induction h with
  | start _ => exact .start h₀ hidle hoff
  | next _ hlt hexec hlen ih =>
    obtain ⟨hfit, -⟩ := off_add_le hmax hlt rfl
    have hpost := ih.turn W L hib h₀ (Nat.min_le_right _ _) hfit
    rw [hexec] at hpost
    obtain ⟨-, -, hwrote⟩ := hpost
    rw [hlen]
    exact hwrote

theorem post_fileWriteLoop
    (hmax : f₀.off + n ≤ INODE_MAX_BYTES) : ∀ (fuel idx : Nat) (f : InodeFile) (s : Fs κ),
    (idx : Int) ≤ n → n ≤ idx + fuel → WroteUpTo B O env.sb addr f₀ s₀ f idx s →
    Post (fun r s' => r.1 = n ∧ WroteUpTo B O env.sb addr f₀ s₀ r.2 n.toNat s')
      (fun s' => (∃ c, DiskFull B O c s'.cache) ∧ ¬ RoomForFile B s₀ f₀.ip)
      ((fileWriteLoop env addr n fuel f idx).exec s) := by
  intro fuel
  induction fuel with
  | zero =>
    intro idx f s hle hfuel h
    have heq : (idx : Int) = n := by omega
    refine ⟨rfl, ?_⟩
    rwa [← heq, Int.toNat_natCast]
  | succ fuel ih =>
    intro idx f s hle hfuel h
    rcases Int.lt_or_eq_of_le hle with hlt | heq
    · obtain ⟨hfit, hle', hpos⟩ := off_add_le hmax hlt rfl
      rw [exec_fileWriteLoop_turn hlt]
      refine Post.bind ((h.turn W L hib h₀ (Nat.min_le_right _ _) hfit).imp (fun _ _ hq => hq)
        fun s' hE => ?_) ?_
      · obtain ⟨⟨c, -, hfull⟩, hroom⟩ := hE
        exact ⟨⟨c, hfull⟩, hroom⟩
      rintro w s' ⟨rfl, -, hwrote⟩
      rw [if_neg (fun hne => hne rfl)]
      exact ih _ _ s' hle' (by omega) hwrote
    · rw [exec_fileWriteLoop_done heq]
      refine ⟨rfl, ?_⟩
      rwa [← heq, Int.toNat_natCast]

end

theorem post_fileWrite (addr : Nat → UInt8) (h : RegularFile B env.sb s f.ip) (hidle : O.idle s.cache)
    (hwritable : f.writable = true) (hoff : f.off ≤ (s.inodes f.ip).entry.numBytes) (hn : 0 ≤ n)
    (hmax : f.off + n ≤ INODE_MAX_BYTES) :
    Post (fun r s' => r.1 = n ∧ WroteUpTo B O env.sb addr f s r.2 n.toNat s')
      (fun s' => (∃ c, DiskFull B O c s'.cache) ∧ ¬ RoomForFile B s f.ip)
      ((fileWrite env f addr n).exec s) := by
  rw [fileWrite, if_pos hwritable]
  exact post_fileWriteLoop W L hib h hmax _ 0 f s hn (by omega) (.start h hidle hoff)

end

/-! ## On the cache of the kernel -/

theorem kernel_laws (hl : sb.Layout) :
    OpLaws (FsEnv.kernel sb).cache (kernelView sb) kernelOp ∧
      StoreLaws (FsEnv.kernel sb).cache (kernelView sb) ∧
      InodeBlocks (kernelView sb) (FsEnv.kernel sb).sb :=
  ⟨kernelOps hl, kernelLaws hl, kernelBlocks hl⟩

/-- In an operation that has stopped for want of a block, `cache_sync` would not have stopped. -/
theorem DiskFull.rm {s₀ s : Cache} (h : DiskFull (kernelView sb) kernelOp s₀ s) :
    2 ≤ (s.ctxs stackCtx).rm ∧ s.header.numBlocks < LOG_MAX_SIZE ∧ (s.freeBlocks sb).card = 0 := by
  have hrun : InOp s₀ s := h.running
  have hcard := hrun.card
  have hcredit := hrun.credit
  have hlog := h.log
  rw [OP_MAX_NUM_BLOCKS_eq] at hcredit hlog
  rw [LOG_MAX_SIZE_eq]
  exact ⟨by omega, by omega, h.room⟩

/-- Each operation of `file_write` on a regular file without holes passes at most
`OP_MAX_NUM_BLOCKS` different blocks to `cache_sync`.  `file_write` stops only if no free block
is left; then the operation may pass two more blocks, and the log has room for them. -/
theorem file_write_fits_log {sb : SuperBlock} (hl : sb.Layout) {s : Fs Cache} {f : InodeFile}
    (addr : Nat → UInt8) (n : Int) (h : RegularFile (kernelView sb) sb s f.ip) (hidle : Idle s.cache)
    (hoff : f.off ≤ (s.inodes f.ip).entry.numBytes) (hmax : f.off + n ≤ INODE_MAX_BYTES) :
    (∀ f' idx s', WriteTurn (.kernel sb) addr n f s f' idx s' → (idx : Int) < n →
      ∀ r s'', (writeTransaction (.kernel sb) f' (fun i => addr (idx + i))
          (min (n - idx).toNat maxbytes)).exec s' = (r, s'') →
        (∃ l, s''.cache.syncs = s'.cache.syncs ++ l ∧ l.toFinset.card ≤ OP_MAX_NUM_BLOCKS) ∧
        (∀ halt, r = .error halt → 2 ≤ (s''.cache.ctxs stackCtx).rm ∧
          s''.cache.header.numBlocks < LOG_MAX_SIZE ∧ (s''.cache.freeBlocks sb).card = 0)) ∧
    (0 ≤ n → ∀ halt s', (fileWrite (.kernel sb) f addr n).exec s = (.error halt, s') →
      2 ≤ (s'.cache.ctxs stackCtx).rm ∧ s'.cache.header.numBlocks < LOG_MAX_SIZE ∧
        (s'.cache.freeBlocks sb).card = 0) := by
  obtain ⟨W, L, hib⟩ := kernel_laws hl
  refine ⟨fun f' idx s' hturn hlt r s'' hexec => ?_, fun hn halt s' hexec => ?_⟩
  · obtain ⟨hfit, -⟩ := off_add_le hmax hlt rfl
    have hpost := (hturn.wroteUpTo W L hib h hidle hoff hmax).turn W L hib h
      (Nat.min_le_right _ _) hfit
    rw [hexec] at hpost
    cases r with
    | ok w =>
      obtain ⟨-, hfits, -⟩ := hpost
      exact ⟨hfits, nofun⟩
    | error halt =>
      have hfull := hpost.1
      refine ⟨hfull.fitsLog W, fun _ _ => ?_⟩
      obtain ⟨c, -, hfull⟩ := hfull
      exact hfull.rm
  · by_cases hw : f.writable = true
    · have hpost := post_fileWrite W L hib addr h hidle hw hoff hn hmax
      rw [hexec] at hpost
      obtain ⟨⟨c, hfull⟩, -⟩ := hpost
      exact hfull.rm
    · rw [fileWrite, if_neg hw] at hexec
      cases hexec

/-- A machine before the device `d` with the `n` inodes after that of the root directory in memory,
at the addresses from 0 on. -/
def openImage (d : Nat → Data) (n : Nat) : Fs Cache :=
  { switchedOn d with
    cache := rebooted Mkfs.superBlock (powerOn d)
    inodes := fun ip => { initInode with
      inodeNo := 2 + ip
      rc := 1
      valid := true
      entry := entryAt Mkfs.superBlock d (2 + ip) }
    inodeHead := List.range n
    inodeBrk := n }

/-- The empty file of `smallImage` in memory at address 0. -/
def smallOpen : Fs Cache := openImage smallImage 1

theorem toBlockNo_mkfs {no : Nat} (hno : Mkfs.superBlock.HasInode no) :
    Mkfs.superBlock.toBlockNo no = 65 + no / 8 ∧ Mkfs.superBlock.toBlockNo no < 91 := by
  have hlt : no < 200 := hno.2
  have hblock : superBlock.toBlockNo no = 65 + no / 8 := rfl
  omega

section

variable {d : Nat → Data} (hd : ∀ b, b ≠ 65 → b ≠ 91 → d b = smallImage b)
  (hfirst : ∀ no < 8, refs d (entryAt Mkfs.superBlock d no) = if no = 1 then [92] else [])

include hd hfirst

theorem refs_image {no : Nat} (hno : Mkfs.superBlock.HasInode no) :
    refs d (entryAt Mkfs.superBlock d no) = if no = 1 then [92] else [] := by
  by_cases h8 : no < 8
  · exact hfirst no h8
  have hblock := toBlockNo_mkfs hno
  have hzero : d (superBlock.toBlockNo no) = Bytes.zero := by
    rw [hd _ (by omega) (by omega), smallImage, if_neg (by omega), if_neg (by omega),
      if_neg (by omega)]
  rw [entryAt, hzero, InodeEntry.ofBlock_zero, if_neg (by omega)]
  exact refs_eq_nil (fun _ _ => Bytes.readLE_zero _ _) (Bytes.readLE_zero _ _)

/-- The files of the image are ready to be written to. -/
theorem openImage_ready {n : Nat}
    (hbits : ∀ b < 93, (rebooted Mkfs.superBlock (powerOn d)).bit Mkfs.superBlock b = true)
    (hfiles : ∀ ip < n, Mkfs.superBlock.HasInode (2 + ip) ∧
      (entryAt Mkfs.superBlock d (2 + ip)).type = INODE_REGULAR ∧
      (entryAt Mkfs.superBlock d (2 + ip)).numBytes = 0) :
    (∀ ip < n, RegularFile (kernelView Mkfs.superBlock) Mkfs.superBlock (openImage d n) ip) ∧
      Idle (openImage d n).cache := by
  have hstart : superBlock.dataStart = 92 := by decide
  have hempty : (LogHeader.ofData (d superBlock.logStart)).numBlocks = 0 := by
    rw [hd _ (by decide) (by decide)]
    exact LogHeader.numBlocks_ofData_zero
  obtain ⟨hs, hidle⟩ := settled_rebooted hempty fun b hb => hbits b (by omega)
  have hv : Volume (kernelView superBlock) superBlock (openImage d n).cache :=
    .of_owner hs (List.nodup_singleton 92)
      (List.forall_mem_singleton.mpr (.inr (hbits 92 (by decide))))
      (List.forall_mem_singleton.mpr (show ¬ (92 < superBlock.dataStart ∨ 1000 ≤ 92) by decide))
      fun no hno => refs_image hd hfirst hno
  have hok : FsOk (kernelView superBlock) superBlock (openImage d n) :=
    ⟨hv, fun ip hip => ⟨rfl, (hfiles ip (List.mem_range.mp hip)).1, rfl, rfl⟩,
      List.nodup_range.map fun _ _ => Nat.add_left_cancel, fun ip hip => List.mem_range.mp hip⟩
  refine ⟨fun ip hip => ?_, hidle⟩
  obtain ⟨-, htype, hsize⟩ := hfiles ip hip
  refine ⟨hok, List.mem_range.mpr hip, Int.one_pos, htype, ?_, fun i hi => ?_⟩
  · show (entryAt superBlock d (2 + ip)).numBytes ≤ INODE_MAX_BYTES
    rw [hsize]
    exact Nat.zero_le _
  · have hi : i * BLOCK_SIZE < (entryAt superBlock d (2 + ip)).numBytes := hi
    rw [hsize] at hi
    exact absurd hi (Nat.not_lt_zero _)

end

theorem smallOpen_ready :
    RegularFile (kernelView Mkfs.superBlock) Mkfs.superBlock smallOpen 0 ∧ Idle smallOpen.cache := by
  obtain ⟨hreg, hidle⟩ := openImage_ready (fun _ _ _ => rfl) (by decide +kernel) (by decide +kernel)
    (n := 1) (by decide +kernel)
  exact ⟨hreg 0 Nat.one_pos, hidle⟩

/-- Writing 3000 bytes to `f` takes two operations; this is about the first. -/
theorem file_write_fits_log_small :
    ∃ r s', (writeTransaction (.kernel Mkfs.superBlock) ⟨true, 0, 0⟩ (fun i => .ofNat (0 + i))
        maxbytes).exec smallOpen = (r, s') ∧
      (∃ l, s'.cache.syncs = smallOpen.cache.syncs ++ l ∧ l.toFinset.card ≤ OP_MAX_NUM_BLOCKS) ∧
      (∀ halt, r = .error halt → 2 ≤ (s'.cache.ctxs stackCtx).rm ∧
        s'.cache.header.numBlocks < LOG_MAX_SIZE ∧
        (s'.cache.freeBlocks Mkfs.superBlock).card = 0) := by
  obtain ⟨hreg, hidle⟩ := smallOpen_ready
  have h := (file_write_fits_log layout_mkfs (f := ⟨true, 0, 0⟩) (fun i => .ofNat i) 3000 hreg hidle
    (Nat.zero_le _) (by decide)).1 _ 0 smallOpen (.start rfl) (by decide)
  exact ⟨_, _, rfl, h _ _ rfl⟩

end OsKernel
