import OsKernel.Kernel.UserRange
import OsKernel.Kernel.VmTables

/-!
# Heaps, file pages and buffers

What `sbrk`, the fault handler and `user_writeable` do for a process, against its sections.
`sbrk` takes the first section of the list for the heap, and no process has a heap; a fault in a
mapped file reads a page of it from the faulting address on, and `user_writeable` looks at entries,
not at sections.
-/

namespace OsKernel

open List PageSys

/-! ## Memory -/

/-- The pages after `kalloc_page`. -/
def PageState.kalloc (L : MemLayout) (s : PageState) : PageState :=
  if s.takePage.1 ≠ 0 then
    { s.takePage.2 with kallocPageCnt := s.kallocPageCnt + 1 }.addRef (L.pageIndex s.takePage.1) 1
  else { s.takePage.2 with kallocPageCnt := s.kallocPageCnt + 1 }

namespace Mem

open Prog

variable {L : MemLayout} {m : Mem} {d : DirId} {va : Nat}

theorem exec_kallocPage (m : Mem) :
    (kallocPage L).exec m = (.ok m.pages.takePage.1, { m with pages := m.pages.kalloc L }) := by
  obtain ⟨⟨free, next, ref, cnt⟩, data, pte⟩ := m
  cases free <;> rfl

/-- Memory after `vmmap`. -/
def mapped (L : MemLayout) (m : Mem) (d : DirId) (va ka : Nat) (flags : UserFlags) : Mem :=
  { m.setPte d va (some ⟨ka, flags⟩) with pages := m.pages.addRef (L.pageIndex ka) 1 }

theorem exec_vmmap {ka : Nat} {flags : UserFlags} :
    (vmmap L d va ka flags).exec m = (.ok (), m.mapped L d va ka flags) := rfl

@[simp] theorem pte_setPte_self {e : Option Pte} : (m.setPte d va e).pte d (slotNo va) = e := by
  simp [setPte]

theorem data_write_self {page off len : Nat} {src : Nat → UInt8} (i : Nat) :
    (m.write page off len src).data page i =
      if off ≤ i ∧ i < off + len then src (i - off) else m.data page i := by
  simp [write]

theorem exec_fillPage (m : Mem) (page : Nat) {n : Nat} (hn : n ≤ PAGE_SIZE) (src : Nat → UInt8) :
    ∃ m', (do
        modify fun m : Mem => m.write page 0 n src
        if n < PAGE_SIZE then modify fun m => m.write page n (PAGE_SIZE - n) fun _ => 0 :
          MemM Unit).exec m = (.ok (), m') ∧ m'.pte = m.pte ∧
      ∀ i < PAGE_SIZE, m'.data page i = if i < n then src i else 0 := by
  rw [exec_bind_ok (exec_modify _ _)]
  by_cases hlt : n < PAGE_SIZE
  · rw [if_pos hlt]
    refine ⟨_, rfl, rfl, fun i hi => ?_⟩
    rw [data_write_self, data_write_self]
    by_cases hin : i < n
    · rw [if_neg (by omega), if_pos (by omega), if_pos hin, Nat.sub_zero]
    · rw [if_pos (by omega), if_neg hin]
  · rw [if_neg hlt]
    refine ⟨_, rfl, rfl, fun i hi => ?_⟩
    rw [data_write_self, if_pos (by omega), if_pos (by omega), Nat.sub_zero]

end Mem

namespace Vm

open Prog

variable {L : MemLayout} {s : Vm} {p : Nat}

/-! ## Buffers -/

/-- The test of `user_writeable` for one address. -/
def writeTest (s : Vm) (p va : Nat) : Bool :=
  match s.mem.pte (.proc p) (slotNo va) with
  | none => false
  | some e => ¬ e.ReadOnly ∧ e.User

/-- `user_writeable(start, size)` returns `b` for process `p`. -/
def userWriteable (s : Vm) (p start size : Nat) (b : Bool) : Prop :=
  RangeReturns (s.writeTest p) start size b

/-- A store to `va` does not fault. -/
def Touched (s : Vm) (p va : Nat) : Prop := ∃ e, s.userPte p va = some e ∧ ¬ e.ReadOnly

theorem userPte_eq {va : Nat} (hva : va < USERTOP) :
    s.userPte p va = s.mem.pte (.proc p) (slotNo va) := by
  rw [userPte, if_pos hva]
  cases s.mem.pte (.proc p) (slotNo va) with
  | none => rfl
  | some e => exact Option.filter_some_pos (decide_eq_true e.flags.property)

/-- The test is whether a store would fault. -/
theorem writeTest_iff {va : Nat} (hva : va < USERTOP) : s.writeTest p va = true ↔ s.Touched p va := by
  rw [writeTest, Touched, userPte_eq hva]
  cases s.mem.pte (.proc p) (slotNo va) with
  | none => simp
  | some e => simp [e.flags.property.2]

theorem writeTest_congr {va va' : Nat} (h : va / BLOCK_SIZE = va' / BLOCK_SIZE) :
    s.writeTest p va = s.writeTest p va' := by
  have hslot : slotNo va = slotNo va' := by
    simp only [slotNo, PAGE_SIZE, BLOCK_SIZE] at h ⊢
    omega
  rw [Vm.writeTest, Vm.writeTest, hslot]

/-- What a fault leaves: a process that is killed, or a page that can be written. -/
def Served (p va : Nat) (s : Vm) : Prop := s.killed p = true ∨ s.Touched p va

namespace Served

variable {va : Nat}

theorem kill : Hoare (fun _ => True) (killProcess p) (fun _ => Served p va) :=
  .modify fun _ _ => .inl (Function.update_self ..)

theorem vmmap (hva : va < USERTOP) (page : Nat) : Hoare (fun _ => True)
    (onMem (Mem.vmmap L (.proc p) va page PTE_USER_DATA)) (fun _ => Served p va) := fun _ _ =>
  .inr ⟨⟨page, PTE_USER_DATA⟩, (userPte_eq hva).trans Mem.pte_setPte_self,
    show ¬ PTE_USER_DATA.val &&& PTE_RO ≠ 0 by decide⟩

theorem faultMapped (hva : va < USERTOP) (sec : Section) :
    Hoare (fun _ => True) (faultMapped L p va sec) (fun _ => Served p va) := by
  refine .bind (keeps_onMem (fun _ _ h => h) (fun _ h => h) _) fun page => ?_
  refine .ite (fun _ => kill) fun _ => .bind (vmmap hva page) fun _ => ?_
  -- the page is mapped before the file is looked at, and stays so
  refine .read fun s => ?_
  have hkill : Hoare (Served p va) (killProcess p) (fun _ => Served p va) :=
    kill.pre fun _ _ => trivial
  split
  · exact hkill
  refine .ite (fun _ => hkill) fun _ => ?_
  split
  · exact .throw fun _ _ => trivial
  · have hread : ∀ ip pos n, Preserves (Served p va) (inodeRead ip pos n) := fun _ _ _ =>
      .read fun _ => .ite (.throw _ fun _ _ => trivial) (.ite (.pure _) (.throw _ fun _ _ => trivial))
    refine .bind (hread _ _ _) fun r s hs => ?_
    dsimp only
    split <;> exact hs

/-- A page that is mapped writable does not fault. -/
theorem faultAnonymous (hva : va < USERTOP) (s : Vm)
    (hfault : ∀ e, s.mem.pte (.proc p) (slotNo va) = some e → e.ReadOnly) :
    Hoare (fun s1 => s1 = s) (faultAnonymous L p va) (fun _ => Served p va) := by
  have hget : Hoare (fun s1 => s1 = s) (onMem (Mem.getPte (.proc p) va))
      (fun r s1 => r = s.mem.pte (.proc p) (slotNo va) ∧ s1 = s) := by
    rintro _ rfl
    exact ⟨rfl, rfl⟩
  refine .bind hget fun r => Triple.of_and fun hr => Triple.pre (P := fun _ => True) ?_ fun _ _ => trivial
  have hnew : ∀ {x : Nat → VmM Unit}, (∀ page, Hoare (fun _ => True) (x page) (fun _ => Served p va)) →
      Hoare (fun _ => True) (onMem (Mem.kallocPage L) >>= fun page =>
        if page = 0 then killProcess p else x page) (fun _ => Served p va) := fun hx =>
    .bind (keeps_onMem (fun _ _ h => h) (fun _ h => h) _) fun page => .ite (fun _ => kill) fun _ => hx page
  subst hr
  split
  next => exact hnew fun page => vmmap hva page
  next e he =>
    refine .ite (fun _ => hnew fun page => ?_) fun hro => absurd (hfault e he) hro
    exact fun s _ => vmmap (L := L) hva page
      { s with mem := s.mem.write page 0 PAGE_SIZE (s.mem.data e.page) } trivial

end Served

/-- A store, or the fault that it leads to, leaves the page writable unless the process is killed. -/
theorem served_store {va : Nat} (hva : va < USERTOP) {b : UInt8} {s' : Vm}
    (hstep : s.step L (.store p va b) = .ok s') : Served p va s' := by
  refine step_post hstep (E := fun _ => True) ?_
  refine .get_bind fun s1 hs1 => ?_
  subst hs1
  split
  next e he =>
    obtain ⟨hpte, hro⟩ := Option.filter_eq_some_iff.mp he
    rintro _ rfl
    exact .inr ⟨e, hpte, of_decide_eq_true hro⟩
  next he =>
    refine .ite (fun _ => Served.kill.pre fun _ _ => trivial) fun _ => .get_bind fun s2 hs2 => ?_
    subst hs2
    split
    · exact Served.kill.pre fun _ _ => trivial
    refine .ite (fun _ => (Served.faultMapped hva _).pre fun _ _ => trivial) fun _ => ?_
    refine Served.faultAnonymous hva s2 fun e hpte => ?_
    rw [userPte_eq hva, hpte, Option.filter_eq_none_iff] at he
    simpa using he e rfl

/-- No process has sections: the kernel before the first `execve`. -/
def Boot (s : Vm) : Prop := ∀ p, s.sections p = []

/-- An executable with a segment of data at `0x10000`, of which no byte is in the file and a page is in
memory. -/
def bssProgram : FileData where
  type := INODE_REGULAR
  size := 120
  bytes k := ([(0, 127), (1, 69), (2, 76), (3, 70), (4, 2), (32, 64), (56, 1), (64, 1), (68, 6), (82, 1),
    (105, 16)].lookup k).getD 0

/-- The kernel with 64 pages. -/
def bootLayout : MemLayout := ⟨p2k 0x7FFC0000, by decide, by decide⟩

/-- Process `0` before its first `execve`.  File `7` is open, and the other files are executables. -/
def booted : Vm :=
  let file : FileData := ⟨INODE_REGULAR, 6000, fun i => .ofNat (i / 4096 + 1)⟩
  { single bootLayout ⟨.FD_INODE, 1, true, true, some 7, 0⟩ file with
    inodes := fun i => if i = 7 then file else bssProgram }

theorem boot_booted : Boot booted := by
  intro p
  dsimp only [booted, single, sections]
  split <;> rfl

def ST_HEAP : Nat := 8

/-- No section of any process is flagged `ST_HEAP`. -/
def NoHeap (s : Vm) : Prop := ∀ p, ∀ sec ∈ s.sections p, sec.flags &&& ST_HEAP = 0

section

variable {s' : Vm} {W : Nat → Prop} {t : Tables}

theorem NoHeap.turns (ht : Turns s W t s')
    (h : ∀ p, ∀ sec ∈ (t.procs p).sections, sec.flags &&& ST_HEAP = 0) : NoHeap s' := by
  intro p
  rw [sections, ht.procs]
  exact h p

theorem NoHeap.setProc {proc : ProcFiles} (h : NoHeap s)
    (hp : ∀ sec ∈ proc.sections, sec.flags &&& ST_HEAP = 0) (q : Nat) :
    ∀ sec ∈ ((s.tables.setProc p proc).procs q).sections, sec.flags &&& ST_HEAP = 0 :=
  Tables.forall_setProc (P := fun _ pr => ∀ sec ∈ pr.sections, sec.flags &&& ST_HEAP = 0) h hp q

/-- The sections of an executable are text or data. -/
theorem flags_of_mem_elfSections {file : FileData} {sec : Section} (h : sec ∈ elfSections file) :
    sec.flags &&& ST_HEAP = 0 := by
  rw [elfSections, mem_reverse] at h
  obtain ⟨_, _, hseg⟩ := mem_segments h
  obtain ⟨segType, htype, rfl⟩ := Option.map_eq_some_iff.mp hseg
  rw [FileSys.getSectionType] at htype
  split at htype
  · cases htype
    exact show 5 &&& ST_HEAP = 0 by decide
  split at htype
  · cases htype
    exact show FileSys.ST_FILE &&& ST_HEAP = 0 by decide
  · cases htype

theorem NoHeap.step {op : VmOp} (h : NoHeap s) (hs : s.step L op = .ok s') : NoHeap s' := by
  have hout := step_outcome hs
  cases op with
  | load p va => exact .turns hout h
  | store p va b => exact .turns hout h
  | sbrk p size =>
    obtain ⟨sec, rest, hsec, ht⟩ := hout
    refine .turns ht (h.setProc fun sec' hmem => ?_)
    rcases mem_cons.mp hmem with rfl | hrest
    · exact h p sec (hsec ▸ mem_cons_self)
    · exact h p sec' (hsec ▸ mem_cons_of_mem sec hrest)
  | mmap p addr length prot flags fd offset =>
    rcases hout with rfl | ⟨f, _, _, ht⟩
    · exact h
    refine .turns ht (h.setProc fun sec hmem => ?_)
    rcases mem_cons.mp hmem with rfl | hold
    · exact show FileSys.ST_FILE &&& ST_HEAP = 0 by decide
    · exact h p sec hold
  | munmap p addr length =>
    rcases hout with ht | ⟨n, sec, hn, _, ht⟩
    · exact .turns ht h
    refine .turns ht (h.setProc fun sec' hmem => ?_)
    obtain ⟨sec0, hsec0, hflags, _⟩ := mem_trimmed hn _ _ hmem
    exact hflags ▸ h p sec0 hsec0
  | fork p =>
    obtain ⟨o, _, ht⟩ := hout
    exact .turns ht (h.setProc fun sec hmem => h p sec (mem_reverse.mp hmem))
  | execve p file argv envp =>
    rcases hout with ht | ⟨ip, _, ht⟩
    · exact .turns ht h
    refine .turns ht (h.setProc fun sec hmem => ?_)
    rcases mem_cons.mp hmem with rfl | hseg
    · exact show FileSys.ST_FILE &&& ST_HEAP = 0 by decide
    · exact flags_of_mem_elfSections hseg
  | exit p =>
    obtain ⟨o, _, ht⟩ := hout
    exact .turns ht (h.setProc nofun)

end

/-- No process ever has a heap: what `sbrk` moves, and returns the end of, is the first section of the
list, whichever it is. -/
theorem sbrk_never_moves_heap (h : Runs.Reach (Vm.step L) Runs.always Boot s) (p : Nat) (size : Int) :
    (∀ sec ∈ s.sections p, sec.flags &&& ST_HEAP = 0) ∧
      Hoare (fun s1 => s1 = s) (sbrk L p size) (fun r s' => ∃ sec rest, s.sections p = sec :: rest ∧
        r = sec.endAddr ∧
        s'.sections p = { sec with endAddr := ((sec.endAddr + size) % 2 ^ 64).toNat } :: rest) := by
  have hnone : NoHeap s := by
    refine h.invariant (fun s hs p sec hsec => ?_) fun _ _ _ hs _ hstep => hs.step hstep
    rw [hs p] at hsec
    cases hsec
  refine ⟨hnone p, (sbrk_turns L s noFile p size).conseq (fun _ h => h) ?_ fun _ h => h⟩
  rintro r s' ⟨sec, rest, hsec, hr, ht⟩
  refine ⟨sec, rest, hsec, hr, ?_⟩
  rw [sections, ht.procs]
  simp [Tables.setSections, Tables.setProc]

/-- After `execve`, it is the stack that `sbrk` moves. -/
theorem sbrk_never_moves_heap_stack :
    ∃ s s' rest, Runs.Reach (Vm.step bootLayout) Runs.always Boot s ∧
      s.sections 0 = FileSys.stackSection :: rest ∧
      (sbrk bootLayout 0 4096).exec s = (.ok USERTOP, s') ∧
      s'.sections 0 = { FileSys.stackSection with endAddr := USERTOP + 4096 } :: rest := by
  obtain ⟨s, hs, ht⟩ := Runs.Reach.of_execTest boot_booted
    (show Runs.execTest (Vm.step bootLayout) booted [.execve 0 (some 8) [] []]
      (fun s => decide ((s.sections 0).head? = some FileSys.stackSection)) = true by decide +kernel)
  obtain ⟨rest, hsec⟩ := head?_eq_some_iff.mp (of_decide_eq_true ht)
  have hpost := (sbrk_never_moves_heap hs 0 4096).2 s rfl
  have hexec : (sbrk bootLayout 0 4096).exec s = (.ok USERTOP, { s with
      tables := s.tables.setSections 0
        ({ FileSys.stackSection with endAddr := USERTOP + 4096 } :: rest) }) := by
    rw [sbrk, if_neg (by decide), exec_bind_ok (exec_get s), hsec]
    rfl
  rw [hexec] at hpost
  obtain ⟨sec, rest', hsec', _, hmoved⟩ := hpost
  rw [hsec] at hsec'
  obtain ⟨rfl, rfl⟩ := cons.inj hsec'
  exact ⟨s, _, rest, hs, hsec, hexec, hmoved⟩

/-- With a mapped file in front of the sections of the program, `sbrk` moves the end of the mapping. -/
theorem sbrk_moves_mapping :
    ∃ s s', Runs.Reach (Vm.step bootLayout) Runs.always Boot s ∧
      (s.sections 0).map (fun sec => (sec.flags, sec.endAddr)) =
        [(FileSys.ST_FILE, 0x21000), (FileSys.ST_FILE, USERTOP), (FileSys.ST_FILE, 0x11000)] ∧
      (sbrk bootLayout 0 4096).exec s = (.ok 0x21000, s') ∧
      (s'.sections 0).map (fun sec => (sec.flags, sec.endAddr)) =
        [(FileSys.ST_FILE, 0x22000), (FileSys.ST_FILE, USERTOP), (FileSys.ST_FILE, 0x11000)] := by
  obtain ⟨s, hs, ht⟩ := Runs.Reach.of_execTest boot_booted
    (show Runs.execTest (Vm.step bootLayout) booted
      [.execve 0 (some 8) [] [], .mmap 0 0x20000 4096 1 2 0 0]
      (fun s => match (sbrk bootLayout 0 4096).exec s with
        | (.ok r, s') => decide ((s.sections 0).map (fun sec => (sec.flags, sec.endAddr)) =
            [(FileSys.ST_FILE, 0x21000), (FileSys.ST_FILE, USERTOP), (FileSys.ST_FILE, 0x11000)] ∧
          r = 0x21000 ∧ (s'.sections 0).map (fun sec => (sec.flags, sec.endAddr)) =
            [(FileSys.ST_FILE, 0x22000), (FileSys.ST_FILE, USERTOP), (FileSys.ST_FILE, 0x11000)])
        | _ => false) = true by decide +kernel)
  split at ht
  next r s' hexec =>
    obtain ⟨hsec, rfl, hsec'⟩ := of_decide_eq_true ht
    exact ⟨s, s', hs, hsec, hexec, hsec'⟩
  next => cases ht

/-! ## Pages of files -/

/-- The position in the file that address `a` of the section stands for. -/
def filePos (sec : Section) (a : Nat) : Nat := usize (sec.offset + (a - sec.beginAddr))

/-- Byte `k` of the file, and zero past its end. -/
def fileByte (file : FileData) (k : Nat) : UInt8 := if k < file.size then file.bytes k else 0

/-- The page of `addr` shows the bytes of the file, wherever the section has it. -/
def ShowsFile (s : Vm) (p addr : Nat) (sec : Section) (file : FileData) : Prop :=
  ∀ a, a / PAGE_SIZE = addr / PAGE_SIZE → sec.Contains a →
    s.loaded p a = some (fileByte file (filePos sec a))

/-- An access to `addr` faults, and the first section with the address maps a regular file that is
open for reading. -/
structure FileFault (s : Vm) (p addr : Nat) (sec : Section) (file : FileData) : Prop where
  fault : s.userPte p addr = none
  found : (s.sections p).find? (fun sec => sec.Contains addr) = some sec
  mapped : sec.mmapFlags ≠ 0
  open_ : ∃ f ip, sec.fp = some f ∧ (s.tables.flist f).readable = true ∧
    (s.tables.flist f).type = .FD_INODE ∧ (s.tables.flist f).ip = some ip ∧ s.inodes ip = file
  type : file.type ≠ INODE_DEVICE
  size : file.size ≤ INODE_MAX_BYTES

theorem and_kspace_mask {addr : Nat} (h : addr < USERTOP) : addr &&& KSPACE_MASK = 0 := by
  refine Nat.eq_of_testBit_eq fun i => ?_
  rw [Nat.testBit_and, Nat.zero_testBit, show KSPACE_MASK = 2 ^ 48 * 0xFFFF by decide,
    Nat.testBit_two_pow_mul]
  by_cases hi : 48 ≤ i
  · rw [Nat.testBit_lt_two_pow (Nat.lt_of_lt_of_le h (Nat.pow_le_pow_right Nat.two_pos hi)),
      Bool.false_and]
  · rw [decide_eq_false hi, Bool.false_and, Bool.and_false]

section

variable {ip pos count : Nat} {m : Mem}

theorem exec_inodeRead (m : Mem) (htype : (s.inodes ip).type ≠ INODE_DEVICE)
    (hsize : (s.inodes ip).size ≤ INODE_MAX_BYTES) (hpos : pos ≤ (s.inodes ip).size)
    (hcount : count ≤ PAGE_SIZE) :
    (inodeRead ip pos count).exec { s with mem := m } =
      (.ok (fun i => (s.inodes ip).bytes (pos + i), min count ((s.inodes ip).size - pos)),
        { s with mem := m }) := by
  have hmax : INODE_MAX_BYTES < 2 ^ 32 := by decide
  rw [PAGE_SIZE] at hcount
  have hend : usize (count + pos) = count + pos := Nat.mod_eq_of_lt (by omega)
  have hread : (if (s.inodes ip).size < usize (count + pos)
      then usizeSub (s.inodes ip).size pos else count) = min count ((s.inodes ip).size - pos) := by
    rw [hend]
    by_cases hlt : (s.inodes ip).size < count + pos
    · rw [if_pos hlt]
      simp only [usizeSub, usize]
      omega
    · rw [if_neg hlt]
      omega
  unfold inodeRead
  rw [exec_bind_ok (exec_get _), if_neg htype, hread, if_pos, exec_pure]
  simp only [usize]
  omega

/-- The assertion of `inode_read` on the offset. -/
theorem exec_inodeRead_past (htype : (s.inodes ip).type ≠ INODE_DEVICE)
    (hpos : (s.inodes ip).size < pos) :
    (inodeRead ip pos count).exec s = (.error .panic, s) := by
  unfold inodeRead
  rw [exec_bind_ok (exec_get _), if_neg htype, if_neg fun h => Nat.not_le_of_lt hpos h.1]
  rfl

end

namespace FileFault

variable {addr : Nat} {sec : Section} {file : FileData}

theorem exec_handler (h : FileFault s p addr sec file) (hlow : 4 * PAGE_SIZE ≤ addr)
    (htop : addr < USERTOP) :
    (pgfaultHandler L p addr).exec s = (faultMapped L p addr sec).exec s := by
  rw [pgfaultHandler, if_neg (by simp [and_kspace_mask htop, hlow]), exec_bind_ok (exec_get s), h.found]
  exact congrArg (Prog.exec · s) (if_pos h.mapped)

/-- Without a page, or below the fourth page, the process is killed and nothing is mapped. -/
theorem not_mapped (h : FileFault s p addr sec file)
    (hout : ¬ (4 * PAGE_SIZE ≤ addr ∧ addr < USERTOP ∧ s.mem.pages.takePage.1 ≠ 0)) {s' : Vm}
    (hexec : (pgfaultHandler L p addr).exec s = (.ok (), s')) : s'.loaded p addr = none := by
  by_cases htop : addr < USERTOP
  case neg => rw [loaded, userPte, if_neg htop, Option.map_none]
  have hkept : ∀ m' killed, m'.pte = s.mem.pte →
      Vm.loaded { s with mem := m', killed := killed } p addr = none := fun m' killed hpte => by
    have hfault := h.fault
    rw [userPte] at hfault
    simp only [loaded, userPte, hpte, hfault, Option.map_none]
  by_cases hlow : 4 * PAGE_SIZE ≤ addr
  · have hpage : s.mem.pages.takePage.1 = 0 := by
      by_contra hpage
      exact hout ⟨hlow, htop, hpage⟩
    rw [h.exec_handler hlow htop, faultMapped, exec_bind, onMem, exec_zoom, Mem.exec_kallocPage] at hexec
    dsimp only at hexec
    rw [if_pos hpage] at hexec
    obtain ⟨_, rfl⟩ := Prod.mk.inj hexec
    exact hkept _ _ rfl
  · rw [pgfaultHandler, if_pos (.inr (Nat.lt_of_not_le hlow))] at hexec
    obtain ⟨_, rfl⟩ := Prod.mk.inj hexec
    exact hkept _ _ rfl

section

variable (h : FileFault s p addr sec file) (hlow : 4 * PAGE_SIZE ≤ addr) (htop : addr < USERTOP)
  (hpage : s.mem.pages.takePage.1 ≠ 0)

include h hlow htop hpage

/-- With a page, what is left is to read the file into it. -/
theorem exec_read : ∃ ip m, s.inodes ip = file ∧
    m.pte (.proc p) (slotNo addr) = some ⟨s.mem.pages.takePage.1, PTE_USER_DATA⟩ ∧
    (pgfaultHandler L p addr).exec s = (inodeRead ip (filePos sec addr) PAGE_SIZE >>= fun (src, n) =>
      onMem do
        modify fun m => m.write s.mem.pages.takePage.1 0 n src
        if n < PAGE_SIZE then
          modify fun m => m.write s.mem.pages.takePage.1 n (PAGE_SIZE - n) fun _ => 0 : VmM Unit).exec
      { s with mem := m } := by
  obtain ⟨f, ip, hfp, hread, htype, hip, hfile⟩ := h.open_
  refine ⟨ip, Mem.mapped L { s.mem with pages := s.mem.pages.kalloc L } (.proc p) addr
    s.mem.pages.takePage.1 PTE_USER_DATA, hfile, Mem.pte_setPte_self, ?_⟩
  rw [h.exec_handler hlow htop, faultMapped, exec_bind, onMem, exec_zoom, Mem.exec_kallocPage]
  dsimp only
  rw [if_neg hpage, exec_bind, onMem, exec_zoom, Mem.exec_vmmap]
  dsimp only
  rw [exec_bind_ok (exec_get _), hfp]
  dsimp only
  rw [if_neg (by simp [hread, htype]), hip]
  rfl

theorem exec_past (hpos : file.size < filePos sec addr) :
    ∃ s', (pgfaultHandler L p addr).exec s = (.error .panic, s') := by
  obtain ⟨ip, m, rfl, _, hexec⟩ := h.exec_read (L := L) hlow htop hpage
  rw [hexec, exec_bind_error (exec_inodeRead_past (s := { s with mem := m }) h.type hpos)]
  exact ⟨_, rfl⟩

/-- The page gets the bytes of the file from the position of the address on. -/
theorem exec_filled (hpos : filePos sec addr ≤ file.size) :
    ∃ s', (pgfaultHandler L p addr).exec s = (.ok (), s') ∧
      ∀ a, a / PAGE_SIZE = addr / PAGE_SIZE →
        s'.loaded p a = some (fileByte file (filePos sec addr + a % PAGE_SIZE)) := by
  obtain ⟨ip, m, rfl, hentry, hexec⟩ := h.exec_read (L := L) hlow htop hpage
  rw [hexec, exec_bind_ok (exec_inodeRead _ h.type h.size hpos (Nat.le_refl _))]
  dsimp only
  rw [onMem, exec_zoom]
  obtain ⟨m', hm, hpte, hdata⟩ := Mem.exec_fillPage m s.mem.pages.takePage.1 (Nat.min_le_left _ _)
    fun i => (s.inodes ip).bytes (filePos sec addr + i)
  rw [hm]
  refine ⟨_, rfl, fun a ha => ?_⟩
  have hslot : slotNo a = slotNo addr := by rw [slotNo, ha, slotNo]
  have ha' : a < USERTOP := by
    simp only [PAGE_SIZE, USERTOP] at *
    omega
  have huser : Vm.userPte { s with mem := m' } p a = some ⟨s.mem.pages.takePage.1, PTE_USER_DATA⟩ := by
    rw [userPte_eq ha', hslot, ← hentry, ← hpte]
  rw [loaded, huser, Option.map_some]
  dsimp only
  rw [hdata _ (Nat.mod_lt _ (by decide)), fileByte]
  have hmod : a % PAGE_SIZE < PAGE_SIZE := Nat.mod_lt _ (by decide)
  by_cases hlt : filePos sec addr + a % PAGE_SIZE < (s.inodes ip).size
  · rw [if_pos hlt, if_pos (by omega)]
  · rw [if_neg hlt, if_neg (by omega)]

end

/-- The position of an address, from that of another one in the page. -/
theorem filePos_shift (hsize : filePos sec addr ≤ INODE_MAX_BYTES) (hin : sec.Contains addr) {a : Nat}
    (ha : a / PAGE_SIZE = addr / PAGE_SIZE) (hina : sec.Contains a) :
    usize (filePos sec a + addr % PAGE_SIZE) = filePos sec addr + a % PAGE_SIZE := by
  have hmax : INODE_MAX_BYTES < 2 ^ 32 := by decide
  have hlo := hin.1
  have hlo' := hina.1
  simp only [filePos, usize, PAGE_SIZE] at *
  omega

end FileFault

section EntryStack

open Mem Prog

variable {L : MemLayout}

theorem copyout_any (d : DirId) (va : Nat) (src : Nat → UInt8) (len : Nat) :
    Hoare (fun _ => True) (copyout L d va src len) (fun _ _ => True) := fun m _ => by
  cases h : (copyout L d va src len).exec m with
  | mk r _ => cases r <;> trivial

/-- Strings leave the stack pointer at a multiple of `16`, unless there are none. -/
theorem pushStrings_sp (strs : List (List UInt8)) (sp : Nat) (addrs : List Nat) :
    Hoare (fun _ => True) (pushStrings L strs sp addrs)
      (fun r _ => r.1 % 16 = (if strs = [] then sp % 16 else 0) ∧
        r.2.length = strs.length + addrs.length) := by
  induction strs generalizing sp addrs with
  | nil => exact .pure fun _ _ => ⟨(if_pos rfl).symm, (Nat.zero_add _).symm⟩
  | cons str rest ih =>
    refine .bind (copyout_any _ _ _ _) fun _ => (ih _ _).conseq (fun _ h => h) (fun r _ h => ?_)
      fun _ h => h
    refine ⟨?_, ?_⟩
    · rw [h.1, if_neg (cons_ne_nil _ _)]
      split <;> omega
    · rw [h.2, length_cons, length_cons]
      omega

theorem pushWords_sp (sp : Nat) (words : List Nat) : Hoare (fun _ => True) (pushWords L sp words)
      (fun sp' _ => sp' % 16 = (sp + words.length * 8) % 16) := by
  refine .bind (copyout_any _ _ _ _) fun _ => .pure fun _ _ => ?_
  simp only [usizeSub, usize]
  omega

/-- The stack pointer that `execve` installs is a multiple of `16` just when the words below the last
string are even in number. -/
theorem entry_sp_aligned (argv envp : List (List UInt8)) :
    Triple (fun _ => True) (pushArgs L argv envp)
      (fun sp _ => sp % 16 = 0 ↔
        if argv = [] then envp.length % 2 = 0 else (argv.length + envp.length) % 2 = 1)
      fun _ => True := by
  refine .bind (copyout_any _ _ _ _) fun _ => .bind (pushStrings_sp _ _ _) fun env m henv => ?_
  refine Triple.bind (pushWords_sp _ _) (fun sp1 m h1 => ?_) m trivial
  refine Triple.bind (pushStrings_sp _ _ _) (fun arg m harg => ?_) m trivial
  refine Triple.bind (pushWords_sp _ _) (fun sp2 m h2 => ?_) m trivial
  refine Triple.bind (pushWords_sp _ _) (fun sp3 m h3 => ?_) m trivial
  refine (pushWords_sp _ _).conseq (fun _ h => h) (fun sp4 m h4 => ?_) (fun _ h => h) m trivial
  have hsp : env.1 % 16 = 0 := by
    rw [henv.1]
    split <;> rfl
  simp only [length_append, length_reverse, length_cons, length_nil,
    reverse_eq_nil_iff] at henv harg h1 h2 h3 h4
  split at harg
  next hnil =>
    have hlen := congrArg List.length hnil
    rw [if_pos hnil]
    simp only [length_nil] at hlen
    omega
  next hnil =>
    rw [if_neg hnil]
    omega

/-- With two arguments and no environment a program starts with a stack pointer that is off by `8`. -/
theorem entry_sp_misaligned :
    ∃ m, (pushArgs bootLayout [[97], [98]] []).exec booted.mem =
      (.ok 0xffffffffffa8, m) := by
  have h : (match (pushArgs bootLayout [[97], [98]] []).exec booted.mem with
    | (.ok sp, _) => decide (sp = 0xffffffffffa8)
    | _ => false) = true := by decide +kernel
  split at h
  next sp m hrun => exact ⟨m, of_decide_eq_true h ▸ hrun⟩
  next => cases h

end EntryStack

end Vm

end OsKernel
