import OsKernel.Kernel.Paging

/-!
# `execve`, and runs of user memory

`kernel/exec.c` with the pages that it maps, and the system of processes that use their memory and
make the calls of `Kernel/Paging`.  What `execve` gets from elsewhere is an argument: the inode
that `namei` finds, and the strings of `argv` and `envp` (`NULL` is the empty list).  The entry
point is not part of the state, nor is the stack pointer, which is what `pushArgs` returns.
-/

namespace OsKernel

/-- `ST_FILE | ST_RO`. -/
def ST_TEXT : Nat := 5

def STACK_PAGE : Nat := 32

namespace Mem

variable (L : MemLayout)

/-- The loop of `execve` that allocates the pages of the stack. -/
@[irreducible] def mapStack : MemM Unit :=
  (List.range STACK_PAGE).forM fun i => do
    let page ← kallocPage L
    modify fun m => m.write page 0 PAGE_SIZE fun _ => 0
    vmmap L .new (USERTOP - (i + 1) * PAGE_SIZE) page PTE_USER_DATA

/-- The bytes of a string with the `0` at its end. -/
def cstring (str : List UInt8) (i : Nat) : UInt8 := str.getD i 0

def wordBytes (words : List Nat) (i : Nat) : UInt8 := Bytes.byte (words.getD (i / 8) 0) (i % 8)

/-- The loops of `execve` that push strings, the last one first: the stack pointer and the addresses. -/
def pushStrings : List (List UInt8) → Nat → List Nat → MemM (Nat × List Nat)
  | [], sp, addrs => return (sp, addrs)
  | str :: rest, sp, addrs => do
    let sp := usizeSub sp (str.length + 1)
    let sp := sp - sp % 16
    let _ ← copyout L .new sp (cstring str) (str.length + 1)
    pushStrings rest sp (sp :: addrs)

def pushWords (sp : Nat) (words : List Nat) : MemM Nat := do
  let len := usize (words.length * 8)
  let _ ← copyout L .new (usizeSub sp len) (wordBytes words) len
  return usizeSub sp len

/-- What `execve` pushes on the stack: the stack pointer of the new program. -/
def pushArgs (argv envp : List (List UInt8)) : MemM Nat := do
  let sp := USERTOP - 16
  let _ ← copyout L .new sp (fun _ => 0) 8
  let (sp, envAddrs) ← pushStrings L envp.reverse sp []
  let sp ← pushWords L sp [0]
  let (sp, argAddrs) ← pushStrings L argv.reverse sp []
  let sp ← pushWords L sp (envAddrs ++ [0])
  let sp ← pushWords L sp (argAddrs ++ [0])
  pushWords L sp [argv.length]

end Mem

namespace Vm

open FileSys (roundDown getSectionType isValidElf Elf64Ehdr Elf64Phdr EHDR_BYTES PHDR_BYTES
  stackSection ST_FILE)

variable (L : MemLayout)

/-- The loop of `map_elf_segment` that reads the file into new pages, up to address `stop`: the
address that it reaches, unless a read is short.  Every turn reads a byte or more. -/
def loadPages (file stop : Nat) (flags : UserFlags) : Nat → Nat → Nat → VmM (Option Nat)
  | 0, vaddr, _ => return some vaddr
  | fuel + 1, vaddr, filePos =>
    if vaddr < stop then do
      let pageStart := roundDown vaddr PAGE_SIZE
      let copyLen := min (PAGE_SIZE - (vaddr - pageStart)) (stop - vaddr)
      let page ← onMem (Mem.kallocPage L)
      if page = 0 then return none
      else
        onMem do
          modify fun m => m.write page 0 PAGE_SIZE fun _ => 0
          Mem.vmmap L .new pageStart page flags
        let (src, n) ← inodeRead file filePos copyLen
        onMem (modify fun m => m.write page (vaddr - pageStart) n src)
        if n ≠ copyLen then return none
        else loadPages file stop flags fuel (vaddr + copyLen) (usize (filePos + copyLen))
    else return some vaddr

/-- The pages of zeros of `map_elf_segment`, from `vaddr`, a multiple of the page size, to `stop`. -/
def mapBss (vaddr stop : Nat) : MemM Unit :=
  (Mem.pageStarts vaddr stop).forM fun va =>
    Mem.vmmap L .new va L.zeroedPage PTE_USER_DATA.readOnly

/-- `map_elf_segment`: the new section.  Its last two fields are not set. -/
def mapElfSegment (file : Nat) (phdr : Elf64Phdr) : VmM (Option Section) := do
  let vaddr := phdr.readLE 16 8
  let filesz := phdr.readLE 32 8
  let memsz := phdr.readLE 40 8
  if memsz < filesz ∨ usize (vaddr + memsz) < vaddr then throw .panic
  else
    match getSectionType (phdr.readLE 4 4) with
    | none => return none
    | some segType =>
      let flags := if segType = ST_TEXT then PTE_USER_DATA.readOnly else PTE_USER_DATA
      let stop := if segType = ST_TEXT then vaddr + filesz else vaddr + memsz
      let done ← loadPages L file (vaddr + filesz) flags (filesz + 1) vaddr (phdr.readLE 8 8)
      match done with
      | none => return none
      | some va =>
        let va := if va ≠ roundDown va PAGE_SIZE
          then usize (roundDown va PAGE_SIZE + PAGE_SIZE) else va
        if segType = ST_FILE ∧ usizeSub va vaddr < memsz then
          onMem (mapBss L va (vaddr + memsz))
        return some ⟨segType, 0, vaddr, stop, none, 0, 0⟩

/-- The loop of `load_elf_binary` over the program headers in the list. -/
def loadSegments (file : Nat) (hdr : Elf64Ehdr) (secs : List Section) :
    List Nat → VmM (Option (List Section))
  | [] => return some secs
  | i :: rest => do
    let (src, n) ← inodeRead file (usize (hdr.readLE 32 8 + i * PHDR_BYTES)) PHDR_BYTES
    if n ≠ PHDR_BYTES then return none
    else
      let phdr : Elf64Phdr := fun k => src k
      if phdr.readLE 0 4 ≠ 1 then loadSegments file hdr secs rest
      else
        let seg ← mapElfSegment L file phdr
        match seg with
        | none => return none
        | some seg => loadSegments file hdr (seg :: secs) rest

/-- What `load_elf_binary` does with the file. -/
def readElf (file : Nat) : VmM (Option (List Section)) := do
  let (src, n) ← inodeRead file 0 EHDR_BYTES
  let hdr : Elf64Ehdr := fun k => src k
  if n ≠ EHDR_BYTES then return none
  else if isValidElf hdr then loadSegments L file hdr [] (List.range (hdr.readLE 56 2))
  else return none

/-- The rest of `execve`, for an executable with the sections `secs`: the stack, and the switch to the
new image.  Neither the pages nor the sections of the old image are freed. -/
def install (p : Nat) (secs : List Section) (argv envp : List (List UInt8)) : VmM Int := do
  onMem do
    Mem.mapStack L
    let _ ← Mem.pushArgs L argv envp
    modify fun m => (m.setDir (.proc p) (m.pte .new)).setDir .new fun _ => none
  modifyTables fun t => t.setSections p (stackSection :: secs)
  return 0

/-- `execve` of the file that `namei` finds.  On failure the pages of the new image are not freed. -/
def execve (p : Nat) (file : Option Nat) (argv envp : List (List UInt8)) : VmM Int := do
  onMem (modify fun m => m.setDir .new fun _ => none)
  match file with
  | none => return -1
  | some file =>
    let secs ← readElf L file
    match secs with
    | none =>
      onMem (modify fun m => m.setDir .new fun _ => none)
      return -1
    | some secs => install L p secs argv envp

/-! ## Runs -/

/-- The entry through which the hardware reaches `va` for process `p`. -/
def userPte (s : Vm) (p va : Nat) : Option Pte :=
  if va < USERTOP then (s.mem.pte (.proc p) (slotNo va)).filter fun e => e.Valid ∧ e.User else none

/-- The byte that process `p` loads from `va`, unless the load faults. -/
def loaded (s : Vm) (p va : Nat) : Option UInt8 :=
  (s.userPte p va).map fun e => s.mem.data e.page (va % PAGE_SIZE)

/-- A load; one that faults enters `pgfault_handler`, and is tried again later. -/
def load (p va : Nat) : VmM Unit := do
  let s ← get
  match s.userPte p va with
  | some _ => return ()
  | none => pgfaultHandler L p va

/-- A store; one that faults enters `pgfault_handler`, and is tried again later. -/
def store (p va : Nat) (b : UInt8) : VmM Unit := do
  let s ← get
  match (s.userPte p va).filter fun e => ¬ e.ReadOnly with
  | some e => onMem (modify fun m => m.write e.page (va % PAGE_SIZE) 1 fun _ => b)
  | none => pgfaultHandler L p va

end Vm

/-- What process `p` does. -/
inductive VmOp where
  | load (p va : Nat)
  | store (p va : Nat) (b : UInt8)
  | sbrk (p : Nat) (size : Int)
  | mmap (p addr : Nat) (length : Int) (prot flags : Nat) (fd offset : Int)
  | munmap (p addr length : Nat)
  | fork (p : Nat)
  | execve (p : Nat) (file : Option Nat) (argv envp : List (List UInt8))
  | exit (p : Nat)

namespace VmOp

def proc : VmOp → Nat
  | load p _ | store p _ _ | sbrk p _ | mmap p _ _ _ _ _ _ | munmap p _ _ | fork p
  | execve p _ _ _ | exit p => p

def isExit : VmOp → Bool
  | exit _ => true
  | _ => false

variable (L : MemLayout)

def run : VmOp → VmM Unit
  | load p va => Vm.load L p va
  | store p va b => Vm.store L p va b
  | sbrk p size => do let _ ← Vm.sbrk L p size
  | mmap p addr length prot flags fd offset => do
    let _ ← Vm.mmap p addr length prot flags fd offset
  | munmap p addr length => do let _ ← Vm.munmap L p addr length
  | fork p => do let _ ← Vm.fork L p
  | execve p file argv envp => do let _ ← Vm.execve L p file argv envp
  | exit p => Vm.exit L p

end VmOp

namespace Vm

/-- A step of a process; one that is killed only exits. -/
def step (L : MemLayout) (s : Vm) (op : VmOp) : Except Runs.Stop Vm :=
  if s.Alive op.proc ∧ (s.killed op.proc = true → op.isExit = true) then
    match (op.run L).exec s with
    | (.ok _, s') => .ok s'
    | (.error e, _) => .error e
  else .error .disabled

variable {L : MemLayout} {s s' : Vm} {op : VmOp}

theorem step_run (h : s.step L op = .ok s') :
    s.Alive op.proc ∧ (op.run L).exec s = (.ok (), s') := by
  obtain ⟨hcond, h⟩ := Runs.guard_ok h
  refine ⟨hcond.1, ?_⟩
  split at h
  next heq =>
    cases h
    exact heq
  next => cases h

theorem step_post (h : s.step L op = .ok s') {Q : Vm → Prop} {E : Vm → Prop}
    (hQ : Prog.Triple (fun s1 => s1 = s) (op.run L) (fun _ => Q) E) : Q s' := by
  have hpost := hQ s rfl
  rw [(step_run h).2] at hpost
  exact hpost

/-- Process `0` with the open file `file` of inode `7`, no sections and no pages. -/
def single (L : MemLayout) (file : File) (contents : FileData) : Vm where
  mem := ⟨kinit L, fun _ _ => 0, fun _ _ => none⟩
  tables :=
    { flist := fun f => if f = 0 then file else File.none
      procs := fun p => if p = 0 then ⟨some 1, fun fd => if fd = 0 then some 0 else none, []⟩
        else ⟨none, fun _ => none, []⟩
      nprocs := 1
      root := some 1
      nextAddr := 0x100000 }
  inodes := fun i => if i = 7 then contents else ⟨INODE_REGULAR, 0, fun _ => 0⟩
  killed := fun _ => false

end Vm

end OsKernel
