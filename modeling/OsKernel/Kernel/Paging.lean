import OsKernel.Kernel.FileTable
import OsKernel.Kernel.PageAlloc
import OsKernel.Kernel.PageTable

/-!
# User memory

`vmmap` and `copyout` of `kernel/pt.c`, `kernel/paging.c`, `mmap` and `munmap` of
`kernel/sysfile.c`, and the parts of `fork` and `exit` of `kernel/proc.c` that have to do with the
memory of a process.

A page directory is the map from the numbers of virtual pages to the entries of the last level
that `get_pte` reaches (`Kernel/PageTable`), and an entry is kept as the page and the flags that it
is packed from.  The pages of the tables themselves, the kernel stacks and the list nodes in the first
sixteen bytes of free pages are not part of the state.  A file is the array of bytes that `Fs/FileArray`
shows the inode layer to implement.  Each call runs to its end before the next one starts.

Functions that only change memory are programs over `Mem`; `onMem` runs them in a
call, so that what they leave alone need not be said.
-/

namespace OsKernel

open Function

/-- Flags of an entry that is valid, and for the user: the kernel makes no other entries of user
memory. -/
abbrev UserFlags : Type := { flags : Nat // flags &&& PTE_VALID ≠ 0 ∧ flags &&& PTE_USER ≠ 0 }

/-- `PTE_USER | PTE_NORMAL | PTE_PAGE`. -/
def PTE_USER_DATA : UserFlags := ⟨0x647, by decide, by decide⟩

namespace UserFlags

/-- `flags | PTE_RO`. -/
def readOnly (flags : UserFlags) : UserFlags where
  val := flags.val ||| PTE_RO
  property := by
    simpa only [Nat.and_or_distrib_right, show PTE_RO &&& PTE_VALID = 0 by decide,
      show PTE_RO &&& PTE_USER = 0 by decide, Nat.or_zero] using flags.property

/-- `flags & ~PTE_RO`. -/
def clearRo (flags : UserFlags) : UserFlags where
  val := flags.val &&& 0xFFFFFFFFFFFFFF7F
  property := by
    simpa only [Nat.and_assoc, show 0xFFFFFFFFFFFFFF7F &&& PTE_VALID = PTE_VALID by decide,
      show 0xFFFFFFFFFFFFFF7F &&& PTE_USER = PTE_USER by decide] using flags.property

end UserFlags

/-- An entry that is not `0`: the page, by its kernel address, and `PTE_FLAGS`. -/
structure Pte where
  page : Nat
  flags : UserFlags
deriving DecidableEq, Repr

namespace Pte

abbrev Valid (e : Pte) : Prop := e.flags.val &&& PTE_VALID ≠ 0

abbrev User (e : Pte) : Prop := e.flags.val &&& PTE_USER ≠ 0

abbrev ReadOnly (e : Pte) : Prop := e.flags.val &&& PTE_RO ≠ 0

end Pte

/-- The page directories: those of the processes, and `new_dir` of `execve`. -/
inductive DirId where
  | proc (p : Nat)
  | new
deriving DecidableEq, Repr

structure Mem where
  pages : PageState
  data : Nat → Nat → UInt8
  pte : DirId → Nat → Option Pte

abbrev MemM := Prog Runs.Stop Mem

namespace Mem

/-- Memory with another entry for the page of `va`. -/
def setPte (m : Mem) (d : DirId) (va : Nat) (e : Option Pte) : Mem :=
  { m with pte := update m.pte d (update (m.pte d) (slotNo va) e) }

/-- `memcpy(page + off, src, len)`. -/
def write (m : Mem) (page off len : Nat) (src : Nat → UInt8) : Mem :=
  { m with
    data := update m.data page fun i =>
      if off ≤ i ∧ i < off + len then src (i - off) else m.data page i }

/-- Memory with another directory `d`. -/
def setDir (m : Mem) (d : DirId) (dir : Nat → Option Pte) : Mem :=
  { m with pte := update m.pte d dir }

variable (L : MemLayout)

/-- A call of `kernel/mem.c`. -/
def pageCall {α : Type} (x : PageM α) : MemM α := ExceptT.mk fun m =>
  match x.run (PageAct.exec L) m.pages with
  | .ok (a, pages) => (.ok a, { m with pages := pages })
  | .error e => (.error e, m)

def kallocPage : MemM Nat := pageCall L OsKernel.kallocPage

def kfreePage (pg : Nat) : MemM Unit := pageCall L (OsKernel.kfreePage L pg)

/-- The entry that `get_pte` points at. -/
def getPte (d : DirId) (va : Nat) : MemM (Option Pte) := do
  let m ← get
  return m.pte d (slotNo va)

def vmmap (d : DirId) (va ka : Nat) (flags : UserFlags) : MemM Unit := do
  modify fun m => m.setPte d va (some ⟨ka, flags⟩)
  modify fun m => { m with pages := m.pages.addRef (L.pageIndex ka) 1 }

/-- The page that `copyout` writes to: the one that is mapped, or a new one. -/
def copyoutPage (d : DirId) (va : Nat) : MemM (Option Nat) := do
  let m ← get
  match (m.pte d (slotNo va)).filter (·.Valid) with
  | some e => return some e.page
  | none =>
    let page ← kallocPage L
    if page = 0 then return none
    else
      vmmap L d va page PTE_USER_DATA
      return some page

/-- The loop of `copyout`.  Every turn copies a byte or more. -/
def copyoutLoop (d : DirId) : Nat → Nat → (Nat → UInt8) → Nat → MemM Int
  | 0, _, _, _ => return 0
  | fuel + 1, va, src, len =>
    if len = 0 then return 0
    else do
      let found ← copyoutPage L d va
      match found with
      | none => return -1
      | some page =>
        let n := min (PAGE_SIZE - va % PAGE_SIZE) len
        modify fun m => m.write page (va % PAGE_SIZE) n src
        copyoutLoop d fuel (usize (va + n)) (fun i => src (i + n)) (len - n)

/-- `copyout`.  A source that is `NULL` is a source of zeros. -/
def copyout (d : DirId) (va : Nat) (src : Nat → UInt8) (len : Nat) : MemM Int := do
  if usize (va + len) &&& KSPACE_MASK ≠ 0 then return -1
  else copyoutLoop L d len va src len

/-- The addresses of the loops `for (va = first; va < stop; va += PAGE_SIZE)`. -/
def pageStarts (first stop : Nat) : List Nat :=
  (List.range ((stop - first + (PAGE_SIZE - 1)) / PAGE_SIZE)).map (first + PAGE_SIZE * ·)

/-- Such a loop, which does not end when the last page of all is among its pages. -/
def forPages (first stop : Nat) (body : Nat → MemM Unit) : MemM Unit :=
  if first < stop ∧ 2 ^ 64 - PAGE_SIZE < stop then throw .disabled
  else (pageStarts first stop).forM body

/-- The turns of the loops of `sbrk` and `munmap` that free pages. -/
def unmapPage (d : DirId) (va : Nat) : MemM Unit := do
  let pte ← getPte d va
  match pte with
  | some e =>
    kfreePage L e.page
    modify fun m => m.setPte d va none
  | none => return ()

/-- The turn of the loop of `free_sections` for a page. -/
def freeValid (d : DirId) (va : Nat) : MemM Unit := do
  let pte ← getPte d va
  match pte.filter (·.Valid) with
  | some e => kfreePage L e.page
  | none => return ()

/-- The turn of the loop of `fork` for a page. -/
def sharePage (d d' : DirId) (va : Nat) : MemM Unit := do
  let pte ← getPte d va
  match pte.filter (·.Valid) with
  | some e => vmmap L d' va e.page e.flags.readOnly
  | none => return ()

/-- The turn of the loop of `copy_sections` for a page. -/
def copyPage (d d' : DirId) (shared : Bool) (va : Nat) : MemM Unit := do
  let pte ← getPte d va
  match pte.filter (·.Valid) with
  | some e =>
    if shared then modify fun m => m.setPte d' va (some e)
    else
      let page ← kallocPage L
      if page = 0 then return ()
      else
        modify fun m => m.write page 0 PAGE_SIZE (m.data e.page)
        modify fun m => m.setPte d' va (some ⟨page, e.flags.clearRo⟩)
  | none => return ()

end Mem

namespace Section

abbrev Contains (sec : Section) (addr : Nat) : Prop := sec.beginAddr ≤ addr ∧ addr < sec.endAddr

abbrev Shared (sec : Section) : Prop := sec.mmapFlags &&& FileSys.MAP_SHARED ≠ 0

/-- `PAGE_BASE(sec->begin)`. -/
def firstPage (sec : Section) : Nat := FileSys.roundDown sec.beginAddr PAGE_SIZE

end Section

structure FileData where
  type : Nat
  size : Nat
  bytes : Nat → UInt8

/-- The bytes that the blocks of the file have room for. -/
def FileData.capacity (f : FileData) : Nat := (f.size + (BLOCK_SIZE - 1)) / BLOCK_SIZE * BLOCK_SIZE

/-- Memory, the tables of files and processes, the files, and the processes that are killed. -/
structure Vm where
  mem : Mem
  tables : Tables
  inodes : Nat → FileData
  killed : Nat → Bool

abbrev VmM := Prog Runs.Stop Vm

namespace Vm

open FileSys (roundDown roundUp mmapValidateArgs mmapValidateFile ST_FILE)

/-- A process that runs: it has a working directory. -/
def Alive (s : Vm) (p : Nat) : Prop := p < s.tables.nprocs ∧ (s.tables.procs p).cwd.isSome = true

instance (s : Vm) (p : Nat) : Decidable (s.Alive p) :=
  inferInstanceAs (Decidable (_ ∧ _))

/-- The sections of process `p`, in the order of the list. -/
def sections (s : Vm) (p : Nat) : List Section := (s.tables.procs p).sections

def onMem {α : Type} (x : MemM α) : VmM α := Prog.zoom Vm.mem (fun m s => { s with mem := m }) x

theorem keeps_onMem {α : Type} {I E : Vm → Prop} (hI : ∀ s m, I s → I { s with mem := m })
    (hE : ∀ s, I s → E s) (x : MemM α) : Prog.Keeps I E (onMem x) := by
  intro s hs
  rw [onMem, Prog.exec_zoom]
  match (x.exec s.mem).1 with
  | .ok _ => exact hI s _ hs
  | .error _ => exact hE _ (hI s _ hs)

def modifyTables (f : Tables → Tables) : VmM Unit := modify fun s => { s with tables := f s.tables }

def killProcess (p : Nat) : VmM Unit := modify fun s => { s with killed := update s.killed p true }

/-- `inodes.read`: the bytes from `offset` on, and how many of them are read. -/
def inodeRead (ip offset count : Nat) : VmM ((Nat → UInt8) × Nat) := do
  let s ← get
  let file := s.inodes ip
  if file.type = INODE_DEVICE then throw .disabled
  else
    let count := if file.size < usize (count + offset) then usizeSub file.size offset else count
    if offset ≤ file.size ∧ usize (offset + count) ≤ file.size ∧ offset ≤ usize (offset + count)
    then return (fun i => file.bytes (offset + i), count)
    else throw .panic

/-- `inodes.write` without a context: no block is allocated. -/
def inodeWrite (ip : Nat) (src : Nat → UInt8) (offset count : Nat) : VmM Unit := do
  let s ← get
  let file := s.inodes ip
  let stop := usize (offset + count)
  if file.type = INODE_DEVICE then throw .disabled
  else if offset ≤ file.size ∧ stop ≤ INODE_MAX_BYTES ∧ offset ≤ stop ∧ stop ≤ file.capacity then
    let bytes := fun i => if offset ≤ i ∧ i < stop then src (i - offset) else file.bytes i
    set { s with
      inodes := update s.inodes ip
        { file with size := max file.size stop, bytes := bytes } }
  else throw .panic

variable (L : MemLayout)

/-! ## `kernel/paging.c` -/

def freeSections (p : Nat) : VmM Unit := do
  let s ← get
  (s.sections p).forM fun sec => do
    onMem (Mem.forPages sec.firstPage sec.endAddr (Mem.freeValid L (.proc p)))
    match sec.fp with
    | some f => modifyTables fun t => t.close f
    | none => return ()

/-- `sbrk`.  A process without sections is not covered: its list head is taken for a section. -/
def sbrk (p : Nat) (size : Int) : VmM Nat := do
  if size % PAGE_SIZE ≠ 0 then throw .panic
  else
    let s ← get
    match s.sections p with
    | [] => throw .disabled
    | sec :: rest =>
      let stop := ((sec.endAddr + size) % 2 ^ 64).toNat
      modifyTables fun t => t.setSections p ({ sec with endAddr := stop } :: rest)
      if size < 0 then
        onMem ((List.range ((BitVec.ofInt 64 (-size)).toInt.toNat / PAGE_SIZE)).forM fun k =>
          Mem.unmapPage L (.proc p) (usize (stop + PAGE_SIZE * k)))
      return sec.endAddr

/-- `pgfault_handler` for a section with `mmap_flags`. -/
def faultMapped (p addr : Nat) (sec : Section) : VmM Unit := do
  let page ← onMem (Mem.kallocPage L)
  if page = 0 then killProcess p
  else
    onMem (Mem.vmmap L (.proc p) addr page PTE_USER_DATA)
    let s ← get
    match sec.fp with
    | none => killProcess p
    | some f =>
      if (s.tables.flist f).readable = false ∨ (s.tables.flist f).type ≠ .FD_INODE then
        killProcess p
      else
        match (s.tables.flist f).ip with
        | none => throw .panic
        | some ip =>
          let (src, n) ← inodeRead ip (usize (sec.offset + (addr - sec.beginAddr))) PAGE_SIZE
          onMem do
            modify fun m => m.write page 0 n src
            if n < PAGE_SIZE then modify fun m => m.write page n (PAGE_SIZE - n) fun _ => 0

/-- `pgfault_handler` for a section without `mmap_flags`. -/
def faultAnonymous (p addr : Nat) : VmM Unit := do
  let pte ← onMem (Mem.getPte (.proc p) addr)
  match pte with
  | none =>
    let page ← onMem (Mem.kallocPage L)
    if page = 0 then killProcess p
    else onMem (Mem.vmmap L (.proc p) addr page PTE_USER_DATA)
  | some e =>
    if e.ReadOnly then
      let page ← onMem (Mem.kallocPage L)
      if page = 0 then killProcess p
      else onMem do
        modify fun m => m.write page 0 PAGE_SIZE (m.data e.page)
        Mem.vmmap L (.proc p) addr page PTE_USER_DATA

def pgfaultHandler (p addr : Nat) : VmM Unit := do
  if addr &&& KSPACE_MASK ≠ 0 ∨ addr < 4 * PAGE_SIZE then killProcess p
  else
    let s ← get
    match (s.sections p).find? fun sec => sec.Contains addr with
    | none => killProcess p
    | some sec => if sec.mmapFlags ≠ 0 then faultMapped L p addr sec else faultAnonymous L p addr

/-- The turn of the outer loop of `copy_sections`. -/
def copySection (p child : Nat) (sec : Section) : VmM Unit := do
  modifyTables fun t => t.setSections child (sec :: (t.procs child).sections)
  match sec.fp with
  | some f => modifyTables fun t => t.dup f
  | none => pure ()
  onMem (Mem.forPages sec.firstPage sec.endAddr (Mem.copyPage L (.proc p) (.proc child) sec.Shared))

/-! ## `mmap` and `munmap` -/

/-- The section that `mmap` adds, once its arguments and the file are found valid. -/
def mmapSection (p addr memSize flags : Nat) (f : Fin NFILE) (offset : Int) : VmM Int := do
  let s ← get
  let start := if addr = 0 then s.tables.nextAddr else addr
  modifyTables fun t =>
    if addr = 0 then { t with nextAddr := usize (t.nextAddr + memSize) } else t
  modifyTables fun t => t.dup f
  modifyTables fun t => t.setSections p
    (⟨ST_FILE, flags, start, usize (start + memSize), some f, (offset % 2 ^ 64).toNat, memSize⟩ ::
      (t.procs p).sections)
  return (BitVec.ofNat 32 start).toInt

/-- `mmap`.  The arguments `prot` and `flags` are the bits of the two numbers. -/
def mmap (p addr : Nat) (length : Int) (prot flags : Nat) (fd offset : Int) : VmM Int := do
  if mmapValidateArgs length prot flags then
    let s ← get
    match (if fd < 0 ∨ NOFILE ≤ fd then none else (s.tables.procs p).ofile fd.toNat) with
    | none => return -1
    | some f =>
      if mmapValidateFile (s.tables.flist f) flags prot then
        match (s.tables.flist f).ip with
        | none => return -1
        | some ip =>
          let memSize := roundUp length.toNat PAGE_SIZE
          if memSize = 0 then return -1
          else if (s.inodes ip).type ≠ INODE_REGULAR then return -1
          else mmapSection p addr memSize flags f offset
      else return -1
  else return -1

/-- The turn of the loop of `munmap` that writes back a page. -/
def writeBack (p : Nat) (sec : Section) (va : Nat) : VmM Unit := do
  let s ← get
  match s.mem.pte (.proc p) (slotNo va) with
  | none => return ()
  | some e =>
    match sec.fp.bind fun f => (s.tables.flist f).ip with
    | none => throw .panic
    | some ip =>
      inodeWrite ip (s.mem.data e.page) (usizeSub (usize (sec.offset + va)) sec.beginAddr)
        PAGE_SIZE

/-- What `munmap` does to section `i` once its pages are freed. -/
def trimSection (p i : Nat) (sec : Section) (start mappedLen : Nat) : VmM Int := do
  let s ← get
  let stop := usize (start + mappedLen)
  if start = sec.beginAddr ∧ sec.endAddr ≤ stop then
    modifyTables fun t => t.setSections p ((s.sections p).eraseIdx i)
    match sec.fp with
    | some f => modifyTables fun t => t.close f
    | none => pure ()
    return 0
  else if sec.beginAddr < start ∧ stop < sec.endAddr then return -1
  else if start = sec.beginAddr ∧ stop < sec.endAddr then
    modifyTables fun t => t.setSections p ((s.sections p).set i { sec with
        beginAddr := usize (sec.beginAddr + mappedLen)
        offset := usize (sec.offset + mappedLen)
        length := usizeSub sec.length mappedLen })
    return 0
  else if sec.beginAddr < start ∧ sec.endAddr ≤ stop then
    modifyTables fun t => t.setSections p ((s.sections p).set i
      { sec with endAddr := start, length := start - sec.beginAddr })
    return 0
  else return 0

def munmap (p addr length : Nat) : VmM Int := do
  if length = 0 then return 0
  else
    let start := roundDown addr PAGE_SIZE
    let mappedLen := roundUp length PAGE_SIZE
    let stop := usize (start + mappedLen)
    let s ← get
    match (s.sections p).findIdx? fun sec => sec.Contains addr with
    | none => return -1
    | some i =>
      match (s.sections p)[i]? with
      | none => return -1
      | some sec =>
        if sec.Shared then (Mem.pageStarts start stop).forM (writeBack p sec)
        onMem ((Mem.pageStarts start stop).forM (Mem.unmapPage L (.proc p)))
        trimSection p i sec start mappedLen

/-! ## `fork` and `exit` -/

/-- `fork`: the number of the child. -/
def fork (p : Nat) : VmM Int := do
  let s ← get
  let child := s.tables.nprocs
  let parent := s.tables.procs p
  -- `create_proc`
  onMem (modify fun m => m.setDir (.proc child) fun _ => none)
  modify fun s => { s with
    tables := s.tables.setProc child ⟨none, fun _ => none, []⟩
    killed := update s.killed child false }
  parent.sections.forM fun sec =>
    onMem (Mem.forPages sec.firstPage sec.endAddr (Mem.sharePage L (.proc p) (.proc child)))
  parent.sections.forM (copySection L p child)
  (List.range NOFILE).forM fun fd =>
    match parent.ofile fd with
    | some f => modifyTables fun t => (t.dup f).setOfile child fd (some f)
    | none => return ()
  modifyTables fun t => { t.setCwd child parent.cwd with nprocs := child + 1 }
  return child

def exit (p : Nat) : VmM Unit := do
  (List.range NOFILE).forM fun fd => do
    let s ← get
    match (s.tables.procs p).ofile fd with
    | some f => modifyTables fun t => (t.close f).setOfile p fd none
    | none => return ()
  modifyTables fun t => t.setCwd p none
  freeSections L p
  modifyTables fun t => t.setSections p []
  -- `free_pgdir`
  onMem (modify fun m => m.setDir (.proc p) fun _ => none)

end Vm

end OsKernel
