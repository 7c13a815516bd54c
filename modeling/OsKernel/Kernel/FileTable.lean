import OsKernel.Fs.Sysfile
import OsKernel.Kernel.Mmu

/-!
# Open files and processes

The file table of `fs/file.c`, what `kernel/sysfile.c`, `kernel/proc.c` and `kernel/exec.c` do
with it, and the working directories of the processes, on top of the inode layer.  The system
calls of all processes run one after another.

A process is known by a number; those below `nprocs` have been created, and one that has
exited has no working directory.  A `File` is known by its place in `ftable`.  User memory is
not part of the state: what a call reads there is an argument.  That are the strings, the
bytes of the pages that a mapping has in memory, and the mode bits.  `kalloc` finds memory.
None of these calls makes a pipe; `pipe2` is in `Kernel/Descriptors`.
-/

namespace OsKernel

open Function

abbrev NFILE : Nat := 65536

abbrev NOFILE : Nat := 16

inductive FileType where
  | FD_NONE
  | FD_PIPE
  | FD_INODE
deriving DecidableEq, Repr

/-- `struct file`.  The field `ip` is the union: for a pipe it is the pointer `pipe`. -/
structure File where
  type : FileType
  ref : Int
  readable : Bool
  writable : Bool
  ip : Option Nat
  off : Nat

/-- A `File` that is not in use, as `init_ftable` and `file_close` leave it. -/
def File.none : File := ⟨.FD_NONE, 0, false, false, Option.none, 0⟩

/-- `struct section`.  The fields `begin` and `end` are the bounds of the addresses. -/
structure Section where
  flags : Nat
  mmapFlags : Nat
  beginAddr : Nat
  endAddr : Nat
  fp : Option (Fin NFILE)
  offset : Nat
  length : Nat
deriving DecidableEq

/-- The fields of `Proc` that have to do with files. -/
structure ProcFiles where
  cwd : Option Nat
  ofile : Nat → Option (Fin NFILE)
  sections : List Section

/-- `ftable`, the processes, `inodes.root`, and `next_available_addr` of `mmap`. -/
structure Tables where
  flist : Fin NFILE → File
  procs : Nat → ProcFiles
  nprocs : Nat
  root : Option Nat
  nextAddr : Nat

structure FileSys (κ : Type) where
  fs : Fs κ
  tables : Tables

abbrev KernelM (κ : Type) := Prog Halt (FileSys κ)

namespace Tables

/-- The table with another file at `f`. -/
def setFile (t : Tables) (f : Fin NFILE) (file : File) : Tables :=
  { t with flist := update t.flist f file }

/-- The processes with another one at `p`. -/
def setProc (t : Tables) (p : Nat) (proc : ProcFiles) : Tables :=
  { t with procs := update t.procs p proc }

def setOfile (t : Tables) (p fd : Nat) (f : Option (Fin NFILE)) : Tables :=
  t.setProc p { t.procs p with ofile := update (t.procs p).ofile fd f }

def setCwd (t : Tables) (p : Nat) (cwd : Option Nat) : Tables :=
  t.setProc p { t.procs p with cwd := cwd }

def setSections (t : Tables) (p : Nat) (sections : List Section) : Tables :=
  t.setProc p { t.procs p with sections := sections }

/-- `file_dup`. -/
def dup (t : Tables) (f : Fin NFILE) : Tables :=
  t.setFile f { t.flist f with ref := (t.flist f).ref + 1 }

/-- What `file_close` does to the table. -/
def close (t : Tables) (f : Fin NFILE) : Tables :=
  if (t.flist f).ref < 1 then t
  else if 0 < (t.flist f).ref - 1 then
    t.setFile f { t.flist f with ref := (t.flist f).ref - 1 }
  else t.setFile f File.none

/-- The inode that `file_close` puts: the one of a file whose last reference goes. -/
def lastIp (t : Tables) (f : Fin NFILE) : Option Nat :=
  if (t.flist f).ref < 1 then none
  else if 0 < (t.flist f).ref - 1 then none
  else
    match (t.flist f).type with
    | .FD_INODE => (t.flist f).ip
    | .FD_PIPE | .FD_NONE => none

/-- The loop of `file_alloc` for `n` files from `i` on. -/
def findFree (t : Tables) : Nat → Nat → Option (Fin NFILE)
  | 0, _ => none
  | n + 1, i =>
    if h : i < NFILE then
      if (t.flist ⟨i, h⟩).ref = 0 then some ⟨i, h⟩ else findFree t n (i + 1)
    else none

end Tables

variable {κ : Type} {α : Type}

/-- A call of the inode layer by process `p`. -/
def onFs (p : Nat) (x : FsM κ α) : KernelM κ α :=
  Prog.zoom (fun s => { s.fs with cwd := (s.tables.procs p).cwd.getD 0 })
    (fun f s => { s with fs := f }) x

def modifyTables (f : Tables → Tables) : KernelM κ Unit :=
  modify fun s => { s with tables := f s.tables }

namespace FileSys

/-! ## Files -/

def fileAlloc : KernelM κ (Option (Fin NFILE)) := do
  let s ← get
  match s.tables.findFree NFILE 0 with
  | some f =>
    modifyTables fun t => t.setFile f { File.none with ref := 1 }
    return some f
  | none => return none

variable (env : FsEnv κ)

def fileClose (p : Nat) (f : Fin NFILE) : KernelM κ Unit := do
  let s ← get
  modifyTables fun t => t.close f
  match s.tables.lastIp f with
  | some ip => onFs p (transaction env fun ctx => inodePut env ctx ip)
  | none => return ()

/-- `file_close` of a pointer that may be `NULL`. -/
def fileCloseOpt (p : Nat) : Option (Fin NFILE) → KernelM κ Unit
  | some f => fileClose env p f
  | none => return ()

def fd2file (p : Nat) (fd : Int) : KernelM κ (Option (Fin NFILE)) := do
  let s ← get
  if fd < 0 ∨ NOFILE ≤ fd then return none
  else return (s.tables.procs p).ofile fd.toNat

def fdalloc (p : Nat) (f : Fin NFILE) : KernelM κ (Option Nat) := do
  let s ← get
  match (List.range NOFILE).find? fun fd => ((s.tables.procs p).ofile fd).isNone with
  | some fd =>
    modifyTables fun t => t.setOfile p fd (some f)
    return some fd
  | none => return none

/-! ## System calls on files -/

def openat (p : Nat) (path : List UInt8) (creat wronly rdwr : Bool) :
    KernelM κ Int := do
  onFs p (onCache (env.cache.beginOp stackCtx))
  let found ← onFs p (openInode env path creat (some stackCtx))
  match found with
  | none =>
    onFs p (onCache (env.cache.endOp stackCtx))
    return -1
  | some ip =>
    let f ← fileAlloc
    match f with
    | none =>
      onFs p (unlockPut env (some stackCtx) ip)
      onFs p (onCache (env.cache.endOp stackCtx))
      return -1
    | some f =>
      let fd ← fdalloc p f
      match fd with
      | none =>
        fileClose env p f
        onFs p (unlockPut env (some stackCtx) ip)
        onFs p (onCache (env.cache.endOp stackCtx))
        return -1
      | some fd =>
        onFs p (inodeUnlock ip)
        onFs p (onCache (env.cache.endOp stackCtx))
        modifyTables fun t => t.setFile f
          ⟨.FD_INODE, (t.flist f).ref, !wronly, wronly || rdwr, some ip, 0⟩
        return fd

def close (p : Nat) (fd : Int) : KernelM κ Int := do
  let f ← fd2file p fd
  match f with
  | none => return -1
  | some f =>
    modifyTables fun t => t.setOfile p fd.toNat none
    fileClose env p f
    return 0

def dup (p : Nat) (fd : Int) : KernelM κ Int := do
  let f ← fd2file p fd
  match f with
  | none => return -1
  | some f =>
    let fd ← fdalloc p f
    match fd with
    | none => return -1
    | some fd =>
      modifyTables fun t => t.dup f
      return fd

/-- `stati`: only the check of the type. -/
def stati (ip : Nat) : FsM κ Unit := do
  let i ← getInode ip
  assert (i.entry.type = INODE_REGULAR ∨ i.entry.type = INODE_DIRECTORY ∨
    i.entry.type = INODE_DEVICE)

def newfstatat (p : Nat) (path : List UInt8) : KernelM κ Int :=
  onFs p (transaction env fun ctx => do
    let found ← namei env path ctx
    match found with
    | none => return -1
    | some ip =>
      inodeLock env ip
      stati ip
      unlockPut env ctx ip
      return 0)

def chdir (p : Nat) (path : List UInt8) : KernelM κ Int := do
  onFs p (onCache (env.cache.beginOp stackCtx))
  let found ← onFs p (namei env path (some stackCtx))
  match found with
  | none =>
    onFs p (onCache (env.cache.endOp stackCtx))
    return -1
  | some target =>
    onFs p (inodeLock env target)
    let i ← onFs p (getInode target)
    if i.entry.type ≠ INODE_DIRECTORY then
      onFs p (unlockPut env (some stackCtx) target)
      onFs p (onCache (env.cache.endOp stackCtx))
      return -1
    else
      onFs p (inodeUnlock target)
      let s ← get
      match (s.tables.procs p).cwd with
      | some cwd => onFs p (inodePut env (some stackCtx) cwd)
      | none => pure ()
      modifyTables fun t => t.setCwd p (some target)
      onFs p (onCache (env.cache.endOp stackCtx))
      return 0

/-! ## Mappings -/

def MAP_SHARED : Nat := 1

def MAP_ANONYMOUS : Nat := 32

def PROT_WRITE : Nat := 2

def PROT_EXEC : Nat := 4

def ST_FILE : Nat := 1

def roundDown (a b : Nat) : Nat := a / b * b

def roundUp (a b : Nat) : Nat := roundDown (usize (a + (b - 1))) b

def mmapValidateArgs (length : Int) (prot flags : Nat) : Bool :=
  0 < length ∧ prot &&& PROT_EXEC = 0 ∧ flags &&& MAP_ANONYMOUS = 0

def mmapValidateFile (file : File) (flags prot : Nat) : Bool :=
  if flags &&& MAP_SHARED ≠ 0 ∧ prot &&& PROT_WRITE ≠ 0 then file.writable else true

/-- The part of `mmap` between `inodes.lock` and `inodes.unlock`: a section for a regular file. -/
def mmapSection (p : Nat) (addr memSize flags : Nat) (f : Fin NFILE) (ip offset : Nat) :
    KernelM κ Int := do
  let i ← onFs p (getInode ip)
  if i.entry.type ≠ INODE_REGULAR then return -1
  else
    let s ← get
    let start := if addr = 0 then s.tables.nextAddr else addr
    modifyTables fun t =>
      if addr = 0 then { t with nextAddr := usize (t.nextAddr + memSize) } else t
    modifyTables fun t => t.dup f
    modifyTables fun t => t.setSections p
      (⟨ST_FILE, flags, start, usize (start + memSize), some f, offset, memSize⟩ ::
        (t.procs p).sections)
    return (BitVec.ofNat 32 start).toInt

def mmap (p addr : Nat) (length : Int) (prot flags : Nat) (fd : Int)
    (offset : Nat) : KernelM κ Int := do
  if mmapValidateArgs length prot flags then
    let file ← fd2file p fd
    match file with
    | none => return -1
    | some f =>
      let s ← get
      if mmapValidateFile (s.tables.flist f) flags prot then
        match (s.tables.flist f).ip with
        | none => return -1
        | some ip =>
          let memSize := roundUp length.toNat PAGE_SIZE
          if memSize = 0 then return -1
          else
            onFs p (onCache (env.cache.beginOp stackCtx))
            onFs p (inodeLock env ip)
            let result ← mmapSection p addr memSize flags f ip offset
            onFs p (inodeUnlock ip)
            onFs p (onCache (env.cache.endOp stackCtx))
            return result
      else return -1
  else return -1

/-- The turn of the write-back loop of `munmap` for the page at `va`, with the bytes `page`. -/
def writeBack (p : Nat) (st : Section) (va : Nat) (page : Nat → UInt8) :
    KernelM κ Unit := do
  let s ← get
  match st.fp.bind fun f => (s.tables.flist f).ip with
  | none => throw .panic
  | some ip =>
    let _ ← onFs p (inodeWrite env none ip page (usize (st.offset + (va - st.beginAddr))) PAGE_SIZE)
    return ()

/-- The addresses of the pages from `start` to `stop`. -/
def pageAddrs (start stop : Nat) : List Nat :=
  (List.range ((stop - start) / PAGE_SIZE)).map (start + PAGE_SIZE * ·)

/-- What `munmap` does to section `i` of the process once its pages are written back. -/
def dropSection (p i : Nat) (st : Section) (start mappedLen : Nat) :
    KernelM κ Int := do
  let s ← get
  let sections := (s.tables.procs p).sections
  let stop := usize (start + mappedLen)
  if start = st.beginAddr ∧ st.endAddr ≤ stop then
    modifyTables fun t => t.setSections p (sections.eraseIdx i)
    fileCloseOpt env p st.fp
    return 0
  else if st.beginAddr < start ∧ stop < st.endAddr then return -1
  else if start = st.beginAddr ∧ stop < st.endAddr then
    modifyTables fun t => t.setSections p (sections.set i { st with
        beginAddr := usize (st.beginAddr + mappedLen)
        offset := usize (st.offset + mappedLen)
        length := usizeSub st.length mappedLen })
    return 0
  else if st.beginAddr < start ∧ st.endAddr ≤ stop then
    modifyTables fun t => t.setSections p (sections.set i
      { st with endAddr := start, length := start - st.beginAddr })
    return 0
  else return 0

/-- `munmap`; `pages` are the pages that the process has in memory. -/
def munmap (p addr length : Nat) (pages : Nat → Option (Nat → UInt8)) :
    KernelM κ Int := do
  if length = 0 then return 0
  else
    let start := roundDown addr PAGE_SIZE
    let mappedLen := roundUp length PAGE_SIZE
    let s ← get
    let sections := (s.tables.procs p).sections
    match sections.findIdx? fun st => st.beginAddr ≤ addr ∧ addr < st.endAddr with
    | none => return -1
    | some i =>
      match sections[i]? with
      | none => return -1
      | some st =>
        if st.mmapFlags &&& MAP_SHARED ≠ 0 then
          (pageAddrs start (usize (start + mappedLen))).forM fun va =>
            match pages va with
            | some page => writeBack env p st va page
            | none => return ()
        dropSection env p i st start mappedLen

/-! ## Processes -/

/-- `file_dup` of a pointer that may be `NULL`. -/
def fileDupOpt : Option (Fin NFILE) → KernelM κ Unit
  | some f => modifyTables fun t => t.dup f
  | none => return ()

/-- `fork`: the number of the child. -/
def fork (p : Nat) : KernelM κ Int := do
  let s ← get
  let parent := s.tables.procs p
  parent.sections.forM fun st => fileDupOpt st.fp
  (List.range NOFILE).forM fun fd => fileDupOpt (parent.ofile fd)
  match parent.cwd with
  | none => throw .panic
  | some cwd =>
    let cwd ← onFs p (inodeShare cwd)
    modifyTables fun t =>
      { t.setProc t.nprocs ⟨some cwd, parent.ofile, parent.sections.reverse⟩ with
        nprocs := t.nprocs + 1 }
    return s.tables.nprocs

def clone (p : Nat) (flag : Int) : KernelM κ Int := do
  if flag ≠ 17 then return -1
  else fork p

/-- A turn of the first loop of `exit`. -/
def closeFd (p fd : Nat) : KernelM κ Unit := do
  let s ← get
  match (s.tables.procs p).ofile fd with
  | some f =>
    fileClose env p f
    modifyTables fun t => t.setOfile p fd none
  | none => return ()

def exit (p : Nat) : KernelM κ Unit := do
  (List.range NOFILE).forM (closeFd env p)
  let s ← get
  match (s.tables.procs p).cwd with
  | none => throw .panic
  | some cwd =>
    onFs p (transaction env fun ctx => inodePut env ctx cwd)
    modifyTables fun t => t.setCwd p none
    -- `free_sections`
    (s.tables.procs p).sections.forM fun st => fileCloseOpt env p st.fp

/-! ### `execve`

The part of `kernel/exec.c` that reads the file.  The layout of the two headers is that of
`elf.h`. -/

abbrev EHDR_BYTES : Nat := 64

abbrev PHDR_BYTES : Nat := 56

abbrev Elf64Ehdr := Bytes EHDR_BYTES

abbrev Elf64Phdr := Bytes PHDR_BYTES

def isValidElf (hdr : Elf64Ehdr) : Bool :=
  hdr.get 0 = 0x7f ∧ hdr.get 1 = 69 ∧ hdr.get 2 = 76 ∧ hdr.get 3 = 70 ∧ hdr.get 4 = 2

/-- `get_section_type`: a text or a data segment. -/
def getSectionType (flags : Nat) : Option Nat :=
  if flags = 5 then some 5 else if flags = 6 then some ST_FILE else none

/-- The loop of `map_elf_segment` that reads the file into pages, up to address `stop`. -/
def readPages (env : FsEnv κ) (file stop : Nat) : Nat → Nat → Nat → FsM κ Bool
  | 0, _, _ => return true
  | fuel + 1, vaddr, filePos =>
    if vaddr < stop then do
      let pageStart := roundDown vaddr PAGE_SIZE
      let copyLen := min (PAGE_SIZE - (vaddr - pageStart)) (stop - vaddr)
      let (_, n) ← inodeRead env file (fun _ => 0) filePos copyLen
      if n ≠ copyLen then return false
      else readPages env file stop fuel (vaddr + copyLen) (usize (filePos + copyLen))
    else return true

/-- `map_elf_segment`: the new section.  Every turn of the loop reads a byte or more. -/
def mapElfSegment (file : Nat) (phdr : Elf64Phdr) : FsM κ (Option Section) := do
  let vaddr := phdr.readLE 16 8
  let filesz := phdr.readLE 32 8
  let memsz := phdr.readLE 40 8
  assert (¬ memsz < filesz)
  assert (¬ usize (vaddr + memsz) < vaddr)
  match getSectionType (phdr.readLE 4 4) with
  | none => return none
  | some segType =>
    let done ← readPages env file (vaddr + filesz) (filesz + 1) vaddr (phdr.readLE 8 8)
    if done then
      return some ⟨segType, 0, vaddr, if segType = 5 then vaddr + filesz else vaddr + memsz,
        none, 0, 0⟩
    else return none

/-- The loop of `load_elf_binary` over the program headers in the list. -/
def loadSegments (env : FsEnv κ) (file : Nat) (hdr : Elf64Ehdr) (sections : List Section) :
    List Nat → FsM κ (Option (List Section))
  | [] => return some sections
  | i :: rest => do
    let buf ← uninit
    let (buf, n) ← inodeRead env file buf (usize (hdr.readLE 32 8 + i * PHDR_BYTES)) PHDR_BYTES
    if n ≠ PHDR_BYTES then return none
    else
      let phdr : Elf64Phdr := fun k => buf k
      if phdr.readLE 0 4 ≠ 1 then loadSegments env file hdr sections rest
      else
        let seg ← mapElfSegment env file phdr
        match seg with
        | none => return none
        | some seg => loadSegments env file hdr (seg :: sections) rest

/-- What `load_elf_binary` does with the locked file. -/
def readElf (file : Nat) : FsM κ (Option (List Section)) := do
  let buf ← uninit
  let (buf, n) ← inodeRead env file buf 0 EHDR_BYTES
  let hdr : Elf64Ehdr := fun k => buf k
  if n ≠ EHDR_BYTES then return none
  else if isValidElf hdr then loadSegments env file hdr [] (List.range (hdr.readLE 56 2))
  else return none

def loadElfBinary (path : List UInt8) : FsM κ (Option (List Section)) :=
  transaction env fun ctx => do
    let found ← namei env path ctx
    match found with
    | none => return none
    | some file =>
      inodeLock env file
      let sections ← readElf env file
      unlockPut env ctx file
      return sections

def USERTOP : Nat := 2 ^ 48

def stackSection : Section := ⟨ST_FILE, 0, USERTOP - 32 * PAGE_SIZE, USERTOP, none, 0, 0⟩

/-- `execve`.  The sections of the old image go without `file_close`. -/
def execve (p : Nat) (path : List UInt8) : KernelM κ Int := do
  let sections ← onFs p (loadElfBinary env path)
  match sections with
  | none => return -1
  | some sections =>
    modifyTables fun t => t.setSections p (stackSection :: sections)
    return 0

/-! ## Runs -/

/-- `init_ftable` and `init_inodes`, and the first user process. -/
def boot : KernelM κ Unit := do
  modifyTables fun t => { t with flist := fun _ => File.none, nprocs := 0 }
  let root ← onFs 0 (initInodes env)
  modifyTables fun t => { t with root := root }
  let cwd ← onFs 0 (transaction env fun ctx => namei env [SLASH] ctx)
  modifyTables fun t => { t.setProc 0 ⟨cwd, fun _ => none, []⟩ with nprocs := 1 }

inductive Call where
  | openat (path : List UInt8) (creat wronly rdwr : Bool)
  | close (fd : Int)
  | dup (fd : Int)
  | chdir (path : List UInt8)
  | mkdirat (path : List UInt8)
  | mknodat (path : List UInt8) (major minor : Nat)
  | unlinkat (path : List UInt8)
  | newfstatat (path : List UInt8)
  | mmap (addr : Nat) (length : Int) (prot flags : Nat) (fd : Int) (offset : Nat)
  | munmap (addr length : Nat) (pages : Nat → Option (Nat → UInt8))
  | clone (flag : Int)
  | execve (path : List UInt8)
  | exit

/-- A system call of process `p`, without its result. -/
def Call.run (p : Nat) : Call → KernelM κ Unit
  | .openat path creat wronly rdwr => do let _ ← FileSys.openat env p path creat wronly rdwr
  | .close fd => do let _ ← FileSys.close env p fd
  | .dup fd => do let _ ← FileSys.dup p fd
  | .chdir path => do let _ ← FileSys.chdir env p path
  | .mkdirat path => do let _ ← onFs p (OsKernel.mkdirat env path)
  | .mknodat path major minor => do let _ ← onFs p (OsKernel.mknodat env path major minor)
  | .unlinkat path => do let _ ← onFs p (OsKernel.unlinkat env path)
  | .newfstatat path => do let _ ← FileSys.newfstatat env p path
  | .mmap addr length prot flags fd offset => do
    let _ ← FileSys.mmap env p addr length prot flags fd offset
  | .munmap addr length pages => do let _ ← FileSys.munmap env p addr length pages
  | .clone flag => do let _ ← FileSys.clone p flag
  | .execve path => do let _ ← FileSys.execve env p path
  | .exit => FileSys.exit env p

/-- A process that has been created and has not exited makes a call, and the call returns. -/
def step (s : FileSys κ) (a : Nat × Call) : Except Runs.Stop (FileSys κ) :=
  if a.1 < s.tables.nprocs ∧ (s.tables.procs a.1).cwd.isSome then
    match (a.2.run env a.1).exec s with
    | (.ok _, s') => .ok s'
    | (.error _, _) => .error .panic
  else .error .disabled

def Init (s : FileSys κ) : Prop := ∃ m, (boot env).exec m = (.ok (), s)

def Reach : FileSys κ → Prop := Runs.Reach (step env) Runs.always (Init env)

end FileSys

end OsKernel
