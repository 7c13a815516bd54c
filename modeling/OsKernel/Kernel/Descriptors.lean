import Mathlib.Algebra.Order.BigOperators.Group.Finset
import OsKernel.Kernel.FileTable
import OsKernel.Lib.Threads

/-!
# Descriptors, mappings and pipes

The system calls that hand out and drop references to a `File`, on the tables of
`Kernel/FileTable`, with `pipe2` and the calls that reach through a descriptor.  The calls of all
processes run one after another.

The layers below do not touch these tables, so what a call gets from them is an argument: the inode
that a path leads to, whether an inode is a regular file, the segments of a program, the
pages in memory, and the tests of user memory.  The variable `write_end` of `pipe2` is read
by `pipe_alloc` before it has a value when no `File` is free; that value is an argument, too.

A state also has the pointers that have been followed: the member of the union in `File` and the
type of the `File` at that time.
-/

namespace OsKernel

/-- The members of the union in `struct file`. -/
inductive FileMember where
  | ip
  | pipe
deriving DecidableEq, Repr

/-- A pointer of a `File` of the type has been followed. -/
structure Deref where
  member : FileMember
  type : FileType
deriving DecidableEq, Repr

structure Descriptors where
  tables : Tables
  derefs : List Deref

namespace Descriptors

/-! ## Files -/

variable (s : Descriptors)

def follow (member : FileMember) (type : FileType) : Descriptors :=
  { s with derefs := ⟨member, type⟩ :: s.derefs }

def fileAlloc : Option (Fin NFILE) × Descriptors :=
  match s.tables.findFree NFILE 0 with
  | some f => (some f, { s with tables := s.tables.setFile f { File.none with ref := 1 } })
  | none => (none, s)

/-- `file_close`: the last reference closes the pipe or puts the inode. -/
def fileClose (f : Fin NFILE) : Descriptors :=
  let file := s.tables.flist f
  let s := { s with tables := s.tables.close f }
  if file.ref < 1 ∨ 0 < file.ref - 1 then s
  else
    match file.type with
    | .FD_PIPE => if file.ip.isSome then s.follow .pipe .FD_PIPE else s
    | .FD_INODE => if file.ip.isSome then s.follow .ip .FD_INODE else s
    | .FD_NONE => s

/-- `file_close` of a pointer that may be `NULL`. -/
def fileCloseOpt : Option (Fin NFILE) → Descriptors
  | some f => s.fileClose f
  | none => s

def fd2file (p : Nat) (fd : Int) : Option (Fin NFILE) :=
  if fd < 0 ∨ NOFILE ≤ fd then none else (s.tables.procs p).ofile fd.toNat

def fdalloc (p : Nat) (f : Fin NFILE) : Option Nat × Descriptors :=
  match (List.range NOFILE).find? fun fd => ((s.tables.procs p).ofile fd).isNone with
  | some fd => (some fd, { s with tables := s.tables.setOfile p fd (some f) })
  | none => (none, s)

/-! ## References from descriptors -/

/-- `openat`, once `create` or `namei` has given `found`. -/
def openat (p : Nat) (found : Option Nat) (wronly rdwr : Bool) :
    Int × Descriptors :=
  match found with
  | none => (-1, s)
  | some ip =>
    match s.fileAlloc with
    | (none, s) => (-1, s)
    | (some f, s) =>
      match s.fdalloc p f with
      | (none, s) => (-1, s.fileClose f)
      | (some fd, s) =>
        let file : File := ⟨.FD_INODE, (s.tables.flist f).ref, !wronly, wronly || rdwr, some ip, 0⟩
        (fd, { s with tables := s.tables.setFile f file })

def close (p : Nat) (fd : Int) : Int × Descriptors :=
  match s.fd2file p fd with
  | none => (-1, s)
  | some f => (0, fileClose { s with tables := s.tables.setOfile p fd.toNat none } f)

def dup (p : Nat) (fd : Int) : Int × Descriptors :=
  match s.fd2file p fd with
  | none => (-1, s)
  | some f =>
    match s.fdalloc p f with
    | (none, s) => (-1, s)
    | (some fd, s) => (fd, { s with tables := s.tables.dup f })

/-- `pipe_alloc` with the address of the new pipe, and the value that `write_end` has before. -/
def pipeAlloc (channel : Nat) (writeEnd : Option (Fin NFILE)) :
    Option (Fin NFILE × Fin NFILE) × Descriptors :=
  match s.fileAlloc with
  | (none, s) => (none, s.fileCloseOpt writeEnd)
  | (some f₀, s) =>
    match s.fileAlloc with
    | (none, s) => (none, s.fileClose f₀)
    | (some f₁, s) =>
      -- `init_read_pipe` and `init_write_pipe`
      let t := s.tables.setFile f₀ ⟨.FD_PIPE, 1, true, false, some channel, 0⟩
      let t := t.setFile f₁ ⟨.FD_PIPE, 1, false, true, some channel, 0⟩
      (some (f₀, f₁), { s with tables := t })

def pipe2 (p : Nat) (flags : Int) (channel : Nat)
    (writeEnd : Option (Fin NFILE)) : Int × Descriptors :=
  if flags ≠ 0 then (-1, s)
  else
    match s.pipeAlloc channel writeEnd with
    | (none, s) => (-1, s)
    | (some (f₀, f₁), s) =>
      let (readFd, s) := s.fdalloc p f₀
      let (writeFd, s) := s.fdalloc p f₁
      match readFd, writeFd with
      | some _, some _ => (0, s)
      | some fd, none =>
        let s := { s with tables := s.tables.setOfile p fd none }
        (-1, (s.fileClose f₀).fileClose f₁)
      | none, _ => (-1, (s.fileClose f₀).fileClose f₁)

/-! ## References from sections -/

/-- `mmap`; `regular` is whether `entry.type` of what `ip` points to is `INODE_REGULAR`. -/
def mmap (p addr : Nat) (length : Int) (prot flags : Nat) (fd : Int)
    (offset : Nat) (regular : Bool) : Int × Descriptors :=
  if FileSys.mmapValidateArgs length prot flags then
    match s.fd2file p fd with
    | none => (-1, s)
    | some f =>
      let file := s.tables.flist f
      if FileSys.mmapValidateFile file flags prot then
        if file.ip.isNone then (-1, s)
        else
          let memSize := FileSys.roundUp length.toNat PAGE_SIZE
          if memSize = 0 then (-1, s)
          else
            -- `inodes.lock(inode_ptr)`
            let s := s.follow .ip file.type
            if !regular then (-1, s)
            else
              let start := if addr = 0 then s.tables.nextAddr else addr
              let t := if addr = 0 then
                { s.tables with nextAddr := usize (s.tables.nextAddr + memSize) } else s.tables
              let t := t.dup f
              let st : Section :=
                ⟨FileSys.ST_FILE, flags, start, usize (start + memSize), some f, offset, memSize⟩
              ((BitVec.ofNat 32 start).toInt,
                { s with tables := t.setSections p (st :: (t.procs p).sections) })
      else (-1, s)
  else (-1, s)

/-- The write-back loop of `munmap` over the pages in memory. -/
def writeBack (s : Descriptors) (st : Section) : List Nat → Except Runs.Stop Descriptors
  | [] => .ok s
  | _ :: pages =>
    match st.fp with
    | none => .error .panic
    | some f => writeBack (s.follow .ip (s.tables.flist f).type) st pages

/-- What `munmap` does to section `i` of the process. -/
def dropSection (p i : Nat) (st : Section) (start mappedLen : Nat) :
    Int × Descriptors :=
  let sections := (s.tables.procs p).sections
  let stop := usize (start + mappedLen)
  if start = st.beginAddr ∧ st.endAddr ≤ stop then
    (0, fileCloseOpt { s with tables := s.tables.setSections p (sections.eraseIdx i) } st.fp)
  else if st.beginAddr < start ∧ stop < st.endAddr then (-1, s)
  else if start = st.beginAddr ∧ stop < st.endAddr then
    (0, { s with tables := s.tables.setSections p (sections.set i { st with
        beginAddr := usize (st.beginAddr + mappedLen)
        offset := usize (st.offset + mappedLen)
        length := usizeSub st.length mappedLen }) })
  else if st.beginAddr < start ∧ st.endAddr ≤ stop then
    (0, { s with tables := s.tables.setSections p (sections.set i
      { st with endAddr := start, length := start - st.beginAddr }) })
  else (0, s)

/-- `munmap`; `mapped` tells which pages the process has in memory. -/
def munmap (p addr length : Nat) (mapped : Nat → Bool) :
    Except Runs.Stop (Int × Descriptors) :=
  if length = 0 then .ok (0, s)
  else
    let start := FileSys.roundDown addr PAGE_SIZE
    let mappedLen := FileSys.roundUp length PAGE_SIZE
    let sections := (s.tables.procs p).sections
    match sections.findIdx? fun st => st.beginAddr ≤ addr ∧ addr < st.endAddr with
    | none => .ok (-1, s)
    | some i =>
      match sections[i]? with
      | none => .ok (-1, s)
      | some st =>
        if st.mmapFlags &&& FileSys.MAP_SHARED ≠ 0 then
          let pages := (FileSys.pageAddrs start (usize (start + mappedLen))).filter mapped
          match s.writeBack st pages with
          | .ok s => .ok (s.dropSection p i st start mappedLen)
          | .error e => .error e
        else .ok (s.dropSection p i st start mappedLen)

/-! ## Processes -/

def dupOpt (t : Tables) : Option (Fin NFILE) → Tables
  | some f => t.dup f
  | none => t

/-- `clone`: `fork` copies the sections and the descriptors. -/
def clone (p : Nat) (flag : Int) : Int × Descriptors :=
  if flag ≠ 17 then (-1, s)
  else
    let parent := s.tables.procs p
    let t := (parent.sections.map Section.fp).foldl dupOpt s.tables
    let t := ((List.range NOFILE).map parent.ofile).foldl dupOpt t
    let child : ProcFiles := ⟨parent.cwd, parent.ofile, parent.sections.reverse⟩
    (t.nprocs, { s with tables := { t.setProc t.nprocs child with nprocs := t.nprocs + 1 } })

/-- `execve` with the flags and the bounds of the segments that `load_elf_binary` maps. -/
def execve (p : Nat) : Option (List (Nat × Nat × Nat)) → Int × Descriptors
  | none => (-1, s)
  | some segments =>
    let sections := segments.map fun seg => ⟨seg.1, 0, seg.2.1, seg.2.2, none, 0, 0⟩
    (0, { s with tables := s.tables.setSections p (FileSys.stackSection :: sections) })

/-- A turn of the first loop of `exit`. -/
def closeFd (p : Nat) (s : Descriptors) (fd : Nat) : Descriptors :=
  match (s.tables.procs p).ofile fd with
  | some f =>
    let s := s.fileClose f
    { s with tables := s.tables.setOfile p fd none }
  | none => s

def exit (p : Nat) : Descriptors :=
  let s := (List.range NOFILE).foldl (closeFd p) s
  let s := { s with tables := s.tables.setCwd p none }
  -- `free_sections`
  ((s.tables.procs p).sections.map Section.fp).foldl fileCloseOpt s

/-! ## Calls that reach through a descriptor -/

/-- `file_read` of a positive number of bytes. -/
def fileRead (f : Fin NFILE) (result : Int) :
    Except Runs.Stop (Int × Descriptors) :=
  let file := s.tables.flist f
  if !file.readable then .ok (-1, s)
  else
    match file.type with
    | .FD_PIPE => .ok (result, s.follow .pipe file.type)
    | .FD_INODE => .ok (result, s.follow .ip file.type)
    | .FD_NONE => .error .panic

/-- `file_write` of `n` bytes. -/
def fileWrite (f : Fin NFILE) (n result : Int) :
    Except Runs.Stop (Int × Descriptors) :=
  let file := s.tables.flist f
  if !file.writable then .ok (-1, s)
  else
    match file.type with
    | .FD_PIPE => .ok (result, s.follow .pipe file.type)
    | .FD_INODE =>
      if 0 < n then .ok (result, s.follow .ip file.type)
      else if n = 0 then .ok (n, s)
      else .error .panic
    | .FD_NONE => .error .panic

/-- `read` and `write`; `user` is whether the process may use the buffer. -/
def read (p : Nat) (fd size : Int) (user : Bool) (result : Int) :
    Except Runs.Stop (Int × Descriptors) :=
  match s.fd2file p fd with
  | none => .ok (-1, s)
  | some f => if size ≤ 0 ∨ !user then .ok (-1, s) else s.fileRead f result

def write (p : Nat) (fd size : Int) (user : Bool) (result : Int) :
    Except Runs.Stop (Int × Descriptors) :=
  match s.fd2file p fd with
  | none => .ok (-1, s)
  | some f => if size ≤ 0 ∨ !user then .ok (-1, s) else s.fileWrite f size result

/-- The loop of `writev`: for each vector whether it may be read, its length, and the result. -/
def writevLoop (f : Fin NFILE) (tot : Int) :
    List (Bool × Int × Int) → Descriptors → Except Runs.Stop (Int × Descriptors)
  | [], s => .ok (tot, s)
  | (user, n, result) :: iov, s =>
    if !user then .ok (-1, s)
    else
      match s.fileWrite f n result with
      | .ok (r, s) => writevLoop f (tot + r) iov s
      | .error e => .error e

def writev (p : Nat) (fd : Int) (user : Bool) (iov : List (Bool × Int × Int)) :
    Except Runs.Stop (Int × Descriptors) :=
  match s.fd2file p fd with
  | none => .ok (-1, s)
  | some f => if iov.isEmpty ∨ !user then .ok (-1, s) else s.writevLoop f 0 iov

/-- `fstat` with `file_stat`. -/
def fstat (p : Nat) (fd : Int) (user : Bool) : Int × Descriptors :=
  match s.fd2file p fd with
  | none => (-1, s)
  | some f =>
    let file := s.tables.flist f
    if !user then (-1, s)
    else if file.type ≠ .FD_INODE then (-1, s)
    else if file.ip.isNone then (-1, s)
    else (0, s.follow .ip file.type)

/-- The part of `pgfault_handler` for a mapped file. -/
def pgfault (p addr : Nat) : Int × Descriptors :=
  match (s.tables.procs p).sections.find? fun st => st.beginAddr ≤ addr ∧ addr < st.endAddr with
  | none => (0, s)
  | some st =>
    if st.mmapFlags = 0 then (0, s)
    else
      match st.fp with
      | none => (0, s)
      | some f =>
        let file := s.tables.flist f
        if !file.readable ∨ file.type ≠ .FD_INODE then (0, s)
        else (0, s.follow .ip file.type)

/-! ## Runs -/

inductive DescCall where
  | openat (found : Option Nat) (wronly rdwr : Bool)
  | close (fd : Int)
  | dup (fd : Int)
  | pipe2 (flags : Int) (channel : Nat) (writeEnd : Option (Fin NFILE))
  | mmap (addr : Nat) (length : Int) (prot flags : Nat) (fd : Int) (offset : Nat) (regular : Bool)
  | munmap (addr length : Nat) (mapped : Nat → Bool)
  | clone (flag : Int)
  | execve (segments : Option (List (Nat × Nat × Nat)))
  | exit
  | read (fd size : Int) (user : Bool) (result : Int)
  | write (fd size : Int) (user : Bool) (result : Int)
  | writev (fd : Int) (user : Bool) (iov : List (Bool × Int × Int))
  | fstat (fd : Int) (user : Bool)
  | pgfault (addr : Nat)

/-- A call of process `p`, with its result. -/
def run (p : Nat) : DescCall → Except Runs.Stop (Int × Descriptors)
  | .openat found wronly rdwr => .ok (s.openat p found wronly rdwr)
  | .close fd => .ok (s.close p fd)
  | .dup fd => .ok (s.dup p fd)
  | .pipe2 flags channel writeEnd => .ok (s.pipe2 p flags channel writeEnd)
  | .mmap addr length prot flags fd offset regular =>
    .ok (s.mmap p addr length prot flags fd offset regular)
  | .munmap addr length mapped => s.munmap p addr length mapped
  | .clone flag => .ok (s.clone p flag)
  | .execve segments => .ok (s.execve p segments)
  | .exit => .ok (0, s.exit p)
  | .read fd size user result => s.read p fd size user result
  | .write fd size user result => s.write p fd size user result
  | .writev fd user iov => s.writev p fd user iov
  | .fstat fd user => .ok (s.fstat p fd user)
  | .pgfault addr => .ok (s.pgfault p addr)

/-- A process that has been created and has not exited makes a call. -/
def step (a : Nat × DescCall) : Except Runs.Stop Descriptors :=
  if a.1 < s.tables.nprocs ∧ (s.tables.procs a.1).cwd.isSome then
    match s.run a.1 a.2 with
    | .ok (_, s) => .ok s
    | .error e => .error e
  else .error .disabled

structure Init (s : Descriptors) : Prop where
  nprocs : s.tables.nprocs = 1
  files : s.tables.flist = fun _ => File.none
  ofile : ∀ fd, (s.tables.procs 0).ofile fd = none
  sections : (s.tables.procs 0).sections = []
  derefs : s.derefs = []

end Descriptors

end OsKernel
