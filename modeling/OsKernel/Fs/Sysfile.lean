import OsKernel.Lib.Runs
import OsKernel.Fs.Inode

/-!
# File-system operations

The system calls of `kernel/sysfile.c` that change the file system, and `file_write`
on a file of type `FD_INODE`.  Paths have passed `user_strlen`, and the descriptor
and mode arguments their checks.  `opened` says whether `file_alloc` and `fdalloc`
find room.
-/

namespace OsKernel

variable {κ : Type}

/-- The `OpContext` on the stack of the caller. -/
def stackCtx : Nat := 0

/-- `bcache.begin_op(&ctx)`, a body that gets `&ctx`, and `bcache.end_op(&ctx)`. -/
def transaction {α : Type} (env : FsEnv κ) (body : Option Nat → FsM κ α) : FsM κ α := do
  onCache (env.cache.beginOp stackCtx)
  let r ← body (some stackCtx)
  onCache (env.cache.endOp stackCtx)
  return r

variable (env : FsEnv κ)

/-- `inodes.unlock(ip); inodes.put(ctx, ip)`. -/
def unlockPut (ctx : Option Nat) (ip : Nat) : FsM κ Unit := do
  inodeUnlock ip
  inodePut env ctx ip

/-! ## `create` -/

/-- `create` when the parent directory has an entry of that name. -/
def createExisting (ctx : Option Nat) (type parent no : Nat) :
    FsM κ (Option Nat) := do
  let existing ← inodeGet env no
  unlockPut env ctx parent
  inodeLock env existing
  let i ← getInode existing
  if type = INODE_REGULAR ∧ i.entry.type = INODE_REGULAR then return some existing
  else
    unlockPut env ctx existing
    return none

/-- The entries `.` and `..` of a new directory. -/
def createDots (ctx : Option Nat) (type parent ip : Nat) : FsM κ Unit := do
  if type = INODE_DIRECTORY then
    setEntry parent fun e => e.setNumLinks (e.numLinks + 1)
    inodeSync env ctx parent true
    let i ← getInode ip
    let _ ← inodeInsert env ctx ip (cstr [46]) i.inodeNo
    let p ← getInode parent
    let _ ← inodeInsert env ctx ip (cstr [46, 46]) p.inodeNo

/-- Take the link of a directory away from its parent. -/
def dropParentLink (ctx : Option Nat) (type parent : Nat) : FsM κ Unit := do
  if type = INODE_DIRECTORY then
    setEntry parent fun e => e.setNumLinks (e.numLinks + (2 ^ 16 - 1))
    inodeSync env ctx parent true

/-- `create` when the parent directory has no entry of that name. -/
def createNew (ctx : Option Nat) (type major minor parent : Nat)
    (name : Nat → UInt8) : FsM κ (Option Nat) := do
  let no ← inodeAlloc env type
  if no = 0 then
    unlockPut env ctx parent
    return none
  else
    let ip ← inodeGet env no
    inodeLock env ip
    setEntry ip fun e => ((e.setMajor major).setMinor minor).setNumLinks 1
    inodeSync env ctx ip true
    createDots env ctx type parent ip
    let i ← getInode ip
    let insertResult ← inodeInsert env ctx parent name i.inodeNo
    -- the index is converted to `int`
    if (BitVec.ofNat 32 insertResult).toInt ≤ 0 then
      dropParentLink env ctx type parent
      unlockPut env ctx ip
      unlockPut env ctx parent
      return none
    else
      unlockPut env ctx parent
      return some ip

/-- `create`: the inode, locked. -/
def create (path : List UInt8) (type major minor : Nat) (ctx : Option Nat) :
    FsM κ (Option Nat) := do
  let name ← uninit
  let found ← nameiparent env path name ctx
  match found with
  | none => return none
  | some (parent, name) =>
    inodeLock env parent
    let existing ← inodeLookup env parent name
    match existing with
    | some (no, _) => createExisting env ctx type parent no
    | none => createNew env ctx type major minor parent name

/-! ## System calls -/

/-- The inode that `openat` opens, locked. -/
def openInode (path : List UInt8) (creat : Bool) (ctx : Option Nat) :
    FsM κ (Option Nat) := do
  if creat then create env path INODE_REGULAR 0 0 ctx
  else
    let found ← namei env path ctx
    match found with
    | none => return none
    | some ip =>
      inodeLock env ip
      return some ip

/-- `openat`: the inode of the new file.  `creat` is the flag `O_CREAT`. -/
def openat (path : List UInt8) (creat opened : Bool) : FsM κ (Option Nat) :=
  transaction env fun ctx => do
    let found ← openInode env path creat ctx
    match found with
    | none => return none
    | some ip =>
      if opened then
        inodeUnlock ip
        return some ip
      else
        unlockPut env ctx ip
        return none

/-- `mkdirat` and `mknodat`. -/
def makeNode (path : List UInt8) (type major minor : Nat) : FsM κ Int :=
  transaction env fun ctx => do
    let ip ← create env path type major minor ctx
    match ip with
    | none => return -1
    | some ip =>
      unlockPut env ctx ip
      return 0

def mkdirat (path : List UInt8) : FsM κ Int :=
  makeNode env path INODE_DIRECTORY 0 0

def mknodat (path : List UInt8) (major minor : Nat) : FsM κ Int :=
  makeNode env path INODE_DEVICE major minor

/-- The loop of `isdirempty` for the offsets in the list. -/
def isdiremptyFrom (env : FsEnv κ) (dp : Nat) : List Nat → FsM κ Bool
  | [] => return true
  | off :: rest => do
    let de ← uninit
    let (de, n) ← inodeRead env dp de off DIR_ENTRY_BYTES
    assert (n = DIR_ENTRY_BYTES)
    if DirEntry.inodeNo (fun k => de k) ≠ 0 then return false
    else isdiremptyFrom env dp rest

def isdirempty (dp : Nat) : FsM κ Bool := do
  let i ← getInode dp
  isdiremptyFrom env dp
    (((List.range ((i.entry.numBytes + (DIR_ENTRY_BYTES - 1)) / DIR_ENTRY_BYTES)).drop 2).map
      (DIR_ENTRY_BYTES * ·))

/-- Whether `ip` is a directory with entries other than `.` and `..`. -/
def nonemptyDir (ip : Nat) : FsM κ Bool := do
  let i ← getInode ip
  if i.entry.type = INODE_DIRECTORY then
    let empty ← isdirempty env ip
    return !empty
  else return false

/-- The rest of `unlinkat` once inode `no` is found at offset `off` of `dp`. -/
def unlinkEntry (ctx : Option Nat) (dp no off : Nat) : FsM κ Int := do
  let ip ← inodeGet env no
  inodeLock env ip
  let i ← getInode ip
  assert (¬ i.entry.numLinks < 1)
  let nonempty ← nonemptyDir env ip
  if nonempty then
    unlockPut env ctx ip
    unlockPut env ctx dp
    return -1
  else
    let n ← inodeWrite env ctx dp (fun _ => 0) off DIR_ENTRY_BYTES
    assert (n = DIR_ENTRY_BYTES)
    let i ← getInode ip
    dropParentLink env ctx i.entry.type dp
    unlockPut env ctx dp
    setEntry ip fun e => e.setNumLinks (e.numLinks + (2 ^ 16 - 1))
    inodeSync env ctx ip true
    unlockPut env ctx ip
    return 0

def unlinkat (path : List UInt8) : FsM κ Int :=
  transaction env fun ctx => do
    let name ← uninit
    let found ← nameiparent env path name ctx
    match found with
    | none => return -1
    | some (dp, name) =>
      inodeLock env dp
      if strncmp name (cstr [46]) FILE_NAME_MAX_LENGTH = 0 ∨
          strncmp name (cstr [46, 46]) FILE_NAME_MAX_LENGTH = 0 then
        unlockPut env ctx dp
        return -1
      else
        let entry ← inodeLookup env dp name
        match entry with
        | none =>
          unlockPut env ctx dp
          return -1
        | some (no, off) => unlinkEntry env ctx dp no off

/-! ## `file_write` -/

/-- A `File` of type `FD_INODE`. -/
structure InodeFile where
  writable : Bool
  ip : Nat
  off : Nat

/-- `maxbytes` of `file_write`. -/
def maxbytes : Nat := (OP_MAX_NUM_BLOCKS - 4) / 2 * BLOCK_SIZE

/-- The loop of `file_write` with `idx` bytes done, and what follows it.  Every turn
that does not return writes a byte or more. -/
def fileWriteLoop (env : FsEnv κ) (addr : Nat → UInt8) (n : Int) :
    Nat → InodeFile → Nat → FsM κ (Int × InodeFile)
  | 0, f, _ => return (n, f)
  | fuel + 1, f, idx =>
    if (idx : Int) < n then do
      let len := min (n - idx).toNat maxbytes
      let written ← transaction env fun ctx => do
        inodeLock env f.ip
        let written ← inodeWrite env ctx f.ip (fun i => addr (idx + i)) f.off len
        inodeUnlock f.ip
        return written
      let f := { f with off := usize (f.off + written) }
      if written ≠ len then return (-1, f)
      else fileWriteLoop env addr n fuel f (idx + written)
    else if (idx : Int) = n then return (n, f)
    else throw .panic

def fileWrite (f : InodeFile) (addr : Nat → UInt8) (n : Int) :
    FsM κ (Int × InodeFile) :=
  if f.writable then fileWriteLoop env addr n (n.toNat + 1) f 0 else return (-1, f)

/-! ## Sequences of operations -/

/-- `init_filesystem`: `init_bcache` and `init_inodes`. -/
def initFilesystem (sb : SuperBlock) : FsM Cache (Option Nat) := do
  onCache (initBcache sb)
  initInodes (.kernel sb)

inductive FsOp where
  | openat (path : List UInt8) (creat opened : Bool)
  | mkdirat (path : List UInt8)
  | mknodat (path : List UInt8) (major minor : Nat)
  | unlinkat (path : List UInt8)
  | fileWrite (f : InodeFile) (addr : Nat → UInt8) (n : Int)
  | inodeGet (no : Nat)
  | inodePut (ip : Nat)

/-- An operation, without its result.  `inode_get` and `inode_put` are called inside a
transaction. -/
def FsOp.run : FsOp → FsM κ Unit
  | .openat path creat opened => do let _ ← OsKernel.openat env path creat opened
  | .mkdirat path => do let _ ← OsKernel.mkdirat env path
  | .mknodat path major minor => do let _ ← OsKernel.mknodat env path major minor
  | .unlinkat path => do let _ ← OsKernel.unlinkat env path
  | .fileWrite f addr n => do let _ ← OsKernel.fileWrite env f addr n
  | .inodeGet no => transaction env fun _ => do let _ ← OsKernel.inodeGet env no
  | .inodePut ip => transaction env fun ctx => OsKernel.inodePut env ctx ip

namespace Fs

/-- A step of a sequence: an operation that returns. -/
def step (sb : SuperBlock) (s : Fs Cache) (op : FsOp) : Except Runs.Stop (Fs Cache) :=
  match (op.run (.kernel sb)).exec s with
  | (.ok _, s') => .ok s'
  | (.error _, _) => .error .panic

/-- The memory of a machine that is switched on before the device `d₀` with an empty
log.  The inodes and the working directory may be anything. -/
def PowerOn (sb : SuperBlock) (d₀ : Nat → Data) (m : Fs Cache) : Prop :=
  (LogHeader.ofData (d₀ sb.logStart)).numBlocks = 0 ∧ m.cache = powerOn d₀ ∧ m.loads = []

/-- `init_filesystem` has returned. -/
def Init (sb : SuperBlock) (d₀ : Nat → Data) (s : Fs Cache) : Prop :=
  ∃ m root, PowerOn sb d₀ m ∧ (initFilesystem sb).exec m = (.ok root, s)

def Reach (sb : SuperBlock) (d₀ : Nat → Data) : Fs Cache → Prop :=
  Runs.Reach (step sb) Runs.always (Init sb d₀)

/-- The states in which a sequence of operations ends, whose last one may return or
stop: or `init_filesystem` itself. -/
inductive Ran (sb : SuperBlock) (d₀ : Nat → Data) : Fs Cache → Prop where
  | boot {m : Fs Cache} : PowerOn sb d₀ m → Ran sb d₀ ((initFilesystem sb).exec m).2
  | op {s : Fs Cache} (o : FsOp) : Reach sb d₀ s → Ran sb d₀ ((o.run (.kernel sb)).exec s).2

end Fs

end OsKernel
