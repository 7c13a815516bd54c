import OsKernel.Common.String
import OsKernel.Fs.Cache

/-!
# The inode layer, one caller

`fs/inode.c` on top of a block cache.  As in the source the cache is an argument of
`init_inodes`; the kernel passes the one of `fs/cache.c`.  An in-memory `Inode` is known
by its address; `inodeBrk` is the next address `kalloc` gives out, and it gives out none
twice.  Reference counts are `isize` values far from overflow.

`junk` supplies what an uninitialised local variable holds.  No console input
arrives, so that `console_read` waits for ever.  `loads` records, for each call of
`inode_get` that loads an inode, the cache at that moment and the inode block.
-/

namespace OsKernel

structure Inode where
  lock : Semaphore
  rc : Int
  inodeNo : Nat
  valid : Bool
  entry : InodeEntry

def initInode : Inode where
  lock := .initSem 1
  rc := 0
  inodeNo := 0
  valid := false
  entry := Bytes.zero

/-- The calls of a block cache with state `κ`, and the bytes of a `Block` that the caller
holds. -/
structure BlockCache (κ : Type) where
  acquire : Nat → Prog Halt κ Nat
  release : Nat → Prog Halt κ Unit
  beginOp : Nat → Prog Halt κ Unit
  sync : Option Nat → Nat → Prog Halt κ Unit
  endOp : Nat → Prog Halt κ Unit
  alloc : Option Nat → Prog Halt κ Nat
  free : Option Nat → Nat → Prog Halt κ Unit
  data : Nat → Prog Halt κ Data
  setData : Nat → (Data → Data) → Prog Halt κ Unit

/-- The block cache of `fs/cache.c`. -/
def bcache (sb : SuperBlock) : BlockCache Cache where
  acquire := cacheAcquire
  release := cacheRelease
  beginOp := cacheBeginOp
  sync := cacheSync
  endOp := fun _ => cacheEndOp sb
  alloc := cacheAlloc sb
  free := cacheFree sb
  data := fun blk => do
    let s ← get
    return (s.heap blk).data
  setData := fun blk f => withBlock blk fun b => { b with data := f b.data }

/-- The static variables `sblock` and `cache` of `fs/inode.c`. -/
structure FsEnv (κ : Type) where
  sb : SuperBlock
  cache : BlockCache κ

/-- The arguments that the kernel passes to `init_inodes`. -/
def FsEnv.kernel (sb : SuperBlock) : FsEnv Cache := ⟨sb, bcache sb⟩

/-- The cache, the in-memory inodes, their list from `head.next` on, and the working
directory of the process. -/
structure Fs (κ : Type) where
  cache : κ
  inodes : Nat → Inode
  inodeHead : List Nat
  inodeBrk : Nat
  cwd : Nat
  junk : Nat → Nat → UInt8
  loads : List (κ × Nat)

abbrev FsM (κ : Type) := Prog Halt (Fs κ)

variable {κ : Type}

def onCache {α : Type} (x : Prog Halt κ α) : FsM κ α :=
  Prog.zoom Fs.cache (fun c s => { s with cache := c }) x

theorem exec_onCache {α : Type} {x : Prog Halt κ α} {s : Fs κ} {r : Except Halt α} {c : κ}
    (h : x.exec s.cache = (r, c)) : (onCache x).exec s = (r, { s with cache := c }) := by
  rw [onCache, Prog.exec_zoom, h]

theorem exec_onCache_ok {α : Type} {x : Prog Halt κ α} {s s' : Fs κ} {a : α}
    (h : (onCache x).exec s = (.ok a, s')) : x.exec s.cache = (.ok a, s'.cache) := by
  obtain ⟨hr, rfl⟩ := Prod.mk.inj h
  exact Prod.ext hr rfl

variable (env : FsEnv κ)

/-- `cache->acquire(b)`. -/
def acquire (b : Nat) : FsM κ Nat := onCache (env.cache.acquire (usize b))

/-- `cache->release(blk)`. -/
def release (blk : Nat) : FsM κ Unit := onCache (env.cache.release blk)

/-- `cache->sync(ctx, blk)`. -/
def sync (ctx : Option Nat) (blk : Nat) : FsM κ Unit :=
  onCache (env.cache.sync ctx blk)

/-- The bytes of a block that the caller holds. -/
def blockData (blk : Nat) : FsM κ Data := onCache (env.cache.data blk)

/-- Change the bytes of a block that the caller holds. -/
def setBlockData (blk : Nat) (f : Data → Data) : FsM κ Unit :=
  onCache (env.cache.setData blk f)

/-! On the cache of the kernel: -/

@[simp] theorem FsEnv.sb_kernel (sb : SuperBlock) : (FsEnv.kernel sb).sb = sb := rfl

theorem acquire_kernel (sb : SuperBlock) (b : Nat) :
    acquire (.kernel sb) b = onCache (cacheAcquire (usize b)) := rfl

theorem release_kernel (sb : SuperBlock) (blk : Nat) :
    release (.kernel sb) blk = onCache (cacheRelease blk) := rfl

theorem setBlockData_kernel (sb : SuperBlock) (blk : Nat) (f : Data → Data) :
    setBlockData (.kernel sb) blk f =
      onCache (withBlock blk fun b => { b with data := f b.data }) := rfl

def getInode (ip : Nat) : FsM κ Inode := do
  let s ← get
  return s.inodes ip

theorem exec_getInode (ip : Nat) (s : Fs κ) : (getInode ip).exec s = (.ok (s.inodes ip), s) := rfl

def setInode (ip : Nat) (f : Inode → Inode) : FsM κ Unit :=
  modify fun s => { s with inodes := Function.update s.inodes ip (f (s.inodes ip)) }

def setEntry (ip : Nat) (f : InodeEntry → InodeEntry) : FsM κ Unit :=
  setInode ip fun i => { i with entry := f i.entry }

def assert (c : Prop) [Decidable c] : FsM κ Unit := if c then pure () else throw .panic

theorem exec_assert {c : Prop} [Decidable c] (hc : c) (s : Fs κ) :
    (assert c).exec s = (.ok (), s) := by
  rw [assert, if_pos hc]
  rfl

/-- An uninitialised local variable. -/
def uninit : FsM κ (Nat → UInt8) := do
  let s ← get
  set { s with junk := fun i => s.junk (i + 1) }
  return s.junk 0

/-! ## Locks -/

/-- `acquire_sleeplock(&inode->lock)`, and `unalertable_wait_sem` on it. -/
def lockInode (ip : Nat) : FsM κ Unit := do
  let i ← getInode ip
  match i.lock.waitSem 0 with
  | (sem, true) => setInode ip fun i => { i with lock := sem }
  | (sem, false) =>
    setInode ip fun i => { i with lock := sem }
    throw .blocked

/-- `post_sem(&inode->lock)`. -/
def postInode (ip : Nat) : FsM κ Unit := do
  let i ← getInode ip
  match i.lock.postSem with
  | none => throw .panic
  | some (sem, _) => setInode ip fun i => { i with lock := sem }

def inodeLock (ip : Nat) : FsM κ Unit := do
  let i ← getInode ip
  assert (0 < i.rc)
  lockInode ip
  let i ← getInode ip
  if i.valid then return ()
  else
    let block ← acquire env (env.sb.toBlockNo i.inodeNo)
    let d ← blockData env block
    setEntry ip fun _ => .ofBlock d i.inodeNo
    release env block
    setInode ip fun i => { i with valid := true }

def inodeUnlock (ip : Nat) : FsM κ Unit := do
  let i ← getInode ip
  assert (0 < i.rc)
  postInode ip

/-! ## Inodes -/

/-- The loop of `inode_alloc` for the inode numbers in the list.  What it changes it
does not sync. -/
def inodeAllocFrom (env : FsEnv κ) (type : Nat) : List Nat → FsM κ Nat
  | [] => throw .panic
  | no :: rest => do
    let block ← acquire env (env.sb.toBlockNo no)
    let d ← blockData env block
    if (InodeEntry.ofBlock d no).type = INODE_INVALID then
      setBlockData env block fun d => InodeEntry.intoBlock (InodeEntry.setType Bytes.zero type) d no
      release env block
      return no
    else
      release env block
      inodeAllocFrom env type rest

def inodeAlloc (type : Nat) : FsM κ Nat := do
  assert (type ≠ INODE_INVALID)
  inodeAllocFrom env type ((List.range (env.sb.numInodes - 1)).map (· + 1))

/-- The two copies of `inode_sync`, with the inode block at `block`. -/
def copyEntry (ip block : Nat) (doWrite : Bool) : FsM κ Unit := do
  let i ← getInode ip
  if doWrite then setBlockData env block fun d => i.entry.intoBlock d i.inodeNo
  else
    let d ← blockData env block
    setInode ip fun i => { i with entry := .ofBlock d i.inodeNo, valid := true }

def inodeSync (ctx : Option Nat) (ip : Nat) (doWrite : Bool) : FsM κ Unit := do
  let i ← getInode ip
  assert (i.inodeNo < env.sb.numInodes)
  let block ← acquire env (env.sb.toBlockNo i.inodeNo)
  copyEntry env ip block doWrite
  sync env ctx block
  release env block

def inodeGet (no : Nat) : FsM κ Nat := do
  assert (0 < no)
  assert (no < env.sb.numInodes)
  let s ← get
  match s.inodeHead.find? fun ip => (s.inodes ip).inodeNo = no with
  | some ip =>
    setInode ip fun i => { i with rc := i.rc + 1 }
    return ip
  | none =>
    let fresh := s.inodeBrk
    set { s with
      inodes := Function.update s.inodes fresh { initInode with inodeNo := no, rc := 1 }
      inodeHead := fresh :: s.inodeHead
      inodeBrk := fresh + 1
      loads := s.loads ++ [(s.cache, usize (env.sb.toBlockNo no))] }
    inodeSync env none fresh false
    return fresh

/-- `init_inodes`, up to the assignment of `inodes.root`. -/
def initInodes : FsM κ (Option Nat) := do
  modify fun s => { s with inodeHead := [] }
  if ROOT_INODE_NO < env.sb.numInodes then
    let root ← inodeGet env ROOT_INODE_NO
    return some root
  else return none

/-- A turn of the first loop of `inode_clear`. -/
def clearDirect (ctx : Option Nat) (ip i : Nat) : FsM κ Unit := do
  let e ← getInode ip
  if e.entry.addr i ≠ 0 then
    onCache (env.cache.free ctx (e.entry.addr i))
    setEntry ip fun e => e.setAddr i 0

/-- A turn of the second loop of `inode_clear`, on the indirect block `ib`. -/
def clearIndirect (ctx : Option Nat) (ib i : Nat) : FsM κ Unit := do
  let d ← blockData env ib
  if indirectAddr d i ≠ 0 then
    onCache (env.cache.free ctx (indirectAddr d i))
    setBlockData env ib fun d => setIndirectAddr d i 0

/-- The second part of `inode_clear`. -/
def clearIndirects (ctx : Option Nat) (ip : Nat) : FsM κ Unit := do
  let i ← getInode ip
  if i.entry.indirect ≠ 0 then
    let ib ← acquire env i.entry.indirect
    (List.range INODE_NUM_INDIRECT).forM (clearIndirect env ctx ib)
    release env ib
    onCache (env.cache.free ctx i.entry.indirect)
    setEntry ip fun e => e.setIndirect 0

def inodeClear (ctx : Option Nat) (ip : Nat) : FsM κ Unit := do
  (List.range INODE_NUM_DIRECT).forM (clearDirect env ctx ip)
  clearIndirects env ctx ip
  setEntry ip fun e => e.setNumBytes 0
  inodeSync env ctx ip true

def inodeShare (ip : Nat) : FsM κ Nat := do
  setInode ip fun i => { i with rc := i.rc + 1 }
  return ip

def inodePut (ctx : Option Nat) (ip : Nat) : FsM κ Unit := do
  lockInode ip
  setInode ip fun i => { i with rc := i.rc - 1 }
  let i ← getInode ip
  if i.rc = 0 ∧ i.entry.numLinks = 0 then
    setEntry ip fun e => e.setType INODE_INVALID
    inodeClear env ctx ip
    inodeSync env ctx ip true
    modify fun s => { s with inodeHead := s.inodeHead.erase ip }
    postInode ip
  else postInode ip

/-! ## Contents -/

/-- `inode_map` for entry `idx` of the indirect block. -/
def mapIndirect (ctx : Option Nat) (ip idx : Nat) : FsM κ Nat := do
  let i ← getInode ip
  let indBlk ← acquire env i.entry.indirect
  if idx < INODE_NUM_INDIRECT then
    let d ← blockData env indBlk
    if indirectAddr d idx = 0 ∧ ctx ≠ none then
      let blkNo ← onCache (env.cache.alloc ctx)
      setBlockData env indBlk fun d => setIndirectAddr d idx blkNo
      sync env ctx indBlk
      release env indBlk
      return blkNo
    else
      release env indBlk
      return indirectAddr d idx
  else throw .outOfBounds

/-- `inode_map`.  Its output `modified` is read by no caller. -/
def inodeMap (ctx : Option Nat) (ip offset : Nat) : FsM κ Nat := do
  let i ← getInode ip
  if offset / BLOCK_SIZE < INODE_NUM_DIRECT then
    if i.entry.addr (offset / BLOCK_SIZE) = 0 ∧ ctx ≠ none then
      let blkNo ← onCache (env.cache.alloc ctx)
      setEntry ip fun e => e.setAddr (offset / BLOCK_SIZE) blkNo
      inodeSync env ctx ip true
      return blkNo
    else return i.entry.addr (offset / BLOCK_SIZE)
  else if i.entry.indirect = 0 then
    if ctx = none then return 0
    else
      let blkNo ← onCache (env.cache.alloc ctx)
      setEntry ip fun e => e.setIndirect blkNo
      let i ← getInode ip
      let indBlk ← acquire env i.entry.indirect
      setBlockData env indBlk fun _ => Bytes.zero
      sync env ctx indBlk
      release env indBlk
      mapIndirect env ctx ip (offset / BLOCK_SIZE - INODE_NUM_DIRECT)
  else mapIndirect env ctx ip (offset / BLOCK_SIZE - INODE_NUM_DIRECT)

/-- `console_read` of `n` bytes without input. -/
def consoleRead (ip n : Nat) : FsM κ Nat := do
  inodeUnlock ip
  if 0 < n then throw .blocked
  else
    inodeLock env ip
    return 0

/-- `console_write`: what it prints is not part of the file system. -/
def consoleWrite (ip n : Nat) : FsM κ Nat := do
  inodeUnlock ip
  inodeLock env ip
  return n

/-- The loop of `inode_read` with `dest` filled up to `readBytes`.  Every turn copies a
byte or more, which bounds the number of turns by `count`. -/
def readLoop (env : FsEnv κ) (ip offset count : Nat) :
    Nat → (Nat → UInt8) → Nat → FsM κ ((Nat → UInt8) × Nat)
  | 0, dest, readBytes => return (dest, readBytes)
  | fuel + 1, dest, readBytes =>
    if readBytes < count then do
      let blkNo ← inodeMap env none ip (offset + readBytes)
      if blkNo = 0 then return (dest, readBytes)
      else
        let blk ← acquire env blkNo
        let d ← blockData env blk
        let blockOffset := (offset + readBytes) % BLOCK_SIZE
        let toCopy := min (BLOCK_SIZE - blockOffset) (count - readBytes)
        release env blk
        readLoop env ip offset count fuel
          (memcpy dest readBytes toCopy fun i => d.get (blockOffset + i)) (readBytes + toCopy)
    else return (dest, readBytes)

/-- `inode_read`: what it leaves in `dest`, and its result. -/
def inodeRead (ip : Nat) (dest : Nat → UInt8) (offset count : Nat) :
    FsM κ ((Nat → UInt8) × Nat) := do
  let i ← getInode ip
  if i.entry.type = INODE_DEVICE then
    let n ← consoleRead env ip count
    return (dest, n)
  else
    let numBytes := i.entry.numBytes
    let count := if numBytes < usize (count + offset) then usizeSub numBytes offset else count
    assert (offset ≤ numBytes)
    assert (usize (offset + count) ≤ numBytes)
    assert (offset ≤ usize (offset + count))
    readLoop env ip offset count count dest 0

/-- The loop of `inode_write` with `written` bytes done. -/
def writeLoop (env : FsEnv κ) (ctx : Option Nat) (ip : Nat) (src : Nat → UInt8)
    (offset count : Nat) : Nat → Nat → FsM κ Nat
  | 0, written => return written
  | fuel + 1, written =>
    if written < count then do
      let blkNo ← inodeMap env ctx ip (offset + written)
      assert (blkNo ≠ 0)
      let blk ← acquire env blkNo
      let blockOffset := (offset + written) % BLOCK_SIZE
      let toCopy := min (BLOCK_SIZE - blockOffset) (count - written)
      setBlockData env blk fun d => d.splice blockOffset toCopy fun i => src (written + i)
      sync env ctx blk
      release env blk
      writeLoop env ctx ip src offset count fuel (written + toCopy)
    else return written

def inodeWrite (ctx : Option Nat) (ip : Nat) (src : Nat → UInt8)
    (offset count : Nat) : FsM κ Nat := do
  let i ← getInode ip
  if i.entry.type = INODE_DEVICE then consoleWrite env ip count
  else
    assert (offset ≤ i.entry.numBytes)
    assert (usize (offset + count) ≤ INODE_MAX_BYTES)
    assert (offset ≤ usize (offset + count))
    let written ← writeLoop env ctx ip src offset count count 0
    let i ← getInode ip
    if i.entry.numBytes < offset + written then
      setEntry ip fun e => e.setNumBytes (offset + written)
      inodeSync env ctx ip true
      return written
    else return written

/-! ## Directories -/

/-- The loop of `inode_lookup` for the offsets in the list. -/
def lookupFrom (env : FsEnv κ) (ip : Nat) (name : Nat → UInt8) :
    List Nat → FsM κ (Option (Nat × Nat))
  | [] => return none
  | i :: rest => do
    let dirEntry ← uninit
    let (dirEntry, _) ← inodeRead env ip dirEntry i DIR_ENTRY_BYTES
    let de : DirEntry := fun k => dirEntry k
    if de.inodeNo ≠ 0 ∧ strncmp name de.name FILE_NAME_MAX_LENGTH = 0 then
      return some (de.inodeNo, i)
    else lookupFrom env ip name rest

/-- `inode_lookup`: the inode number, which is not `0`, and the index. -/
def inodeLookup (ip : Nat) (name : Nat → UInt8) : FsM κ (Option (Nat × Nat)) := do
  let i ← getInode ip
  assert (i.entry.type = INODE_DIRECTORY)
  lookupFrom env ip name
    ((List.range ((i.entry.numBytes + (DIR_ENTRY_BYTES - 1)) / DIR_ENTRY_BYTES)).map
      (DIR_ENTRY_BYTES * ·))

/-- The entry that `inode_insert` builds. -/
def DirEntry.new (name : Nat → UInt8) (no : Nat) : DirEntry :=
  ((Bytes.writeLE Bytes.zero 0 2 no).splice 2 FILE_NAME_MAX_LENGTH (strncpy name)).splice 15 1
    fun _ => 0

def inodeInsert (ctx : Option Nat) (ip : Nat) (name : Nat → UInt8) (no : Nat) :
    FsM κ Nat := do
  let i ← getInode ip
  assert (i.entry.type = INODE_DIRECTORY)
  let found ← inodeLookup env ip name
  match found with
  | some (_, existingIndex) => return existingIndex
  | none =>
    let i ← getInode ip
    let index := i.entry.numBytes / DIR_ENTRY_BYTES
    let blockNo ← inodeMap env ctx ip (index * DIR_ENTRY_BYTES)
    assert (blockNo ≠ 0)
    let blk ← acquire env blockNo
    setBlockData env blk fun d =>
      d.splice (index * DIR_ENTRY_BYTES % BLOCK_SIZE) DIR_ENTRY_BYTES (DirEntry.new name no).get
    sync env ctx blk
    release env blk
    setEntry ip fun e => e.setNumBytes (e.numBytes + DIR_ENTRY_BYTES)
    inodeSync env ctx ip true
    return index

def inodeRemove (ctx : Option Nat) (ip index : Nat) : FsM κ Unit := do
  let curr ← uninit
  let (curr, _) ← inodeRead env ip curr index DIR_ENTRY_BYTES
  -- `curr.inode_no = 0`
  let curr := memcpy curr 0 2 fun _ => 0
  let _ ← inodeWrite env ctx ip curr index DIR_ENTRY_BYTES
  return ()

/-! ## Paths

A path is the characters before its `NUL`. -/

/-- `*path`. -/
def deref (path : List UInt8) : UInt8 := path.headD 0

def SLASH : UInt8 := 47

/-- `skipelem`: the rest of the path, and `name` with the element in it. -/
def skipelem (path : List UInt8) (name : Nat → UInt8) : Option (List UInt8 × (Nat → UInt8)) :=
  let path := path.dropWhile (· == SLASH)
  if deref path = 0 then none
  else
    let elem := path.takeWhile fun c => c != SLASH && c != 0
    let rest := path.dropWhile fun c => c != SLASH && c != 0
    let name :=
      if FILE_NAME_MAX_LENGTH ≤ elem.length then memcpy name 0 FILE_NAME_MAX_LENGTH (cstr elem)
      else memcpy name 0 (elem.length + 1) (cstr elem)
    some (rest.dropWhile (· == SLASH), name)

theorem length_of_skipelem {path rest : List UInt8} {name name' : Nat → UInt8}
    (h : skipelem path name = some (rest, name')) : rest.length < path.length := by
  unfold skipelem at h
  dsimp only at h
  split at h
  next => cases h
  next hne =>
    cases h
    have hle := (List.dropWhile_sublist (· == SLASH) (l := path)).length_le
    -- the element starts with a character that is neither a slash nor the end
    rcases hp : path.dropWhile (· == SLASH) with _ | ⟨c, t⟩
    · rw [hp] at hne
      exact absurd rfl hne
    rw [hp] at hne hle
    have hc : c ≠ SLASH := by
      have := List.head_dropWhile_not (· == SLASH) (l := path) (by rw [hp]; simp)
      simpa [hp] using this
    have hnul : c ≠ 0 := hne
    have hdrop : (c :: t).dropWhile (fun c => c != SLASH && c != 0) =
        t.dropWhile fun c => c != SLASH && c != 0 :=
      List.dropWhile_cons_of_pos (by simp [hc, hnul])
    rw [hdrop]
    calc (List.dropWhile (· == SLASH) (t.dropWhile fun c => c != SLASH && c != 0)).length
        ≤ (t.dropWhile fun c => c != SLASH && c != 0).length :=
          (List.dropWhile_sublist _).length_le
      _ ≤ t.length := (List.dropWhile_sublist _).length_le
      _ < path.length := hle

/-- Where `namex` starts. -/
def startInode (path : List UInt8) : FsM κ Nat := do
  if deref path = SLASH then inodeGet env ROOT_INODE_NO
  else
    let s ← get
    inodeShare s.cwd

/-- The loop of `namex` and what follows it.  Every element makes the rest of the path
shorter (`length_of_skipelem`), which bounds the number of turns. -/
def namexLoop (env : FsEnv κ) (ctx : Option Nat) (parent : Bool) :
    Nat → Nat → List UInt8 → (Nat → UInt8) → FsM κ (Option (Nat × (Nat → UInt8)))
  | 0, _, _, _ => return none
  | fuel + 1, current, cursor, name =>
    match skipelem cursor name with
    | none => do
      if parent then
        inodePut env ctx current
        return none
      else return some (current, name)
    | some (cursor, name) => do
      inodeLock env current
      let i ← getInode current
      if i.entry.type ≠ INODE_DIRECTORY then
        inodeUnlock current
        inodePut env ctx current
        return none
      else if parent ∧ deref cursor = 0 then
        inodeUnlock current
        return some (current, name)
      else
        let found ← inodeLookup env current name
        match found with
        | none =>
          inodeUnlock current
          inodePut env ctx current
          return none
        | some (next, _) =>
          inodeUnlock current
          inodePut env ctx current
          let current ← inodeGet env next
          namexLoop env ctx parent fuel current cursor name

/-- `namex`: the inode and the buffer `name`. -/
def namex (path : List UInt8) (parent : Bool) (name : Nat → UInt8)
    (ctx : Option Nat) : FsM κ (Option (Nat × (Nat → UInt8))) := do
  let current ← startInode env path
  namexLoop env ctx parent (path.length + 1) current path name

def namei (path : List UInt8) (ctx : Option Nat) : FsM κ (Option Nat) := do
  let name ← uninit
  let r ← namex env path false name ctx
  return r.map Prod.fst

def nameiparent (path : List UInt8) (name : Nat → UInt8) (ctx : Option Nat) :
    FsM κ (Option (Nat × (Nat → UInt8))) := namex env path true name ctx

end OsKernel
