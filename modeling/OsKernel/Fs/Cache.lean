import OsKernel.Lib.Prog
import OsKernel.Fs.Log
import OsKernel.Fs.BlockList

/-!
# The block cache, one caller

`fs/cache.c` as one thread of control runs it, over a device with block-atomic,
in-order writes.  A wait that nothing can end stops the program (`blocked`), as
does a failed assertion (`panic`).  `kalloc` succeeds and never returns the
address of a cached `Block`; `brk` is the next address it gives out.

`writes` records the device writes in order, `commits` how many there were at the
end of each checkpoint, and `syncs` the blocks synced with a context.
-/

namespace OsKernel

open Function

inductive Halt where
  | panic
  | blocked
  /-- An access past the end of an array, which C leaves undefined. -/
  | outOfBounds
deriving DecidableEq, Repr

structure Cache extends BlockList where
  brk : Nat
  header : LogHeader
  log : Log
  ctxs : Nat → OpContext
  disk : Nat → Data
  writes : List (Nat × Data)
  commits : List Nat
  syncs : List Nat

/-- Memory at power on, in front of the device `d`. -/
def powerOn (d : Nat → Data) : Cache where
  heap := fun _ => initBlock
  head := []
  numCachedBlocks := 0
  brk := 0
  header := ⟨0, fun _ => 0⟩
  log := .init
  ctxs := fun _ => ⟨0, 0⟩
  disk := d
  writes := []
  commits := []
  syncs := []

abbrev CacheM := Prog Halt Cache

namespace Cache

/-- `device->write(b, d)`. -/
def deviceWrite (s : Cache) (b : Nat) (d : Data) : Cache :=
  { s with disk := update s.disk b d, writes := s.writes ++ [(b, d)] }

/-- The contents of a block as a caller sees them. -/
def contents (s : Cache) (b : Nat) : Data :=
  match s.findCachedBlock b with
  | some a => (s.heap a).data
  | none => s.disk b

/-- Change the `Block` at an address. -/
def onBlock (s : Cache) (a : Nat) (f : Block → Block) : Cache :=
  { s with toBlockList := s.toBlockList.update a f }

end Cache

def withBlock (a : Nat) (f : Block → Block) : CacheM Unit := modify fun s => s.onBlock a f

variable (sb : SuperBlock)

def writeHeader : CacheM Unit :=
  modify fun s => s.deviceWrite sb.logStart s.header.toData

/-- `acquire_sleeplock(&blk->lock)`.  With one caller nobody else posts. -/
def acquireSleeplock (a : Nat) : CacheM Unit := do
  let s ← get
  match (s.heap a).lock.waitSem 0 with
  | (sem, true) => withBlock a fun blk => { blk with lock := sem }
  | (sem, false) =>
    withBlock a fun blk => { blk with lock := sem }
    throw .blocked

/-- `device_read(blk); blk->valid = true`. -/
def readBlock (a : Nat) : CacheM Unit :=
  modify fun s => s.onBlock a fun blk => { blk with data := s.disk blk.blockNo, valid := true }

def cacheAcquire (b : Nat) : CacheM Nat := do
  let s ← get
  match s.findCachedBlock b with
  | some a =>
    set { s with toBlockList := s.toBlockList.hit a }
    acquireSleeplock a
    let s ← get
    if !(s.heap a).valid then readBlock a
    return a
  | none =>
    let a := s.brk
    set { s with toBlockList := s.toBlockList.insertNew a b, brk := s.brk + 1 }
    acquireSleeplock a
    readBlock a
    return a

def cacheRelease (a : Nat) : CacheM Unit := do
  let s ← get
  match s.toBlockList.release a with
  | none => throw .panic
  | some (l, _) => set { s with toBlockList := l }

/-- The loop of `cache_begin_op` tests a condition that a single caller cannot
change: a token of `op_sem` only makes it test again. -/
def cacheBeginOp (c : Nat) : CacheM Unit := do
  let s ← get
  if s.log.mustWait s.header then throw .blocked
  else set { s with log := s.log.beginOp.1, ctxs := update s.ctxs c s.log.beginOp.2 }

/-- `cache_sync(ctx, block)`, with `none` for a `NULL` context. -/
def cacheSync (ctx : Option Nat) (a : Nat) : CacheM Unit := do
  match ctx with
  | none => modify fun s => s.deviceWrite (s.heap a).blockNo (s.heap a).data
  | some c =>
    withBlock a fun blk => { blk with pinned := true }
    let s ← get
    match syncLog s.header (s.ctxs c) (s.heap a).blockNo with
    | none => throw .panic
    | some (h, ctx) =>
      set { s with
        header := h
        ctxs := update s.ctxs c ctx
        syncs := s.syncs ++ [(s.heap a).blockNo] }

/-- Acquire two blocks, copy the first over the second, write the second to the
device and release both: the body of the first loop of `do_checkpoint` and of the
loop of `init_bcache`. -/
def copyBlock (src dst : Nat) : CacheM Unit := do
  let srcBlk ← cacheAcquire src
  let dstBlk ← cacheAcquire dst
  let s ← get
  withBlock dstBlk fun blk => { blk with data := (s.heap srcBlk).data }
  cacheSync none dstBlk
  cacheRelease srcBlk
  cacheRelease dstBlk

/-- A turn of the first loop of `do_checkpoint`. -/
def ckptSlot (idx : Nat) : CacheM Unit := do
  let s ← get
  copyBlock (s.header.blockNo idx) (sb.logStart + 1 + idx)

/-- A turn of the second loop of `do_checkpoint`. -/
def ckptHome (i : Nat) : CacheM Unit := do
  let s ← get
  let blk ← cacheAcquire (s.header.blockNo i)
  cacheSync none blk
  withBlock blk fun blk => { blk with pinned := false }
  cacheRelease blk

/-- `post_all_sem(&log.op_sem)`. -/
def postAllOps : CacheM Unit := do
  let s ← get
  match s.log.opSem.postAllSem with
  | none => throw .panic
  | some (sem, _) => set { s with log := { s.log with opSem := sem } }

def doCheckpoint : CacheM Unit := do
  modify fun s => { s with log := { s.log with checkpointing := true } }
  let s ← get
  (List.range s.header.numBlocks).forM (ckptSlot sb)
  writeHeader sb
  let s ← get
  (List.range s.header.numBlocks).forM ckptHome
  modify fun s => { s with header := s.header.clear }
  writeHeader sb
  modify fun s => { s with
    log := { s.log with checkpointing := false }
    commits := s.commits ++ [s.writes.length] }
  postAllOps

def cacheEndOp : CacheM Unit := do
  let s ← get
  if s.log.checkpointing then throw .panic
  set { s with log := { s.log with runningOps := s.log.runningOps - 1 } }
  if s.log.runningOps - 1 = 0 then doCheckpoint sb
  else
    match s.log.opSem.postSem with
    | none => throw .panic
    | some (sem, _) => modify fun s => { s with log := { s.log with opSem := sem } }

/-- The outer loop of `cache_alloc` from the bitmap block of block `start` on, for
the values of `start` in the list. -/
def allocFrom (sb : SuperBlock) (c : Nat) : List Nat → CacheM Nat
  | [] => throw .panic
  | start :: rest => do
    let bitmap ← cacheAcquire (usize (sb.bitmapStart + start / BIT_PER_BLOCK))
    let s ← get
    let limit := min (start + BIT_PER_BLOCK) sb.numBlocks
    match Bitmap.firstClear (s.heap bitmap).data (limit - start) with
    | some i =>
      withBlock bitmap fun blk => { blk with data := Bitmap.setBit blk.data i }
      cacheSync (some c) bitmap
      cacheRelease bitmap
      let newBlk ← cacheAcquire (usize (start + i))
      withBlock newBlk fun blk => { blk with data := Bytes.zero }
      cacheSync (some c) newBlk
      cacheRelease newBlk
      return start + i
    | none =>
      cacheRelease bitmap
      allocFrom sb c rest

def cacheAlloc (ctx : Option Nat) : CacheM Nat :=
  match ctx with
  | none => throw .panic
  | some c =>
    allocFrom sb c ((List.range ((sb.numBlocks + (BIT_PER_BLOCK - 1)) / BIT_PER_BLOCK)).map
      (BIT_PER_BLOCK * ·))

def cacheFree (ctx : Option Nat) (b : Nat) : CacheM Unit :=
  match ctx with
  | none => throw .panic
  | some c => do
    let mapBlk ← cacheAcquire (usize (sb.bitmapStart + b / BIT_PER_BLOCK))
    withBlock mapBlk fun blk => { blk with data := Bitmap.clearBit blk.data (b % BIT_PER_BLOCK) }
    cacheSync (some c) mapBlk
    cacheRelease mapBlk

/-- A turn of the loop of `init_bcache`. -/
def recoverSlot (i : Nat) : CacheM Unit := do
  let s ← get
  copyBlock (sb.logStart + 1 + i) (s.header.blockNo i)

/-- The assignments of `init_bcache` and its `read_header`. -/
def rebooted (s : Cache) : Cache :=
  { s with
    head := []
    numCachedBlocks := 0
    log := .init
    header := .ofData (s.disk sb.logStart) }

def initBcache : CacheM Unit := do
  modify (rebooted sb)
  let s ← get
  if s.header.numBlocks = 0 then return ()
  (List.range s.header.numBlocks).forM (recoverSlot sb)
  modify fun s => { s with header := ⟨0, fun _ => 0⟩ }
  writeHeader sb

end OsKernel
