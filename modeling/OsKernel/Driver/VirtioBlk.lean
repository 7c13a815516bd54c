import OsKernel.Fs.BlockList
import OsKernel.Lib.RingBuffer
import OsKernel.Lib.Runs

/-!
# The disk driver

`driver/virtio_blk.c`, and `sd_read` and `sd_write` of `fs/block_device.c` as the block cache calls
them.  The steps are the stretches of code under the lock of the disk (submission of a request,
interrupt, return of its descriptors), those of `wait_sem` under the lock of the semaphore, and the
steps of the device, which takes requests from the ring of available ones and completes them in any
order.

A process is in at most one call, and its `Buf` and header are on its stack.  A pointer to either is
therefore the number of the process.  When the process is not waiting any more, a write through such
a pointer goes to a part of its stack that nothing here reads.
-/

namespace OsKernel

open Function

def NQUEUE : Nat := 8

def VIRTQ_DESC_F_NEXT : Nat := 1

def VIRTQ_DESC_F_WRITE : Nat := 2

/-- The range of the ring counters, which are of type `u16`. -/
def IDX_RANGE : Nat := 2 ^ 16

/-- What a descriptor points to. -/
inductive DmaAddr where
  | null
  /-- The header of the request of a process. -/
  | hdr (p : Nat)
  /-- The data of the `Buf` of a process. -/
  | data (p : Nat)
  /-- The byte `info[d].status`. -/
  | status (d : Nat)
deriving DecidableEq

structure VirtqDesc where
  addr : DmaAddr
  len : Nat
  flags : Nat
  next : Nat

namespace VirtqDesc

def zero : VirtqDesc := ⟨.null, 0, 0, 0⟩

def hasNext (d : VirtqDesc) : Bool := d.flags &&& VIRTQ_DESC_F_NEXT ≠ 0

end VirtqDesc

/-- An element of `info`; `buf` is the process whose `Buf` it points into. -/
structure VirtqInfo where
  status : Nat
  done : Nat
  buf : Option Nat

/-- `struct virtq`.  In the ring `avail` the device reads and the driver writes, in `used` it is the
other way round; `last_used_idx` is `used.nread`. -/
structure Virtq where
  desc : Nat → VirtqDesc
  avail : RingBuffer Nat
  used : RingBuffer Nat
  freeHead : Nat
  nfree : Nat
  info : Nat → VirtqInfo

namespace Virtq

variable (vq : Virtq)

def setDesc (d : Nat) (x : VirtqDesc) : Virtq := { vq with desc := update vq.desc d x }

def setInfo (d : Nat) (x : VirtqInfo) : Virtq := { vq with info := update vq.info d x }

def descInit (i : Nat) : VirtqDesc :=
  if i < NQUEUE - 1 then { VirtqDesc.zero with flags := VIRTQ_DESC_F_NEXT, next := i + 1 } else .zero

/-- `virtq_init`. -/
def init : Virtq :=
  ⟨descInit, ⟨fun _ => 0, 0, 0⟩, ⟨fun _ => 0, 0, 0⟩, 0, NQUEUE, fun _ => ⟨0, 0, none⟩⟩

def allocDesc : Except Runs.Stop (Nat × Virtq) :=
  if vq.nfree = 0 then .error .panic
  else
    let d := vq.freeHead
    .ok (d, { vq with
      freeHead := if (vq.desc d).hasNext then (vq.desc d).next else vq.freeHead
      nfree := vq.nfree - 1 })

/-- The loop of `free_desc`: the last descriptor of the chain. -/
def freeWalk : Nat → Nat → Virtq → Option (Nat × Virtq)
  | 0, _, _ => none
  | fuel + 1, n, vq =>
    let vq := { vq with nfree := vq.nfree + 1 }
    if (vq.desc n).hasNext then freeWalk fuel (vq.desc n).next vq else some (n, vq)

def freeDesc (n : Nat) : Option Virtq :=
  match freeWalk NQUEUE n vq with
  | none => none
  | some (last, vq') =>
    let d := vq'.desc last
    let d := { d with
      flags := VIRTQ_DESC_F_NEXT
      next := if vq.nfree = 0 then d.next else vq.freeHead }
    some { vq'.setDesc last d with freeHead := n }

def setHdr (p d0 : Nat) : Virtq :=
  vq.setDesc d0 { vq.desc d0 with addr := .hdr p, len := 16, flags := VIRTQ_DESC_F_NEXT }

/-- The descriptor of the data, after that of the header; the device writes to it when it reads the
disk. -/
def setData (p d0 d1 : Nat) (dirty : Bool) : Virtq :=
  let vq := vq.setDesc d0 { vq.desc d0 with next := d1 }
  vq.setDesc d1 { vq.desc d1 with
    addr := .data p
    len := 512
    flags := if dirty then VIRTQ_DESC_F_NEXT else VIRTQ_DESC_F_NEXT ||| VIRTQ_DESC_F_WRITE }

/-- The descriptor of the status, after that of the data. -/
def setStatus (d0 d1 d2 : Nat) : Virtq :=
  let vq := vq.setDesc d1 { vq.desc d1 with next := d2 }
  vq.setDesc d2 ⟨.status d0, 1, VIRTQ_DESC_F_WRITE, 0⟩

/-- The request becomes available to the device. -/
def publish (p d0 : Nat) : Virtq :=
  let vq := { vq with avail := vq.avail.push NQUEUE IDX_RANGE d0 }
  vq.setInfo d0 { vq.info d0 with buf := some p }

/-- The part of `virtio_blk_rw` under the lock, up to the notification: the request of process `p`,
and its first descriptor. -/
def submit (p : Nat) (dirty : Bool) : Except Runs.Stop (Nat × Virtq) :=
  match vq.allocDesc with
  | .error e => .error e
  | .ok (d0, vq) =>
    match (vq.setHdr p d0).allocDesc with
    | .error e => .error e
    | .ok (d1, vq) =>
      match (vq.setData p d0 d1 dirty).allocDesc with
      | .error e => .error e
      | .ok (d2, vq) => .ok (d0, (vq.setStatus d0 d1 d2).publish p d0)

end Virtq

/-! ## Processes -/

/-- `Buf`; `dirty` is the flag `B_DIRTY`. -/
structure Buf where
  dirty : Bool
  data : Data
  blockNo : Nat
  sem : Semaphore

def BLOCKNO_OFFSET : Nat := 0x20800

/-- The sector of a block: `(u32)block_no + BLOCKNO_OFFSET`. -/
def sectorOf (blockNo : Nat) : Nat := (blockNo % 2 ^ 32 + BLOCKNO_OFFSET) % 2 ^ 32

inductive DiskPc where
  | idle
  /-- The request is submitted and the lock released. -/
  | submitted
  /-- In `wait_sem`; `up` says that the process has been posted. -/
  | asleep (up : Bool)
  /-- `wait_sem` has returned `true`. -/
  | woken
  /-- `virtio_blk_rw` has returned. -/
  | returned
deriving DecidableEq

structure DiskProc where
  pc : DiskPc
  buf : Buf
  /-- The first descriptor of the request. -/
  d0 : Nat
  /-- The block of the cache that is read or written. -/
  block : Nat
  killed : Bool
  /-- What the device has transferred for the request, and from or to which sector. -/
  reply : Option (Nat × Data)

def DiskProc.inFlight (x : DiskProc) : Bool :=
  match x.pc with
  | .submitted => true
  | .asleep _ => true
  | .woken => true
  | _ => false

/-- The frame of the call is in use: a post of its semaphore arrives. -/
def DiskProc.waiting (x : DiskProc) : Bool :=
  match x.pc with
  | .submitted => true
  | .asleep _ => true
  | _ => false

structure DiskSys where
  virtq : Virtq
  /-- The sectors of the disk. -/
  disk : Nat → Data
  /-- The requests that the device has taken and not completed. -/
  busy : List Nat
  proc : Nat → DiskProc
  /-- The blocks of the cache. -/
  block : Nat → Block

inductive DiskAct where
  /-- `device_read` by `cache_acquire`; `stack` is what is on the stack where `Buf` is. -/
  | read (p a : Nat) (stack : Data)
  /-- `device_write`. -/
  | write (p a : Nat)
  /-- `_wait_sem` up to `sched`. -/
  | wait (p : Nat)
  /-- The return from `sched` after a post. -/
  | wake (p : Nat)
  /-- The return from `sched` without one. -/
  | alert (p : Nat)
  /-- The rest of `virtio_blk_rw`. -/
  | finish (p : Nat)
  /-- What the caller does with the data. -/
  | ret (p : Nat)
  | kill (p : Nat)
  /-- The user of a block changes its contents. -/
  | store (a : Nat) (data : Data)
  /-- The device takes the next request. -/
  | fetch
  /-- The device completes a request. -/
  | complete (d : Nat) (status : Nat)
  /-- `virtio_blk_intr`. -/
  | intr

namespace DiskSys

variable (s : DiskSys)

def setProc (p : Nat) (x : DiskProc) : DiskSys := { s with proc := update s.proc p x }

/-- `sd_read` or `sd_write` up to the release of the lock in `virtio_blk_rw`. -/
def submit (p a : Nat) (dirty : Bool) (data : Data) : Except Runs.Stop DiskSys :=
  match s.virtq.submit p dirty with
  | .error e => .error e
  | .ok (d0, vq) =>
    .ok ({ s with virtq := vq }.setProc p { s.proc p with
      pc := .submitted
      buf := ⟨dirty, data, sectorOf (s.block a).blockNo, .initSem 0⟩
      d0 := d0
      block := a
      reply := none })

/-- The device follows the chain of descriptors: it reads the header, transfers the sector, writes
the status and adds the request to the ring of used ones. -/
def complete (d status : Nat) : Except Runs.Stop DiskSys :=
  let desc := s.virtq.desc
  let d1 := (desc d).next
  let d2 := (desc d1).next
  match (desc d).addr, (desc d1).addr, (desc d2).addr with
  | .hdr p, .data q, .status i =>
    let sector := (s.proc p).buf.blockNo
    let vq := s.virtq.setInfo i { s.virtq.info i with status := status }
    let vq := { vq with used := vq.used.push NQUEUE IDX_RANGE d }
    let s := { s with virtq := vq, busy := s.busy.erase d }
    if (s.proc p).buf.dirty then
      let data := (s.proc q).buf.data
      let s := { s with disk := update s.disk sector data }
      .ok (s.setProc q { s.proc q with reply := some (sector, data) })
    else
      let data := s.disk sector
      .ok (s.setProc q { s.proc q with
        buf := { (s.proc q).buf with data := data }
        reply := some (sector, data) })
  | _, _, _ => .error .disabled

/-- `post_sem(&b->sem)` for the `Buf` of process `p`. -/
def post (p : Nat) : Except Runs.Stop DiskSys :=
  let x := s.proc p
  if x.waiting then
    match x.buf.sem.postSem with
    | none => .error .panic
    | some (sem, w) =>
      .ok (s.setProc p { x with
        buf := { x.buf with sem := sem }
        pc := if w = some p then .asleep true else x.pc })
  else .ok s

/-- The loop of `virtio_blk_intr`. -/
def intrLoop : Nat → DiskSys → Except Runs.Stop DiskSys
  | 0, s => .ok s
  | fuel + 1, s =>
    if s.virtq.used.nread = s.virtq.used.nwrite then .ok s
    else
      let d0 := s.virtq.used.front NQUEUE
      let info := s.virtq.info d0
      if info.status ≠ 0 then .error .panic
      else
        match info.buf with
        | none => .error .panic
        | some p =>
          match s.post p with
          | .error e => .error e
          | .ok s =>
            let vq := s.virtq.setInfo d0 { info with done := 1, buf := none }
            intrLoop fuel { s with virtq := { vq with used := vq.used.pop IDX_RANGE } }

/-- `memcpy` into the block after `sd_read`, and `valid = true` of `cache_acquire`. -/
def ret (p : Nat) : DiskSys :=
  let x := s.proc p
  let s := s.setProc p { x with pc := .idle }
  if x.buf.dirty then s
  else { s with
    block := update s.block x.block
      { s.block x.block with data := x.buf.data, valid := true } }

def step (s : DiskSys) : DiskAct → Except Runs.Stop DiskSys
  | .read p a stack =>
    if (s.proc p).pc = .idle then s.submit p a false stack else .error .disabled
  | .write p a =>
    if (s.proc p).pc = .idle then s.submit p a true (s.block a).data else .error .disabled
  | .wait p =>
    let x := s.proc p
    if x.pc = .submitted then
      let r := x.buf.sem.waitSem p
      .ok (s.setProc p { x with
        buf := { x.buf with sem := r.1 }
        pc := if r.2 then .woken else .asleep false })
    else .error .disabled
  | .wake p =>
    let x := s.proc p
    if x.pc = .asleep true then .ok (s.setProc p { x with pc := .woken }) else .error .disabled
  | .alert p =>
    let x := s.proc p
    if x.pc = .asleep false ∧ x.killed then
      match x.buf.sem.wakeSem p false with
      | none => .error .panic
      | some sem =>
        .ok (s.setProc p { x with buf := { x.buf with sem := sem }, pc := .returned })
    else .error .disabled
  | .finish p =>
    let x := s.proc p
    if x.pc = .woken then
      let vq := s.virtq.setInfo x.d0 { s.virtq.info x.d0 with done := 0 }
      match vq.freeDesc x.d0 with
      | none => .error .disabled
      | some vq => .ok ({ s with virtq := vq }.setProc p { x with pc := .returned })
    else .error .disabled
  | .ret p => if (s.proc p).pc = .returned then .ok (s.ret p) else .error .disabled
  | .kill p => .ok (s.setProc p { s.proc p with killed := true })
  | .store a data =>
    .ok { s with block := update s.block a { s.block a with data := data } }
  | .fetch =>
    let avail := s.virtq.avail
    if avail.nread = avail.nwrite then .error .disabled
    else
      .ok { s with
        virtq := { s.virtq with avail := avail.pop IDX_RANGE }
        busy := avail.front NQUEUE :: s.busy }
  | .complete d status => if d ∈ s.busy then s.complete d status else .error .disabled
  | .intr => intrLoop (s.virtq.used.buffered IDX_RANGE) s

/-- After `virtio_init`, with any disk and any blocks. -/
def Init (s : DiskSys) : Prop :=
  s.virtq = .init ∧ s.busy = [] ∧ ∀ p, (s.proc p).pc = .idle ∧ (s.proc p).killed = false

/-- No process is killed while it is in `virtio_blk_rw`, and no killed process calls it. -/
def NoAbort (s : DiskSys) : DiskAct → Prop
  | .kill p => (s.proc p).inFlight = false
  | .read p _ _ => (s.proc p).killed = false
  | .write p _ => (s.proc p).killed = false
  | _ => True

instance (s : DiskSys) (l : DiskAct) : Decidable (NoAbort s l) := by
  cases l <;> unfold NoAbort <;> infer_instance

end DiskSys

end OsKernel
