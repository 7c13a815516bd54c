import OsKernel.Common.Sem
import OsKernel.Lib.RingBuffer
import OsKernel.Lib.Runs

/-!
# Pipes

`pipe_read`, `pipe_write` and `pipe_close` of `fs/pipe.c`, called by any number of processes.
A step is a stretch of one call with the lock of the pipe, a wait for `rlock` or `wlock` up to
the call of `sched`, or a call of `pipe_close`.

`thisproc()->killed` may be set by another processor at any time, so a stretch takes the values it
reads as an argument: `killed k` is the value when `k` bytes have been written.  A killed process
that has to wait is not put to sleep: `sched` returns, and the assertion of
`unalertable_wait_sem` fails.

Beside the pipe a state has the local variables of the calls of `pipe_write`, and the bytes that
the calls have stored and delivered so far.
-/

namespace OsKernel

open Function List

variable {r : Option Int} {writable : Bool}

abbrev PIPE_SIZE : Nat := 512

/-- The `u32` counters wrap here. -/
abbrev U32_WRAP : Nat := 2 ^ 32

/-- The two ends, and the semaphore that the processes wait for at each. -/
inductive PipeEnd where
  | read
  | write
deriving DecidableEq, Repr

variable {e : PipeEnd}

structure Pipe extends RingBuffer UInt8 where
  wlock : Semaphore
  rlock : Semaphore
  readopen : Bool
  writeopen : Bool

namespace Pipe

/-- `init_pipe`, on memory with the given contents. -/
def initPipe (data : Nat → UInt8) : Pipe where
  data := data
  nread := 0
  nwrite := 0
  wlock := .initSem 0
  rlock := .initSem 0
  readopen := true
  writeopen := true

def sem (pi : Pipe) : PipeEnd → Semaphore
  | .read => pi.rlock
  | .write => pi.wlock

def setSem (pi : Pipe) (sem : Semaphore) : PipeEnd → Pipe
  | .read => { pi with rlock := sem }
  | .write => { pi with wlock := sem }

/-- The test of `pipe_write` for a full buffer. -/
def Full (pi : Pipe) : Prop := pi.nwrite = (pi.nread + PIPE_SIZE) % U32_WRAP

instance (pi : Pipe) : Decidable pi.Full :=
  inferInstanceAs (Decidable (pi.nwrite = (pi.nread + PIPE_SIZE) % U32_WRAP))

@[simp] theorem ring_setSem (pi : Pipe) (sem : Semaphore) (e : PipeEnd) :
    (pi.setSem sem e).toRingBuffer = pi.toRingBuffer := by
  cases e <;> rfl

end Pipe

/-- The local variables of a call of `pipe_write`, and its result. -/
structure WriteCall where
  source : Nat → UInt8
  n : Int
  count : Nat
  result : Option Int

def WriteCall.bytes (w : WriteCall) : List UInt8 := (List.range w.n.toNat).map w.source

/-- A call of `pipe_read`, or the call of `pipe_write` with a number. -/
inductive PipeCall where
  | read (n : Int)
  | write (id : Nat)
deriving DecidableEq, Repr

def PipeCall.side : PipeCall → PipeEnd
  | read _ => .read
  | write _ => .write

/-- Where a process is: outside, about to take the lock, about to wait, or asleep. -/
inductive PipePc where
  | out
  | run (c : PipeCall)
  | gap (c : PipeCall)
  | sleep (c : PipeCall)
deriving DecidableEq, Repr

namespace PipePc

def call : PipePc → Option PipeCall
  | out => none
  | run c | gap c | sleep c => some c

def wake : PipePc → PipePc
  | sleep c => run c
  | pc => pc

@[simp] theorem call_wake (pc : PipePc) : pc.wake.call = pc.call := by
  cases pc <;> rfl

end PipePc

structure PipeSys where
  pipe : Pipe
  pc : Nat → PipePc
  /-- The calls of `pipe_write` by their numbers, and the next number. -/
  writes : Nat → WriteCall
  calls : Nat
  /-- The bytes stored, each with the number of the call. -/
  stored : List (Nat × UInt8)
  delivered : List UInt8
  freed : Bool

/-- How a stretch of `pipe_write` ends. -/
inductive WriteEnd where
  | fail
  | full
  | done
deriving DecidableEq, Repr

inductive PipeLabel where
  | write (p : Nat) (source : Nat → UInt8) (n : Int)
  | read (p : Nat) (n : Int)
  /-- A stretch with the lock. -/
  | run (p : Nat) (killed : Nat → Bool)
  | wait (p : Nat)
  /-- A killed process returns from `sched`. -/
  | alert (p : Nat)
  | close (writable : Bool)

variable {l : PipeLabel}

namespace PipeSys

/-! ## The code -/

def setPc (s : PipeSys) (p : Nat) (pc : PipePc) : PipeSys := { s with pc := update s.pc p pc }

@[simp] theorem pc_setPc_self (s : PipeSys) (p : Nat) (pc : PipePc) : (s.setPc p pc).pc p = pc :=
  update_self ..

variable {p id : Nat} {s s' : PipeSys} {killed : Nat → Bool} {n : Int}

theorem pc_setPc_of_ne (s : PipeSys) {q : Nat} (pc : PipePc) (h : q ≠ p) :
    (s.setPc p pc).pc q = s.pc q :=
  update_of_ne h ..

/-- The process that a post has taken off the list is activated. -/
def wakeAt (pc : Nat → PipePc) : Option Nat → Nat → PipePc
  | none => pc
  | some p => update pc p (pc p).wake

/-- `post_sem`. -/
def post (s : PipeSys) (e : PipeEnd) : Except Runs.Stop PipeSys :=
  match (s.pipe.sem e).postSem with
  | none => .error .panic
  | some (sem, woken) => .ok { s with pipe := s.pipe.setSem sem e, pc := wakeAt s.pc woken }

/-- `pi->data[pi->nwrite++ % PIPE_SIZE] = source[count++]`. -/
def storeByte (s : PipeSys) (id : Nat) : PipeSys :=
  let w := s.writes id
  { s with
    pipe := { s.pipe with
      toRingBuffer := s.pipe.push PIPE_SIZE U32_WRAP (w.source w.count) }
    writes := update s.writes id { w with count := w.count + 1 }
    stored := s.stored ++ [(id, w.source w.count)] }

/-- The loop of `pipe_write` with the number of bytes that are left. -/
def writeLoop (killed : Nat → Bool) (id : Nat) : Nat → PipeSys → WriteEnd × PipeSys
  | 0, s => (.done, s)
  | rest + 1, s =>
    if !s.pipe.readopen || killed (s.writes id).count then (.fail, s)
    else if s.pipe.Full then (.full, s)
    else writeLoop killed id rest (s.storeByte id)

/-- The call returns to process `p`. -/
def returns (s : PipeSys) (p id : Nat) (result : Int) : PipeSys :=
  { s with writes := update s.writes id { s.writes id with result := some result } }.setPc
    p .out

/-- A stretch of `pipe_write`, from taking the lock to releasing it. -/
def pipeWrite (s : PipeSys) (p id : Nat) (killed : Nat → Bool) : Except Runs.Stop PipeSys :=
  let w := s.writes id
  match s.writeLoop killed id (w.n - w.count).toNat with
  | (.fail, s) => .ok (s.returns p id (-1))
  | (.full, s) =>
    match s.post .read with
    | .ok s => .ok (s.setPc p (.gap (.write id)))
    | .error e => .error e
  | (.done, s) =>
    match s.post .read with
    | .ok s => .ok (s.returns p id (s.writes id).count)
    | .error e => .error e

/-- `destination[obtained++] = pi->data[pi->nread++ % PIPE_SIZE]`. -/
def deliverByte (s : PipeSys) : PipeSys :=
  { s with
    pipe := { s.pipe with toRingBuffer := s.pipe.pop U32_WRAP }
    delivered := s.delivered ++ [s.pipe.front PIPE_SIZE] }

/-- The second loop of `pipe_read`, with the number of bytes that it obtains. -/
def readLoop : Nat → PipeSys → Nat × PipeSys
  | 0, s => (0, s)
  | rest + 1, s =>
    if s.pipe.nread ≠ s.pipe.nwrite then
      let (obtained, s) := readLoop rest s.deliverByte
      (obtained + 1, s)
    else (0, s)

/-- A stretch of `pipe_read`, and the result if the call returns. -/
def pipeRead (s : PipeSys) (p : Nat) (n : Int) (killed : Bool) :
    Except Runs.Stop (Option Int × PipeSys) :=
  if s.pipe.nread ≠ s.pipe.nwrite || !s.pipe.writeopen then
    let (obtained, s) := s.readLoop n.toNat
    match s.post .write with
    | .ok s => .ok (some obtained, s.setPc p .out)
    | .error e => .error e
  else if killed then .ok (some (-1), s.setPc p .out)
  else .ok (none, s.setPc p (.gap (.read n)))

def pipeClose (s : PipeSys) (writable : Bool) : Except Runs.Stop PipeSys :=
  let closed :=
    if writable then { s with pipe := { s.pipe with writeopen := false } }.post .read
    else { s with pipe := { s.pipe with readopen := false } }.post .write
  match closed with
  | .ok s => .ok (if !s.pipe.readopen && !s.pipe.writeopen then { s with freed := true } else s)
  | .error e => .error e

/-- `unalertable_wait_sem` up to the call of `sched`. -/
def waitSem (s : PipeSys) (p : Nat) (c : PipeCall) : PipeSys :=
  match (s.pipe.sem c.side).waitSem p with
  | (sem, true) => { s with pipe := s.pipe.setSem sem c.side }.setPc p (.run c)
  | (sem, false) => { s with pipe := s.pipe.setSem sem c.side }.setPc p (.sleep c)

/-- Nobody has a reference to a pipe that has been freed. -/
def step (s : PipeSys) (l : PipeLabel) : Except Runs.Stop PipeSys :=
  if s.freed then .error .disabled
  else
    match l with
    | .write p source n =>
      match s.pc p with
      | .out => .ok ({ s with
          writes := update s.writes s.calls ⟨source, n, 0, none⟩
          calls := s.calls + 1 }.setPc p (.run (.write s.calls)))
      | _ => .error .disabled
    | .read p n =>
      match s.pc p with
      | .out => .ok (s.setPc p (.run (.read n)))
      | _ => .error .disabled
    | .run p killed =>
      match s.pc p with
      | .run (.write id) => s.pipeWrite p id killed
      | .run (.read n) =>
        match s.pipeRead p n (killed 0) with
        | .ok (_, s) => .ok s
        | .error e => .error e
      | _ => .error .disabled
    | .wait p =>
      match s.pc p with
      | .gap c => .ok (s.waitSem p c)
      | _ => .error .disabled
    | .alert p =>
      match s.pc p with
      | .sleep _ => .error .panic
      | _ => .error .disabled
    | .close writable => s.pipeClose writable

def start (data : Nat → UInt8) : PipeSys where
  pipe := .initPipe data
  pc := fun _ => .out
  writes := fun _ => ⟨fun _ => 0, 0, 0, none⟩
  calls := 0
  stored := []
  delivered := []
  freed := false

def Init (s : PipeSys) : Prop := ∃ data, s = start data

def storedBy (s : PipeSys) (id : Nat) : List UInt8 :=
  (s.stored.filter (fun x => x.1 = id)).map Prod.snd

/-! ## What a step does -/

inductive Move (s : PipeSys) : PipeLabel → PipeSys → Prop where
  | write {p : Nat} {source : Nat → UInt8} {n : Int} : s.pc p = .out →
      Move s (.write p source n) ({ s with
        writes := update s.writes s.calls ⟨source, n, 0, none⟩
        calls := s.calls + 1 }.setPc p (.run (.write s.calls)))
  | read {p : Nat} {n : Int} : s.pc p = .out → Move s (.read p n) (s.setPc p (.run (.read n)))
  | pipeWrite {p id : Nat} {killed : Nat → Bool} {s' : PipeSys} :
      s.pc p = .run (.write id) → s.pipeWrite p id killed = .ok s' → Move s (.run p killed) s'
  | pipeRead {p : Nat} {n : Int} {killed : Nat → Bool} {r : Option Int} {s' : PipeSys} :
      s.pc p = .run (.read n) → s.pipeRead p n (killed 0) = .ok (r, s') →
      Move s (.run p killed) s'
  | wait {p : Nat} {c : PipeCall} : s.pc p = .gap c → Move s (.wait p) (s.waitSem p c)
  | close {writable : Bool} {s' : PipeSys} : s.pipeClose writable = .ok s' →
      Move s (.close writable) s'

theorem move_of_step (h : s.step l = .ok s') : Move s l s' := by
  unfold step at h
  split at h
  · cases h
  split at h
  · split at h
    · next hpc => cases h; exact .write hpc
    · cases h
  · split at h
    · next hpc => cases h; exact .read hpc
    · cases h
  · split at h
    · next hpc => exact .pipeWrite hpc h
    · next hpc =>
        split at h
        · next hr => cases h; exact .pipeRead hpc hr
        · cases h
    · cases h
  · split at h
    · next hpc => cases h; exact .wait hpc
    · cases h
  · split at h <;> cases h
  · exact .close h

theorem post_ok (h : s.post e = .ok s') :
    ∃ sem woken, (s.pipe.sem e).postSem = some (sem, woken) ∧
      s' = { s with pipe := s.pipe.setSem sem e, pc := wakeAt s.pc woken } := by
  unfold post at h
  split at h
  · cases h
  · next hsem => cases h; exact ⟨_, _, hsem, rfl⟩

@[simp] theorem call_wakeAt (pc : Nat → PipePc) (woken : Option Nat) (p : Nat) :
    (wakeAt pc woken p).call = (pc p).call := by
  cases woken with
  | none => rfl
  | some q =>
    by_cases hq : p = q
    · simp [wakeAt, hq]
    · simp [wakeAt, hq]

theorem pipeWrite_ok (h : s.pipeWrite p id killed = .ok s') :
    ∃ e s1, s.writeLoop killed id ((s.writes id).n - (s.writes id).count).toNat = (e, s1) ∧
      (e = .fail ∧ s' = s1.returns p id (-1) ∨ ∃ s2, s1.post .read = .ok s2 ∧
          (e = .full ∧ s' = s2.setPc p (.gap (.write id)) ∨
            e = .done ∧ s' = s2.returns p id (s2.writes id).count)) := by
  unfold pipeWrite at h
  dsimp only at h
  split at h
  · next hloop => cases h; exact ⟨_, _, hloop, .inl ⟨rfl, rfl⟩⟩
  · next hloop =>
      split at h
      · next hpost => cases h; exact ⟨_, _, hloop, .inr ⟨_, hpost, .inl ⟨rfl, rfl⟩⟩⟩
      · cases h
  · next hloop =>
      split at h
      · next hpost => cases h; exact ⟨_, _, hloop, .inr ⟨_, hpost, .inr ⟨rfl, rfl⟩⟩⟩
      · cases h

theorem pipeRead_ok {killed : Bool} (h : s.pipeRead p n killed = .ok (r, s')) :
    (s.pipe.nread ≠ s.pipe.nwrite ∨ s.pipe.writeopen = false) ∧
      (∃ obtained s1 s2, s.readLoop n.toNat = (obtained, s1) ∧ s1.post .write = .ok s2 ∧
        r = some (obtained : Int) ∧ s' = s2.setPc p .out) ∨
    (s.pipe.nread = s.pipe.nwrite ∧ s.pipe.writeopen = true) ∧
      (r = some (-1) ∧ s' = s.setPc p .out ∨
        r = none ∧ killed = false ∧ s' = s.setPc p (.gap (.read n))) := by
  unfold pipeRead at h
  split at h
  · next hready =>
      dsimp only at h
      split at h
      · next hpost =>
          cases h
          exact .inl ⟨by simpa using hready, _, _, _, rfl, hpost, rfl, rfl⟩
      · cases h
  · next hready =>
      have hidle : s.pipe.nread = s.pipe.nwrite ∧ s.pipe.writeopen = true := by
        simpa using hready
      split at h
      · cases h
        exact .inr ⟨hidle, .inl ⟨rfl, rfl⟩⟩
      · next hkilled =>
          cases h
          exact .inr ⟨hidle, .inr ⟨rfl, Bool.not_eq_true _ ▸ hkilled, rfl⟩⟩

theorem pipeClose_ok (h : s.pipeClose writable = .ok s') :
    ∃ s1 freed, s' = { s1 with freed := freed } ∧
      (writable = true ∧ { s with pipe := { s.pipe with writeopen := false } }.post .read = .ok s1 ∨
      writable = false ∧
        { s with pipe := { s.pipe with readopen := false } }.post .write = .ok s1) := by
  unfold pipeClose at h
  dsimp only at h
  split at h
  · next s1 hpost =>
      cases h
      have hs' : ∃ freed, (if (!s1.pipe.readopen && !s1.pipe.writeopen) = true then
          { s1 with freed := true } else s1) = { s1 with freed := freed } := by
        split
        · exact ⟨true, rfl⟩
        · exact ⟨s1.freed, rfl⟩
      obtain ⟨freed, hf⟩ := hs'
      refine ⟨s1, freed, hf, ?_⟩
      cases writable with
      | true => exact .inl ⟨rfl, hpost⟩
      | false => exact .inr ⟨rfl, hpost⟩
  · cases h

/-! ## A bounded queue -/

structure Inv (s : PipeSys) : Prop where
  ring : RingBuffer.Holds PIPE_SIZE U32_WRAP s.pipe.toRingBuffer (s.stored.map Prod.snd) s.delivered
  fresh : ∀ x ∈ s.stored, x.1 < s.calls
  call : ∀ p id, (s.pc p).call = some (.write id) → id < s.calls
  count : ∀ id, (s.writes id).count ≤ (s.writes id).n.toNat
  bytes : ∀ id, s.storedBy id = (List.range (s.writes id).count).map (s.writes id).source
  result : ∀ id r, (s.writes id).result = some r →
    r = -1 ∨ (s.writes id).count = (s.writes id).n.toNat

theorem Inv.init (h : Init s) : s.Inv := by
  obtain ⟨data, rfl⟩ := h
  constructor
  · exact RingBuffer.Holds.init data
  · simp [start]
  · simp [start, PipePc.call]
  · simp [start]
  · simp [start, storedBy]
  · simp [start]

theorem Inv.congr (h : s.Inv)
    (hring : s'.pipe.toRingBuffer = s.pipe.toRingBuffer) (hstored : s'.stored = s.stored)
    (hdelivered : s'.delivered = s.delivered) (hwrites : s'.writes = s.writes)
    (hcalls : s'.calls = s.calls)
    (hpc : ∀ p id, (s'.pc p).call = some (.write id) → id < s.calls) : s'.Inv := by
  constructor
  · rw [hring, hstored, hdelivered]
    exact h.ring
  · rw [hstored, hcalls]
    exact h.fresh
  · rw [hcalls]
    exact hpc
  · rw [hwrites]
    exact h.count
  · rw [hwrites]
    intro id
    rw [storedBy, hstored]
    exact h.bytes id
  · rw [hwrites]
    exact h.result

theorem Inv.setPc (h : s.Inv) (p : Nat) {pc : PipePc}
    (hpc : ∀ id, pc.call = some (.write id) → id < s.calls) : (s.setPc p pc).Inv := by
  refine h.congr rfl rfl rfl rfl rfl fun q id hq => ?_
  by_cases he : q = p
  · rw [he, pc_setPc_self] at hq
    exact hpc id hq
  · rw [pc_setPc_of_ne s pc he] at hq
    exact h.call q id hq

theorem Inv.post (h : s.Inv) (hs : s.post e = .ok s') : s'.Inv := by
  obtain ⟨sem, woken, -, rfl⟩ := post_ok hs
  refine h.congr (Pipe.ring_setSem _ _ _) rfl rfl rfl rfl fun p id hp => ?_
  rw [call_wakeAt] at hp
  exact h.call p id hp

theorem storedBy_storeByte (s : PipeSys) (id id' : Nat) :
    (s.storeByte id).storedBy id' = s.storedBy id' ++
      if id = id' then [(s.writes id).source (s.writes id).count] else [] := by
  by_cases he : id = id'
  · simp [storedBy, storeByte, filter_append, he]
  · simp [storedBy, storeByte, filter_append, he]

theorem Inv.storeByte (h : s.Inv) (hid : id < s.calls)
    (hlt : (s.writes id).count < (s.writes id).n.toNat) (hfull : ¬ s.pipe.Full) :
    (s.storeByte id).Inv := by
  constructor
  · have hpush := h.ring.push (by decide) (by decide) ((s.writes id).source (s.writes id).count) hfull
    simpa only [PipeSys.storeByte, map_append, map_singleton] using hpush
  · intro x hx
    simp only [PipeSys.storeByte, mem_append, mem_singleton] at hx
    cases hx with
    | inl hx => exact h.fresh x hx
    | inr hx => rw [hx]; exact hid
  · exact h.call
  · intro id'
    by_cases he : id' = id
    · simp only [PipeSys.storeByte, he, update_self]
      omega
    · simp only [PipeSys.storeByte, update_of_ne he]
      exact h.count id'
  · intro id'
    rw [storedBy_storeByte, h.bytes]
    by_cases he : id' = id
    · simp [PipeSys.storeByte, he, range_succ]
    · simp [PipeSys.storeByte, he, Ne.symm he]
  intro id' r hr
  by_cases he : id' = id
  · -- the call has not returned, since bytes are left
    simp only [PipeSys.storeByte, he, update_self] at hr ⊢
    have hres := h.result id r hr
    omega
  · simp only [PipeSys.storeByte, update_of_ne he] at hr ⊢
    exact h.result id' r hr

/-- The loop of `pipe_write` stores the next bytes of its source, and all that are left if it is
done. -/
theorem writeLoop_inv {e : WriteEnd} (rest : Nat) (h : s.Inv) (hid : id < s.calls)
    (hrest : (s.writes id).count + rest = (s.writes id).n.toNat)
    (hs : s.writeLoop killed id rest = (e, s')) :
    s'.Inv ∧ s'.calls = s.calls ∧ s'.pc = s.pc ∧
      (e = .done → (s'.writes id).count = (s'.writes id).n.toNat) := by
  induction rest generalizing s with
  | zero =>
    cases hs
    exact ⟨h, rfl, rfl, fun _ => hrest⟩
  | succ rest ih =>
    rw [writeLoop] at hs
    split at hs
    · cases hs
      exact ⟨h, rfl, rfl, fun hd => by cases hd⟩
    split at hs
    · cases hs
      exact ⟨h, rfl, rfl, fun hd => by cases hd⟩
    next hfull =>
      have hrest' : ((s.storeByte id).writes id).count + rest =
          ((s.storeByte id).writes id).n.toNat := by
        simp only [PipeSys.storeByte, update_self]
        omega
      exact ih (s := s.storeByte id) (h.storeByte hid (by omega) hfull) hid hrest' hs

theorem Inv.returns (h : s.Inv) (p id : Nat) {r : Int}
    (hr : r = -1 ∨ (s.writes id).count = (s.writes id).n.toNat) : (s.returns p id r).Inv := by
  have hw : ∀ id', (update s.writes id
      { s.writes id with result := some r } id').count = (s.writes id').count ∧
      (update s.writes id { s.writes id with result := some r } id').n = (s.writes id').n ∧
      (update s.writes id { s.writes id with result := some r } id').source =
        (s.writes id').source := by
    intro id'
    by_cases he : id' = id
    · simp [he]
    · simp [update_of_ne he]
  refine Inv.setPc ?_ p (fun id' hc => by cases hc)
  constructor
  · exact h.ring
  · exact h.fresh
  · exact h.call
  · intro id'
    simp only [hw]
    exact h.count id'
  · intro id'
    simp only [hw]
    exact h.bytes id'
  intro id' r' hr'
  simp only [hw]
  obtain rfl | he := eq_or_ne id' id
  · simp only [update_self, Option.some.injEq] at hr'
    rw [← hr']
    exact hr
  · simp only [update_of_ne he] at hr'
    exact h.result id' r' hr'

theorem Inv.pipeWrite (h : s.Inv)
    (hpc : s.pc p = .run (.write id)) (hs : s.pipeWrite p id killed = .ok s') : s'.Inv := by
  have hid : id < s.calls := h.call p id (by rw [hpc]; rfl)
  have hcount := h.count id
  obtain ⟨e, s1, hloop, hend⟩ := pipeWrite_ok hs
  obtain ⟨h1, hcalls, -, hdone⟩ := writeLoop_inv _ h hid (by omega) hloop
  obtain ⟨-, rfl⟩ | ⟨s2, hpost, hend⟩ := hend
  · exact h1.returns p id (.inl rfl)
  have h2 := h1.post hpost
  obtain ⟨sem, woken, -, rfl⟩ := post_ok hpost
  obtain ⟨-, rfl⟩ | ⟨hd, rfl⟩ := hend
  · refine h2.setPc p fun id' hc => ?_
    cases hc
    exact hcalls ▸ hid
  · exact h2.returns p id (.inr (hdone hd))

theorem Inv.deliverByte (h : s.Inv) (hempty : s.pipe.nread ≠ s.pipe.nwrite) :
    s.deliverByte.Inv where
  ring := h.ring.pop (by decide) hempty
  fresh := h.fresh
  call := h.call
  count := h.count
  bytes := h.bytes
  result := h.result

/-- The loop of `pipe_read` delivers bytes, unless it has no room or there are none. -/
theorem readLoop_inv {obtained : Nat} (rest : Nat) (h : s.Inv)
    (hs : s.readLoop rest = (obtained, s')) :
    s'.Inv ∧ s'.calls = s.calls ∧ s'.pc = s.pc ∧ s'.pipe.writeopen = s.pipe.writeopen ∧
      (obtained = 0 → rest = 0 ∨ s'.pipe.nread = s'.pipe.nwrite) := by
  induction rest generalizing s obtained with
  | zero =>
    cases hs
    exact ⟨h, rfl, rfl, rfl, fun _ => .inl rfl⟩
  | succ rest ih =>
    rw [readLoop] at hs
    split at hs
    · next hne =>
        cases hl : readLoop rest s.deliverByte with
        | mk k s1 =>
          rw [hl] at hs
          cases hs
          obtain ⟨hi, hc, hp, hw, -⟩ := ih (h.deliverByte hne) hl
          exact ⟨hi, hc, hp, hw, fun h0 => by cases h0⟩
    · next he =>
        cases hs
        exact ⟨h, rfl, rfl, rfl, fun _ => .inr (not_not.mp he)⟩

section

variable (h : s.Inv)

include h

theorem Inv.pipeRead {killed : Bool} (hs : s.pipeRead p n killed = .ok (r, s')) : s'.Inv := by
  obtain ⟨-, obtained, s1, s2, hloop, hpost, -, rfl⟩ | ⟨-, ⟨-, rfl⟩ | ⟨-, -, rfl⟩⟩ := pipeRead_ok hs
  · obtain ⟨h1, -⟩ := readLoop_inv _ h hloop
    exact (h1.post hpost).setPc p fun id hc => by cases hc
  · exact h.setPc p fun id hc => by cases hc
  · exact h.setPc p fun id hc => by cases hc

/-- A call of `pipe_read` that returns nothing has found the write end closed and every byte
delivered. -/
theorem Inv.pipeRead_zero {killed : Bool}
    (hn : 0 < n) (hs : s.pipeRead p n killed = .ok (some 0, s')) :
    s.pipe.writeopen = false ∧ s.delivered = s.stored.map Prod.snd := by
  obtain ⟨hready, obtained, s1, s2, hloop, hpost, hr, rfl⟩ | ⟨-, ⟨hr, -⟩ | ⟨hr, -⟩⟩ :=
    pipeRead_ok hs
  · have hzero : obtained = 0 := by
      simp only [Option.some.injEq] at hr
      omega
    subst hzero
    have hsome : n.toNat = (n.toNat - 1) + 1 := by omega
    rw [hsome, readLoop] at hloop
    split at hloop
    · cases hloop
    · next he =>
        have he := not_not.mp he
        exact ⟨hready.resolve_left (not_not.mpr he), (h.ring.empty_iff (by decide)).mp he⟩
  · cases hr
  · cases hr

theorem Inv.waitSem {c : PipeCall} (hpc : s.pc p = .gap c) : (s.waitSem p c).Inv := by
  have hcall : ∀ id, some c = some (.write id) → id < s.calls := by
    intro id hid
    exact h.call p id (by rw [hpc]; exact hid)
  have hsem : ∀ sem, ({ s with pipe := s.pipe.setSem sem c.side } : PipeSys).Inv := fun sem =>
    h.congr (Pipe.ring_setSem _ _ _) rfl rfl rfl rfl h.call
  unfold PipeSys.waitSem
  split
  · exact (hsem _).setPc p hcall
  · exact (hsem _).setPc p hcall

theorem Inv.pipeClose (hs : s.pipeClose writable = .ok s') : s'.Inv := by
  obtain ⟨s1, freed, rfl, ⟨-, hpost⟩ | ⟨-, hpost⟩⟩ := pipeClose_ok hs
  · have hclosed : ({ s with pipe := { s.pipe with writeopen := false } } : PipeSys).Inv :=
      h.congr rfl rfl rfl rfl rfl h.call
    exact (hclosed.post hpost).congr rfl rfl rfl rfl rfl (hclosed.post hpost).call
  · have hclosed : ({ s with pipe := { s.pipe with readopen := false } } : PipeSys).Inv :=
      h.congr rfl rfl rfl rfl rfl h.call
    exact (hclosed.post hpost).congr rfl rfl rfl rfl rfl (hclosed.post hpost).call

theorem Inv.newCall (p : Nat) (source : Nat → UInt8) (n : Int) : ({ s with
      writes := update s.writes s.calls ⟨source, n, 0, none⟩
      calls := s.calls + 1 }.setPc p (.run (.write s.calls))).Inv := by
  refine Inv.setPc ?_ p ?_
  · constructor
    · exact h.ring
    · intro x hx
      exact Nat.lt_succ_of_lt (h.fresh x hx)
    · intro q id hq
      exact Nat.lt_succ_of_lt (h.call q id hq)
    · intro id
      by_cases he : id = s.calls
      · simp [he]
      · simpa only [update_of_ne he] using h.count id
    · intro id
      by_cases he : id = s.calls
      · have hnone : s.storedBy s.calls = [] := by
          simp only [storedBy, map_eq_nil_iff, filter_eq_nil_iff, decide_eq_true_eq]
          intro x hx
          exact Nat.ne_of_lt (h.fresh x hx)
        simpa [he, storedBy] using hnone
      · simp only [update_of_ne he]
        exact h.bytes id
    · intro id r hr
      by_cases he : id = s.calls
      · simp [he] at hr
      · simp only [update_of_ne he] at hr ⊢
        exact h.result id r hr
  · intro id hid
    cases hid
    exact Nat.lt_succ_self _

theorem Inv.step (hs : s.step l = .ok s') : s'.Inv := by
  cases move_of_step hs with
  | write hpc => exact h.newCall _ _ _
  | read hpc => exact h.setPc _ fun id hc => by cases hc
  | pipeWrite hpc hw => exact h.pipeWrite hpc hw
  | pipeRead hpc hr => exact h.pipeRead hr
  | wait hpc => exact h.waitSem hpc
  | close hc => exact h.pipeClose hc

end

theorem inv_of_reach (h : Runs.Reach step Runs.always Init s) : s.Inv :=
  h.invariant (fun _ => Inv.init) fun _ _ _ hs _ hstep => hs.step hstep

end PipeSys

open PipeSys in
/-- A pipe is a bounded queue: it buffers at most `PIPE_SIZE` bytes, what the readers get is the
beginning of what the writers have stored, each call stores the beginning of its source, and all of
it if it returns `n`, and a read returns 0 only when the write end is closed and every byte has been
delivered. -/
theorem pipe_bounded_fifo (s : PipeSys) (h : Runs.Reach step Runs.always Init s) :
    s.pipe.buffered U32_WRAP ≤ PIPE_SIZE ∧
    s.pipe.buffered U32_WRAP = s.stored.length - s.delivered.length ∧
    s.delivered <+: s.stored.map Prod.snd ∧
    (∀ id, s.storedBy id <+: (s.writes id).bytes ∧
      ((s.writes id).result = some (s.writes id).n → s.storedBy id = (s.writes id).bytes)) ∧
    (∀ p n killed s', 0 < n → s.pipeRead p n killed = .ok (some 0, s') →
      s.pipe.writeopen = false ∧ s.delivered = s.stored.map Prod.snd) := by
  have hinv := inv_of_reach h
  have hbuf := hinv.ring.buffered (by decide)
  have hroom := hinv.ring.room
  rw [length_map] at hbuf hroom
  refine ⟨by omega, hbuf, hinv.ring.pre, ?_, fun p n killed s' hn hs => hinv.pipeRead_zero hn hs⟩
  intro id
  have hcount := hinv.count id
  constructor
  · have htake : List.range (s.writes id).count =
        (List.range (s.writes id).n.toNat).take (s.writes id).count := by
      rw [take_range, Nat.min_eq_left hcount]
    rw [hinv.bytes id, WriteCall.bytes, htake, map_take]
    exact take_prefix _ _
  · intro hres
    have hc : (s.writes id).count = (s.writes id).n.toNat := by
      have hr := hinv.result id _ hres
      omega
    rw [hinv.bytes id, WriteCall.bytes, hc]

namespace PipeSys

/-- One process writes three bytes and another one reads two of them. -/
theorem pipe_bounded_fifo_two : ∃ s, Runs.Reach step Runs.always Init s ∧
    s.delivered <+: s.stored.map Prod.snd ∧ s.pipe.buffered U32_WRAP = 1 ∧
    s.storedBy 0 = [7, 7, 7] := by
  have hinit : Init (start fun _ => 0) := ⟨_, rfl⟩
  obtain ⟨s, hs, hq⟩ := Runs.Reach.of_execTest hinit
    (by decide +kernel : Runs.execTest step (start fun _ => 0)
      [.read 1 2, .run 1 (fun _ => false), .wait 1, .write 2 (fun _ => 7) 3,
        .run 2 (fun _ => false), .run 1 (fun _ => false)]
      (fun s => decide (s.stored.length = 3 ∧ s.delivered.length = 2 ∧
        (s.writes 0).result = some (s.writes 0).n ∧ (s.writes 0).bytes = [7, 7, 7])) = true)
  obtain ⟨hlen, hlen', hres, hbytes⟩ := of_decide_eq_true hq
  obtain ⟨-, hbuf, hpre, hwrite, -⟩ := pipe_bounded_fifo s hs
  exact ⟨s, hs, hpre, by rw [hbuf, hlen, hlen'], by rw [(hwrite 0).2 hres, hbytes]⟩

end PipeSys

end OsKernel
