import OsKernel.Lib.Runs
import OsKernel.Kernel.Sched
import OsKernel.Common.SleepLock
import OsKernel.Fs.BlockList

/-!
# Processes that compete for blocks and inodes

Any number of processes call `cache_acquire`, `cache_release`, `inode_lock` and
`inode_unlock`, and may be killed.  A stretch under the spin lock of the cache is
one step, and so is each stretch of `_wait_sem` and `_post_sem` under the lock of
the semaphore.  `kalloc` returns any address that is not that of a cached `Block`,
so also one that `evict_block` has just freed.

`inode_lock` of an inode that is not valid acquires and releases the block with its
entry before it returns.  The entry itself is left out.
-/

namespace OsKernel

open Function
open Runs (Stop)

/-- The sleep locks: that of the `Block` at an address, and that of an inode. -/
inductive LockId where
  | block (a : Nat)
  | inode (i : Nat)
deriving DecidableEq, Repr

/-- The fields of `Inode` that `inode_lock` reads. -/
structure LockedInode where
  inodeNo : Nat
  lock : Semaphore
  valid : Bool

/-- A call of `acquire_sleeplock`.  In `cache_acquire` it may follow a miss
(`fresh`), and it may be for the entry of an inode that `inode_lock` is loading. -/
structure Want where
  lock : LockId
  fresh : Bool
  loading : Option Nat
deriving DecidableEq, Repr

/-- Where a process is. -/
inductive Pc where
  /-- Outside the calls. -/
  | user
  /-- About to call `acquire_sleeplock`. -/
  | take (w : Want)
  /-- In `_wait_sem`, past its call of `sched`. -/
  | asleep (w : Want)
  /-- In `inode_lock` of an inode that is not valid, about to call `cache->acquire`. -/
  | load (i : Nat)
  /-- In `inode_lock`, about to call `cache->release`. -/
  | unload (i a : Nat)
  /-- In `inode_lock`, about to set `valid`. -/
  | validate (i : Nat)
deriving DecidableEq, Repr

/-- A process, the flag `up` of its `WaitData`, and the locks for which its call of
`acquire_sleeplock` has returned and that it has not released. -/
structure Actor where
  proc : Proc
  pc : Pc
  up : Bool
  holds : List LockId

/-- `wait->up = true` and `activate_proc`. -/
def Actor.granted (q : Actor) : Actor := { q with proc := q.proc.activateProc, up := true }

structure LockSys where
  blocks : BlockList
  disk : Nat → Data
  inodes : Nat → LockedInode
  actors : Nat → Actor

inductive LockAct where
  /-- `cache_acquire(b)` up to the release of `lock`; `a` is what `kalloc` returns if
  it is called. -/
  | acquire (p b a : Nat)
  | inodeLock (p i : Nat)
  /-- `acquire_sleeplock` up to the sleep. -/
  | wait (p : Nat)
  /-- The rest of the wait. -/
  | wake (p : Nat)
  /-- `cache->acquire` in `inode_lock`. -/
  | load (p a : Nat)
  /-- `cache->release` in `inode_lock`. -/
  | unload (p : Nat)
  /-- `inode->valid = true`. -/
  | validate (p : Nat)
  | release (p a : Nat)
  | inodeUnlock (p i : Nat)
  | kill (p : Nat)
deriving DecidableEq, Repr

variable {l : LockAct}

namespace LockSys

variable (s : LockSys)

def sem : LockId → Semaphore
  | .block a => (s.blocks.heap a).lock
  | .inode i => (s.inodes i).lock

def setSem (k : LockId) (sem : Semaphore) : LockSys :=
  match k with
  | .block a => { s with blocks := s.blocks.update a fun blk => { blk with lock := sem } }
  | .inode i => { s with inodes := update s.inodes i { s.inodes i with lock := sem } }

def setActor (p : Nat) (q : Actor) : LockSys :=
  { s with actors := update s.actors p q }

/-- Process `p` goes on at `pc`. -/
def goto (p : Nat) (pc : Pc) : LockSys :=
  s.setActor p { s.actors p with proc := (s.actors p).proc.run, pc := pc }

/-- `cache_acquire(b)` under the lock of the cache. -/
def lookup (p b a : Nat) (loading : Option Nat) : Except Stop LockSys :=
  match s.blocks.findCachedBlock b with
  | some a' =>
    .ok ({ s with blocks := s.blocks.hit a' }.goto p (.take ⟨.block a', false, loading⟩))
  | none =>
    if a ∈ s.blocks.makeRoom.head then .error .disabled
    else
      .ok ({ s with blocks := s.blocks.insertNew a b }.goto p (.take ⟨.block a, true, loading⟩))

/-- Where a process goes on when `acquire_sleeplock` has returned.  What it returns
does not matter: it is `true` or `false`, and never negative. -/
def pcAfter (w : Want) : Pc :=
  match w.lock, w.loading with
  | .block _, none => .user
  | .block a, some i => .unload i a
  | .inode i, _ => if (s.inodes i).valid then .user else .load i

/-- `device_read` into a `Block` that is new or not valid. -/
def readIn (w : Want) : LockSys :=
  match w.lock with
  | .block a =>
    { s with
      blocks := s.blocks.update a fun blk =>
        if w.fresh || !blk.valid then { blk with data := s.disk blk.blockNo, valid := true }
        else blk }
  | .inode _ => s

/-- `acquire_sleeplock` has returned. -/
def locked (p : Nat) (w : Want) : LockSys := (s.readIn w).setActor p { s.actors p with
      proc := (s.actors p).proc.run
      pc := s.pcAfter w
      holds := w.lock :: (s.actors p).holds }

/-- What `_post_sem` does to the process it takes off the list. -/
def grant (actors : Nat → Actor) : Option Nat → Nat → Actor
  | none => actors
  | some q => update actors q (actors q).granted

/-- Process `p` has released the lock `k`, `w` is the process woken, and `p` goes on
at `pc`. -/
def unlocked (p : Nat) (k : LockId) (w : Option Nat) (pc : Pc) : LockSys :=
  { s with
    actors := grant (update s.actors p { s.actors p with
        proc := (s.actors p).proc.run
        pc := pc
        holds := (s.actors p).holds.erase k }) w }

/-- `cache_release` of the `Block` at `a`. -/
def releaseBlock (p a : Nat) (pc : Pc) : Except Stop LockSys :=
  match s.blocks.release a with
  | none => .error .panic
  | some (l, w) => .ok ({ s with blocks := l }.unlocked p (.block a) w pc)

/-- `inode_unlock`. -/
def releaseInode (p i : Nat) : Except Stop LockSys :=
  match (s.inodes i).lock.postSem with
  | none => .error .panic
  | some (sem, w) => .ok ((s.setSem (.inode i) sem).unlocked p (.inode i) w .user)

/-- `acquire_sleeplock` up to its call of `sched` or its return. -/
def wait (p : Nat) (w : Want) : LockSys :=
  match (s.sem w.lock).waitSem p with
  | (sem, true) => (s.setSem w.lock sem).locked p w
  | (sem, false) =>
    (s.setSem w.lock sem).setActor p
      { s.actors p with
        proc := (s.actors p).proc.run.sched .SLEEPING
        pc := .asleep w
        up := false }

/-- `acquire_sleeplock` from the return of `sched` on. -/
def wake (p : Nat) (w : Want) : Except Stop LockSys :=
  match (s.sem w.lock).wakeSem p (s.actors p).up with
  | none => .error .panic
  | some sem => .ok ((s.setSem w.lock sem).locked p w)

def act (sb : SuperBlock) (s : LockSys) : LockAct → Except Stop LockSys
  | .acquire p b a =>
    match (s.actors p).pc with
    | .user => s.lookup p b a none
    | _ => .error .disabled
  | .inodeLock p i =>
    match (s.actors p).pc with
    | .user => .ok (s.goto p (.take ⟨.inode i, false, none⟩))
    | _ => .error .disabled
  | .wait p =>
    match (s.actors p).pc with
    | .take w => .ok (s.wait p w)
    | _ => .error .disabled
  | .wake p =>
    match (s.actors p).pc with
    | .asleep w => s.wake p w
    | _ => .error .disabled
  | .load p a =>
    match (s.actors p).pc with
    | .load i => s.lookup p (sb.toBlockNo (s.inodes i).inodeNo) a (some i)
    | _ => .error .disabled
  | .unload p =>
    match (s.actors p).pc with
    | .unload i a => s.releaseBlock p a (.validate i)
    | _ => .error .disabled
  | .validate p =>
    match (s.actors p).pc with
    | .validate i =>
      .ok ({ s with
        inodes := update s.inodes i { s.inodes i with valid := true } }.goto p .user)
    | _ => .error .disabled
  | .release p a =>
    if (s.actors p).pc = .user ∧ LockId.block a ∈ (s.actors p).holds then
      s.releaseBlock p a .user
    else .error .disabled
  | .inodeUnlock p i =>
    if (s.actors p).pc = .user ∧ LockId.inode i ∈ (s.actors p).holds then s.releaseInode p i
    else .error .disabled
  | .kill p => .ok (s.setActor p { s.actors p with proc := (s.actors p).proc.kill })

def actor : LockAct → Option Nat
  | .acquire p _ _ | .inodeLock p _ | .wait p | .wake p | .load p _ | .unload p | .validate p
  | .release p _ | .inodeUnlock p _ => some p
  | .kill _ => none

/-- A process takes a step only when the scheduler may pick it. -/
def step (sb : SuperBlock) (s : LockSys) (l : LockAct) : Except Stop LockSys :=
  if (actor l).all fun p => (s.actors p).proc.awake then act sb s l else .error .disabled

/-- An empty cache, valid or invalid inodes that nobody has locked, and processes
outside the calls. -/
def Init : Prop :=
  s.blocks.head = [] ∧ s.blocks.numCachedBlocks = 0 ∧ (∀ i, (s.inodes i).lock = .initSem 1) ∧
    ∀ p, (s.actors p).pc = .user ∧ (s.actors p).holds = [] ∧ (s.actors p).proc.killed = false

/-- The states of all runs whose steps meet `ok`. -/
def ReachWhen (sb : SuperBlock) (ok : LockSys → LockAct → Prop) : LockSys → Prop :=
  Runs.Reach (step sb) ok Init

/-! ## What a step does -/

theorem actors_setActor_of_ne {p r : Nat} (q : Actor) (h : r ≠ p) :
    (s.setActor p q).actors r = s.actors r := update_of_ne h _ _

theorem actors_goto_of_ne {p r : Nat} (pc : Pc) (h : r ≠ p) :
    (s.goto p pc).actors r = s.actors r := s.actors_setActor_of_ne _ h

/-- `cache_release` or `inode_unlock` has changed the `Block` or the inode. -/
def posted (k : LockId) (sem : Semaphore) : LockSys :=
  match k with
  | .block a =>
    { s with blocks := s.blocks.update a fun blk => { blk with acquired := false, lock := sem } }
  | .inode i => s.setSem (.inode i) sem

/-- The action `l` is a call of `cache_acquire(b)` by process `p`. -/
def Looks (sb : SuperBlock) (s : LockSys) (l : LockAct) (p b a : Nat) (loading : Option Nat) : Prop :=
  (l = .acquire p b a ∧ (s.actors p).pc = .user ∧ loading = none) ∨
  (∃ i, l = .load p a ∧ (s.actors p).pc = .load i ∧ b = sb.toBlockNo (s.inodes i).inodeNo ∧
    loading = some i)

/-- The action `l` is a release of the lock `k` by process `p`, which goes on at `pc`. -/
def Releases (l : LockAct) (p : Nat) (k : LockId) (pc : Pc) : Prop :=
  (∃ a, l = .release p a ∧ k = .block a ∧ (s.actors p).pc = .user ∧ k ∈ (s.actors p).holds ∧
    pc = .user) ∨
  (∃ i a, l = .unload p ∧ k = .block a ∧ (s.actors p).pc = .unload i a ∧ pc = .validate i) ∨
  (∃ i, l = .inodeUnlock p i ∧ k = .inode i ∧ (s.actors p).pc = .user ∧
    k ∈ (s.actors p).holds ∧ pc = .user)

inductive LockStep (sb : SuperBlock) (s : LockSys) : LockAct → LockSys → Prop where
  | hit {l : LockAct} {p b a a' : Nat} {c : Option Nat} : Looks sb s l p b a c →
      s.blocks.findCachedBlock b = some a' →
      LockStep sb s l ({ s with blocks := s.blocks.hit a' }.goto p (.take ⟨.block a', false, c⟩))
  | miss {l : LockAct} {p b a : Nat} {c : Option Nat} : Looks sb s l p b a c →
      s.blocks.findCachedBlock b = none → a ∉ s.blocks.makeRoom.head →
      LockStep sb s l
        ({ s with blocks := s.blocks.insertNew a b }.goto p (.take ⟨.block a, true, c⟩))
  | inodeLock {p i : Nat} : (s.actors p).pc = .user →
      LockStep sb s (.inodeLock p i) (s.goto p (.take ⟨.inode i, false, none⟩))
  | take {p : Nat} {w : Want} {sem : Semaphore} : (s.actors p).pc = .take w →
      (s.sem w.lock).waitSem p = (sem, true) →
      LockStep sb s (.wait p) ((s.setSem w.lock sem).locked p w)
  | sleep {p : Nat} {w : Want} {sem : Semaphore} : (s.actors p).pc = .take w →
      (s.sem w.lock).waitSem p = (sem, false) →
      LockStep sb s (.wait p) ((s.setSem w.lock sem).setActor p { s.actors p with
          proc := (s.actors p).proc.run.sched .SLEEPING
          pc := .asleep w
          up := false })
  | wake {p : Nat} {w : Want} {sem : Semaphore} : (s.actors p).pc = .asleep w →
      (s.actors p).proc.awake = true → (s.sem w.lock).wakeSem p (s.actors p).up = some sem →
      LockStep sb s (.wake p) ((s.setSem w.lock sem).locked p w)
  | release {l : LockAct} {p : Nat} {k : LockId} {pc : Pc} {sem : Semaphore} {w : Option Nat} :
      Releases s l p k pc → (s.sem k).postSem = some (sem, w) →
      LockStep sb s l ((s.posted k sem).unlocked p k w pc)
  | validate {p i : Nat} : (s.actors p).pc = .validate i → LockStep sb s (.validate p) ({ s with
        inodes := update s.inodes i { s.inodes i with valid := true } }.goto p .user)
  | kill {p : Nat} :
      LockStep sb s (.kill p) (s.setActor p { s.actors p with proc := (s.actors p).proc.kill })

section

variable {sb : SuperBlock} {s s' : LockSys}

theorem LockStep.of_lookup {p b a : Nat} {c : Option Nat} (hl : Looks sb s l p b a c)
    (h : s.lookup p b a c = .ok s') : LockStep sb s l s' := by
  unfold lookup at h
  split at h
  next hf =>
    cases h
    exact .hit hl hf
  next hf =>
    split at h
    · cases h
    next ha =>
      cases h
      exact .miss hl hf ha

theorem LockStep.of_releaseBlock {p a : Nat} {pc : Pc}
    (hl : Releases s l p (.block a) pc) (h : s.releaseBlock p a pc = .ok s') : LockStep sb s l s' := by
  unfold releaseBlock at h
  split at h
  · cases h
  next hr =>
    cases h
    unfold BlockList.release at hr
    split at hr
    · cases hr
    next hp =>
      cases hr
      exact .release hl hp

theorem LockStep.of_act (h : s.act sb l = .ok s')
    (hawake : ((actor l).all fun p => (s.actors p).proc.awake) = true) : LockStep sb s l s' := by
  cases l with
  | acquire p b a =>
    simp only [act] at h
    split at h
    next hpc => exact .of_lookup (Or.inl ⟨rfl, hpc, rfl⟩) h
    next => cases h
  | inodeLock p i =>
    simp only [act] at h
    split at h
    next hpc =>
      cases h
      exact .inodeLock hpc
    next => cases h
  | wait p =>
    simp only [act] at h
    split at h
    next hpc =>
      cases h
      unfold LockSys.wait
      split
      next hs => exact .take hpc hs
      next hs => exact .sleep hpc hs
    next => cases h
  | wake p =>
    simp only [act] at h
    split at h
    next hpc =>
      unfold LockSys.wake at h
      split at h
      · cases h
      next hs =>
        cases h
        exact .wake hpc hawake hs
    next => cases h
  | load p a =>
    simp only [act] at h
    split at h
    next hpc => exact .of_lookup (Or.inr ⟨_, rfl, hpc, rfl, rfl⟩) h
    next => cases h
  | unload p =>
    simp only [act] at h
    split at h
    next hpc => exact .of_releaseBlock (Or.inr (Or.inl ⟨_, _, rfl, rfl, hpc, rfl⟩)) h
    next => cases h
  | validate p =>
    simp only [act] at h
    split at h
    next hpc =>
      cases h
      exact .validate hpc
    next => cases h
  | release p a =>
    obtain ⟨hpc, h⟩ := Runs.guard_ok h
    exact .of_releaseBlock (Or.inl ⟨a, rfl, rfl, hpc.1, hpc.2, rfl⟩) h
  | inodeUnlock p i =>
    obtain ⟨hpc, h⟩ := Runs.guard_ok h
    unfold releaseInode at h
    split at h
    · cases h
    next hs =>
      cases h
      exact .release (Or.inr (Or.inr ⟨i, rfl, rfl, hpc.1, hpc.2, rfl⟩)) hs
  | kill p =>
    cases h
    exact .kill

theorem LockStep.of_step (h : step sb s l = .ok s') : LockStep sb s l s' := by
  obtain ⟨hawake, h⟩ := Runs.guard_ok h
  exact .of_act h hawake

end

end LockSys

end OsKernel
