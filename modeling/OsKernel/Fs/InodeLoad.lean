import OsKernel.Lib.Runs
import OsKernel.Fs.Defines

/-!
# Loading an inode

Any number of processes call `inode_get`, `inode_lock`, `inode_sync(ctx, inode,
true)` and `inode_unlock` for one inode number and change `inode->entry` while
they hold its sleep lock.  The steps are the stretches under the global inode lock
and under the lock of the inode's block; a copy of the entry from or to the block
is one step, the store to `inode->valid` after it another.

`inode_get` puts the fresh inode into the list, releases the global lock and only
then loads the entry, without the inode's lock and whether or not the entry is
valid already.  So another process can find the inode, lock it, load it and change
it before that load.  `changed` records that a lock holder has changed the entry;
no step reads it.
-/

namespace OsKernel

open Function Runs

open Runs (Stop)

inductive LoadPc where
  | out
  /-- In `inode_get`, with the fresh inode in the list and not loaded. -/
  | loading
  /-- In `inode_get`, after the copy. -/
  | loaded
  /-- With a reference, outside `inode_lock`. -/
  | got
  /-- In `inode_lock`, with the sleep lock. -/
  | checking
  /-- In `inode_lock`, which has found the inode invalid. -/
  | lockLoading
  /-- In `inode_lock`, after the copy. -/
  | lockLoaded
  /-- After `inode_lock`. -/
  | holding
deriving DecidableEq, Repr

def LoadPc.owns : LoadPc → Bool
  | .checking | .lockLoading | .lockLoaded | .holding => true
  | _ => false

structure LoadState where
  /-- The inode is in the list. -/
  listed : Bool
  rc : Nat
  lock : Option Nat
  valid : Bool
  entry : InodeEntry
  /-- The entry in the cached block. -/
  block : InodeEntry
  pc : Nat → LoadPc
  changed : Bool

inductive LoadAct where
  /-- `inode_get` up to the release of the global lock; `junk` is what the memory
  of a fresh inode holds. -/
  | get (p : Nat) (junk : InodeEntry)
  /-- The copy of `inode_sync(NULL, fresh, false)`. -/
  | load (p : Nat)
  | setValid (p : Nat)
  | lock (p : Nat)
  /-- The test of `inode->valid` in `inode_lock`. -/
  | check (p : Nat)
  | lockLoad (p : Nat)
  | lockValid (p : Nat)
  | change (p : Nat) (v : InodeEntry)
  /-- `inode_sync(ctx, inode, true)`. -/
  | sync (p : Nat)
  | unlock (p : Nat)

def LoadAct.actor : LoadAct → Nat
  | .get p _ | .load p | .setValid p | .lock p | .check p | .lockLoad p | .lockValid p
  | .change p _ | .sync p | .unlock p => p

namespace LoadState

/-- The process goes on at `pc`. -/
def goto (s : LoadState) (p : Nat) (pc : LoadPc) : LoadState := { s with pc := update s.pc p pc }

def step (s : LoadState) : LoadAct → Except Stop LoadState
  | .get p junk =>
    match s.pc p, s.listed with
    | .out, true | .got, true => .ok { s.goto p .got with rc := s.rc + 1 }
    | .out, false =>
      .ok { s.goto p .loading with
        listed := true, rc := 1, lock := none, valid := false, entry := junk }
    | _, _ => .error .disabled
  | .load p =>
    if s.pc p = .loading then .ok { s.goto p .loaded with entry := s.block }
    else .error .disabled
  | .setValid p =>
    if s.pc p = .loaded then .ok { s.goto p .got with valid := true }
    else .error .disabled
  | .lock p =>
    if s.pc p = .got then
      if s.rc = 0 then .error .panic
      else if s.lock = none then .ok { s.goto p .checking with lock := some p }
      else .error .disabled
    else .error .disabled
  | .check p =>
    if s.pc p = .checking then .ok (s.goto p (if s.valid then .holding else .lockLoading))
    else .error .disabled
  | .lockLoad p =>
    if s.pc p = .lockLoading then .ok { s.goto p .lockLoaded with entry := s.block }
    else .error .disabled
  | .lockValid p =>
    if s.pc p = .lockLoaded then .ok { s.goto p .holding with valid := true }
    else .error .disabled
  | .change p v =>
    if s.pc p = .holding then .ok { s with entry := v, changed := true }
    else .error .disabled
  | .sync p =>
    if s.pc p = .holding then .ok { s with block := s.entry }
    else .error .disabled
  | .unlock p =>
    if s.pc p = .holding then
      if s.rc = 0 then .error .panic
      else .ok { s.goto p .got with lock := none }
    else .error .disabled

/-- The inode is not in memory and nobody refers to it. -/
def Init (s : LoadState) : Prop :=
  s.listed = false ∧ s.lock = none ∧ s.valid = false ∧ s.changed = false ∧ ∀ p, s.pc p = .out

/-- `inode_get` copies the entry only while the inode is not valid, that is, before
another process has locked and loaded it. -/
def LoadsInvalid (s : LoadState) (a : LoadAct) : Prop := ∀ p, a = .load p → s.valid = false

/-! ## The invariant -/

/-- The owner of the lock is known; a process that has returned from `inode_lock`
finds the inode valid, and once the entry has been changed nobody in `inode_lock`
is going to load it. -/
structure Inv (s : LoadState) : Prop where
  unlisted : s.listed = false → s.Init
  owner : ∀ p, (s.pc p).owns = true ↔ s.lock = some p
  holding : ∀ p, s.pc p = .holding → s.valid = true
  changed : s.changed = true →
    s.valid = true ∧ ∀ p, s.pc p ≠ .lockLoading ∧ s.pc p ≠ .lockLoaded

variable {s s' : LoadState} {p : Nat}

theorem Inv.init (h : s.Init) : s.Inv := by
  have hpc := h.2.2.2.2
  refine ⟨fun _ => h, fun p => ?_, fun p hp => ?_, fun hc => ?_⟩
  · simp [hpc p, h.2.1, LoadPc.owns]
  · rw [hpc p] at hp
    cases hp
  · rw [h.2.2.2.1] at hc
    cases hc

theorem Inv.listed (h : s.Inv) (p : Nat) (hp : s.pc p ≠ .out) : s.listed = true := by
  by_contra hl
  exact hp ((h.unlisted (by simpa using hl)).2.2.2.2 p)

theorem Inv.goto (h : s.Inv) {pc : LoadPc} (hpc : s'.pc = update s.pc p pc)
    (hlisted : s'.listed = true) (howns : pc.owns = true ↔ s'.lock = some p)
    (hothers : ∀ q ≠ p, s'.lock = some q ↔ s.lock = some q)
    (hvalid : s.valid = true → s'.valid = true) (hhold : pc = .holding → s'.valid = true)
    (hchanged : s'.changed = true → s.changed = true ∧ pc ≠ .lockLoading ∧ pc ≠ .lockLoaded) :
    s'.Inv := by
  refine ⟨fun hl => by simp [hlisted] at hl, fun q => ?_, fun q hq => ?_, fun hc => ?_⟩
  · rw [hpc]
    obtain rfl | hqp := eq_or_ne q p
    · rw [update_self, howns]
    · rw [update_of_ne hqp, h.owner q, hothers q hqp]
  · by_cases hp : pc = .holding
    · exact hhold hp
    · exact hvalid (h.holding q (of_update id (hpc ▸ hq) hp).2)
  obtain ⟨hc, hpc'⟩ := hchanged hc
  refine ⟨hvalid (h.changed hc).1, fun q => ?_⟩
  rw [hpc]
  obtain rfl | hqp := eq_or_ne q p
  · rwa [update_self]
  · rw [update_of_ne hqp]
    exact (h.changed hc).2 q

theorem Inv.goto_same (h : s.Inv) {pc : LoadPc} (hpc : s'.pc = update s.pc p pc)
    (hlisted : s'.listed = true) (howns : pc.owns = (s.pc p).owns) (hlock : s'.lock = s.lock)
    (hvalid : s.valid = true → s'.valid = true) (hhold : pc = .holding → s'.valid = true)
    (hchanged : s'.changed = s.changed)
    (hload : s.changed = true → pc ≠ .lockLoading ∧ pc ≠ .lockLoaded) : s'.Inv := by
  refine h.goto hpc hlisted ?_ (fun q _ => by rw [hlock]) hvalid hhold fun hc => ?_
  · rw [howns, h.owner p, hlock]
  · rw [hchanged] at hc
    exact ⟨hc, hload hc⟩

theorem Inv.step {a : LoadAct} (h : s.Inv) (hs : s.step a = .ok s') : s'.Inv := by
  cases a with
  | get p junk =>
    simp only [LoadState.step] at hs
    split at hs
    next hpc hl =>
      cases hs
      exact h.goto_same rfl hl (by rw [hpc]; rfl) rfl id nofun rfl fun _ => ⟨nofun, nofun⟩
    next hpc hl =>
      cases hs
      exact h.goto_same rfl hl (by rw [hpc]) rfl id nofun rfl fun _ => ⟨nofun, nofun⟩
    next hpc hl =>
      -- the fresh inode: nobody had one before
      cases hs
      have hinit := h.unlisted hl
      refine h.goto rfl rfl (by simp [LoadPc.owns]) (fun q _ => by simp [hinit.2.1]) ?_ nofun ?_
      · intro hv
        rw [hinit.2.2.1] at hv
        cases hv
      · intro hc
        exact ⟨hc, nofun, nofun⟩
    next => cases hs
  | load p =>
    obtain ⟨hpc, ⟨⟩⟩ := guard_ok hs
    exact h.goto_same rfl (h.listed p (by simp [hpc])) (by rw [hpc]; rfl) rfl id nofun rfl
      fun _ => ⟨nofun, nofun⟩
  | setValid p =>
    obtain ⟨hpc, ⟨⟩⟩ := guard_ok hs
    exact h.goto_same rfl (h.listed p (by simp [hpc])) (by rw [hpc]; rfl) rfl (fun _ => rfl)
      nofun rfl fun _ => ⟨nofun, nofun⟩
  | lock p =>
    obtain ⟨hpc, hs⟩ := guard_ok hs
    split at hs
    · cases hs
    obtain ⟨hlock, ⟨⟩⟩ := guard_ok hs
    refine h.goto rfl (h.listed p (by simp [hpc])) (by simp [LoadPc.owns]) (fun q hq => ?_) id
      nofun fun hc => ⟨hc, nofun, nofun⟩
    simp [hlock, Ne.symm hq]
  | check p =>
    obtain ⟨hpc, ⟨⟩⟩ := guard_ok hs
    have hl := h.listed p (by simp [hpc])
    split
    next hv =>
      exact h.goto_same rfl hl (by rw [hpc]; rfl) rfl id (fun _ => hv) rfl
        fun _ => ⟨nofun, nofun⟩
    next hv =>
      refine h.goto_same rfl hl (by rw [hpc]; rfl) rfl id nofun rfl fun hc => ?_
      exact absurd (h.changed hc).1 hv
  | lockLoad p =>
    obtain ⟨hpc, ⟨⟩⟩ := guard_ok hs
    refine h.goto_same rfl (h.listed p (by simp [hpc])) (by rw [hpc]; rfl) rfl id nofun rfl
      fun hc => ?_
    exact absurd hpc ((h.changed hc).2 p).1
  | lockValid p =>
    obtain ⟨hpc, ⟨⟩⟩ := guard_ok hs
    exact h.goto_same rfl (h.listed p (by simp [hpc])) (by rw [hpc]; rfl) rfl (fun _ => rfl)
      (fun _ => rfl) rfl fun _ => ⟨nofun, nofun⟩
  | change p v =>
    obtain ⟨hpc, ⟨⟩⟩ := guard_ok hs
    have hl := h.listed p (by simp [hpc])
    have hlock : s.lock = some p := (h.owner p).mp (by rw [hpc]; rfl)
    refine ⟨fun hl' => by simp [hl] at hl', h.owner, h.holding,
      fun _ => ⟨h.holding p hpc, fun q => ?_⟩⟩
    -- the only process in `inode_lock` is the one that makes the change
    by_cases hq : (s.pc q).owns = true
    · have : q = p := Option.some_inj.mp (((h.owner q).mp hq).symm.trans hlock)
      rw [this]
      simp [hpc]
    · exact ⟨fun e => hq (by rw [e]; rfl), fun e => hq (by rw [e]; rfl)⟩
  | sync p =>
    obtain ⟨hpc, ⟨⟩⟩ := guard_ok hs
    have hl := h.listed p (by simp [hpc])
    exact ⟨fun hl' => by simp [hl] at hl', h.owner, h.holding, h.changed⟩
  | unlock p =>
    obtain ⟨hpc, hs⟩ := guard_ok hs
    split at hs <;> cases hs
    have hlock : s.lock = some p := (h.owner p).mp (by rw [hpc]; rfl)
    refine h.goto rfl (h.listed p (by simp [hpc])) (by simp [LoadPc.owns]) (fun q hq => ?_) id
      nofun fun hc => ⟨hc, nofun, nofun⟩
    simp [hlock, Ne.symm hq]

theorem Inv.of_reach {ok : LoadState → LoadAct → Prop}
    (h : Runs.Reach LoadState.step ok Init s) : s.Inv :=
  Runs.Reach.invariant (fun _ hs => .init hs) (fun _ _ _ hi _ hs => hi.step hs) h

theorem entry_of_step {a : LoadAct} (hs : s.step a = .ok s') (hne : s'.entry ≠ s.entry) :
    (∃ p junk, a = .get p junk ∧ s.listed = false) ∨ (∃ p, a = .load p) ∨
      (∃ p, a = .lockLoad p ∧ s.pc p = .lockLoading) ∨
      ∃ p v, a = .change p v ∧ s.pc p = .holding := by
  cases a with
  | get p junk =>
    simp only [LoadState.step] at hs
    split at hs
    · cases hs
      exact absurd rfl hne
    · cases hs
      exact absurd rfl hne
    next hl => exact .inl ⟨p, junk, rfl, hl⟩
    next => cases hs
  | load p => exact .inr (.inl ⟨p, rfl⟩)
  | lockLoad p => exact .inr (.inr (.inl ⟨p, rfl, (guard_ok hs).1⟩))
  | change p v => exact .inr (.inr (.inr ⟨p, v, rfl, (guard_ok hs).1⟩))
  | setValid p | check p | lockValid p | sync p =>
    obtain ⟨-, ⟨⟩⟩ := guard_ok hs
    exact absurd rfl hne
  | lock p =>
    obtain ⟨-, hs⟩ := guard_ok hs
    split at hs
    · cases hs
    · obtain ⟨-, ⟨⟩⟩ := guard_ok hs
      exact absurd rfl hne
  | unlock p =>
    obtain ⟨-, hs⟩ := guard_ok hs
    split at hs <;> cases hs
    exact absurd rfl hne

/-! ## No lost update -/

/-- In every run in which `inode_get` copies the entry only while the inode is not
valid: once the inode is valid only the holder of its lock changes the entry, and
once a holder has changed it, only such a change by the holder of that moment does
so again, so no load overwrites it. -/
theorem no_lost_inode_update (s : LoadState) (h : Runs.Reach LoadState.step LoadsInvalid Init s)
    (a : LoadAct) (ha : s.LoadsInvalid a) (s' : LoadState) (hs : s.step a = .ok s')
    (hne : s'.entry ≠ s.entry) :
    (s.valid = true → s.lock = some a.actor) ∧
      (s.changed = true → ∃ p v, a = .change p v ∧ s.lock = some p) := by
  have hi := Inv.of_reach h
  have hvalid : s.changed = true → s.valid = true := fun hc => (hi.changed hc).1
  rcases entry_of_step hs hne with ⟨p, junk, rfl, hl⟩ | ⟨p, rfl⟩ | ⟨p, rfl, hpc⟩ |
    ⟨p, v, rfl, hpc⟩
  · have hv : s.valid = false := (hi.unlisted hl).2.2.1
    exact ⟨fun hv' => by simp [hv] at hv', fun hc => by simp [hv] at hvalid; simp [hvalid] at hc⟩
  · have hv := ha p rfl
    exact ⟨fun hv' => by simp [hv] at hv', fun hc => by simp [hv] at hvalid; simp [hvalid] at hc⟩
  · exact ⟨fun _ => (hi.owner p).mp (by rw [hpc]; rfl),
      fun hc => absurd hpc ((hi.changed hc).2 p).1⟩
  · have hlock : s.lock = some p := (hi.owner p).mp (by rw [hpc]; rfl)
    exact ⟨fun _ => hlock, fun _ => ⟨p, v, rfl, hlock⟩⟩

/-- The inode is on the device only, with an entry of zeros. -/
def start : LoadState where
  listed := false
  rc := 0
  lock := none
  valid := false
  entry := Bytes.zero
  block := Bytes.zero
  pc := fun _ => .out
  changed := false

theorem start_init : start.Init := ⟨rfl, rfl, rfl, rfl, fun _ => rfl⟩

/-- Process 0 gets and loads the inode; then process 1 gets and locks it and makes
its change, as the holder of the lock. -/
theorem no_lost_inode_update_after_load :
    ∃ s s', Runs.Reach LoadState.step LoadsInvalid Init s ∧ s.valid = true ∧
      s.step (.change 1 fun _ => 1) = .ok s' ∧ s'.entry ≠ s.entry ∧ s.lock = some 1 := by
  let q : LoadState → LoadAct → Bool := fun s a =>
    match a with
    | .load _ => !s.valid
    | _ => true
  obtain ⟨s, hs, hq⟩ := Runs.Reach.of_execTest start_init
    (show execTest (guarded LoadState.step q .disabled) start
      [.get 0 (fun _ => 7), .load 0, .setValid 0, .get 1 (fun _ => 7), .lock 1, .check 1]
      (fun s => s.valid ∧ s.pc 1 = .holding ∧ s.entry = Bytes.zero) = true by decide)
  have hs : Runs.Reach LoadState.step LoadsInvalid Init s := by
    refine Runs.Reach.of_guarded (J := fun _ => True) (fun _ _ => trivial) ?_ hs
    rintro s a - hqa p rfl
    simpa [q] using hqa
  obtain ⟨hv, hpc, he⟩ := of_decide_eq_true hq
  have hstep : s.step (.change 1 fun _ => 1) =
      .ok { s with entry := fun _ => 1, changed := true } := by
    simp [LoadState.step, hpc]
  have hne : (fun _ => 1 : InodeEntry) ≠ s.entry := by
    rw [he]
    decide
  exact ⟨s, _, hs, hv, hstep, hne,
    (no_lost_inode_update s hs _ (by intro p hp; cases hp) _ hstep hne).1 hv⟩

/-- Process 0 has put the fresh inode into the list and not loaded it.  Process 1
finds it, locks it, loads it and changes it; then process 0 copies the entry from
the block: the inode was valid and locked by process 1, and its change is gone. -/
theorem inode_update_lost :
    ∃ s s', Runs.Reach LoadState.step Runs.always Init s ∧ s.valid = true ∧ s.lock = some 1 ∧
      s.changed = true ∧ s.entry = (fun _ => 1) ∧ s.step (.load 0) = .ok s' ∧
      s'.entry = Bytes.zero ∧ s'.entry ≠ s.entry := by
  obtain ⟨s, hs, hq⟩ := Runs.Reach.of_execTest start_init
    (show execTest LoadState.step start
      [.get 0 (fun _ => 7), .get 1 (fun _ => 7), .lock 1, .check 1, .lockLoad 1, .lockValid 1,
        .change 1 fun _ => 1]
      (fun s => s.valid ∧ s.lock = some 1 ∧ s.changed ∧ s.entry = (fun _ => 1) ∧
        s.pc 0 = .loading ∧ s.block = Bytes.zero) = true by decide)
  obtain ⟨hv, hl, hc, he, hpc, hb⟩ := of_decide_eq_true hq
  refine ⟨s, { s.goto 0 .loaded with entry := s.block }, hs, hv, hl, hc, he, ?_, hb, ?_⟩
  · simp [LoadState.step, hpc]
  · change s.block ≠ s.entry
    rw [hb, he]
    decide

end LoadState

end OsKernel
