import OsKernel.Lib.Runs
import OsKernel.Fs.Commit

/-!
# Single-threaded use of the cache

A caller makes a sequence of calls on the cache, with any number of atomic
operations open at a time.  It acquires a block only while it does not hold it,
changes, syncs and releases only blocks it holds, and releases no block with a
change it has not synced.

Beside the cache the state records what the caller knows: the `Block` it holds
for each block number, the blocks changed since their last sync, the contents of
each block when it was last synced (at first those on the device), the running
contexts, the device as it was when the first of them began, and the block and
data that the last call, if it was `cache_acquire`, returned.
-/

namespace OsKernel

open Prog Cache Function
open Runs (Stop)

structure Client where
  cache : Cache
  holds : Nat → Option Nat
  dirty : Nat → Bool
  synced : Nat → Data
  running : List Nat
  groupDisk : Nat → Data
  returned : Option (Nat × Data)

inductive Call where
  | acquire (b : Nat)
  | modify (b : Nat) (d : Data)
  /-- `cache_sync`, with `none` for a `NULL` context. -/
  | sync (c : Option Nat) (b : Nat)
  | release (b : Nat)
  | beginOp (c : Nat)
  | endOp (c : Nat)

namespace Client

/-- Go on with the result of a call that returned. -/
def after {α : Type} (r : Except Halt α × Cache) (f : α → Cache → Client) : Except Stop Client :=
  match r with
  | (.ok a, s) => .ok (f a s)
  | (.error _, _) => .error .panic

/-- A call of `cache_acquire`.  Block numbers are of type `usize`. -/
def acquire (st : Client) (b : Nat) : Except Stop Client :=
  if st.holds b = none ∧ b < 2 ^ 64 then
    after ((cacheAcquire b).exec st.cache) fun a s =>
      { st with
        cache := s
        holds := update st.holds b (some a)
        returned := some (b, (s.heap a).data) }
  else .error .disabled

def sync (st : Client) (c : Option Nat) (b a : Nat) : Except Stop Client :=
  if ∀ c' ∈ c, c' ∈ st.running then
    after ((cacheSync c a).exec st.cache) fun _ s =>
      { st with
        cache := s
        dirty := update st.dirty b false
        synced := update st.synced b (s.heap a).data
        returned := none }
  else .error .disabled

def beginOp (st : Client) (c : Nat) : Except Stop Client :=
  if c ∈ st.running then .error .disabled
  else
    after ((cacheBeginOp c).exec st.cache) fun _ s =>
      { st with
        cache := s
        running := c :: st.running
        groupDisk := if st.running = [] then st.cache.disk else st.groupDisk
        returned := none }

def endOp (sb : SuperBlock) (st : Client) (c : Nat) : Except Stop Client :=
  if c ∈ st.running then
    after ((cacheEndOp sb).exec st.cache) fun _ s =>
      { st with cache := s, running := st.running.erase c, returned := none }
  else .error .disabled

def step (sb : SuperBlock) (st : Client) : Call → Except Stop Client
  | .acquire b => st.acquire b
  | .modify b d =>
    match st.holds b with
    | some a =>
      .ok { st with
        cache := st.cache.setData a d
        dirty := update st.dirty b true
        returned := none }
    | none => .error .disabled
  | .sync c b =>
    match st.holds b with
    | some a => st.sync c b a
    | none => .error .disabled
  | .release b =>
    match st.holds b with
    | some a =>
      if st.dirty b then .error .disabled
      else
        after ((cacheRelease a).exec st.cache) fun _ s =>
          { st with cache := s, holds := update st.holds b none, returned := none }
    | none => .error .disabled
  | .beginOp c => st.beginOp c
  | .endOp c => st.endOp sb c

end Client

/-- The caller after `init_bcache` has left the cache `s`. -/
def Client.boot (s : Cache) (d : Nat → Data) : Client where
  cache := s
  holds := fun _ => none
  dirty := fun _ => false
  synced := d
  running := []
  groupDisk := d
  returned := none

namespace Client

/-- A run starts with `init_bcache` on a device with an empty log. -/
def Init (sb : SuperBlock) (st : Client) : Prop :=
  ∃ d s, (LogHeader.ofData (d sb.logStart)).numBlocks = 0 ∧
    (initBcache sb).exec (powerOn d) = (.ok (), s) ∧ st = boot s d

theorem boot_init (sb : SuperBlock) (d : Nat → Data)
    (h : (LogHeader.ofData (d sb.logStart)).numBlocks = 0) :
    Init sb (boot (rebooted sb (powerOn d)) d) :=
  ⟨d, _, h, exec_initBcache_empty (s := powerOn d) h, rfl⟩

/-- The calls of an operation that fills block 100 with ones. -/
def fillBlock (c : Nat) : List Call :=
  [.beginOp c, .acquire 100, .modify 100 (fun _ => 1), .sync (some c) 100, .release 100, .endOp c]

/-- The states of all runs whose calls meet `ok`. -/
def ReachWhen (sb : SuperBlock) (ok : Client → Call → Prop) : Client → Prop :=
  Runs.Reach (step sb) ok (Init sb)

/-! ## What a call does -/

theorem after_eq_ok {α : Type} {r : Except Halt α × Cache} {f : α → Cache → Client} {st : Client}
    (h : after r f = .ok st) : ∃ a s, r = (.ok a, s) ∧ st = f a s := by
  unfold after at h
  split at h
  next a s => exact ⟨a, s, rfl, by cases h; rfl⟩
  next => cases h

/-- The calls that return, with what they start from. -/
inductive ClientStep (sb : SuperBlock) (st : Client) : Call → Client → Prop where
  | acquire {b a : Nat} {s : Cache} : st.holds b = none → b < 2 ^ 64 →
      (cacheAcquire b).exec st.cache = (.ok a, s) →
      ClientStep sb st (.acquire b) { st with
        cache := s
        holds := update st.holds b (some a)
        returned := some (b, (s.heap a).data) }
  | modify {b a : Nat} {d : Data} : st.holds b = some a → ClientStep sb st (.modify b d) { st with
        cache := st.cache.setData a d
        dirty := update st.dirty b true
        returned := none }
  | syncCtx {c b a : Nat} {s : Cache} : st.holds b = some a → c ∈ st.running →
      (cacheSync (some c) a).exec st.cache = (.ok (), s) →
      ClientStep sb st (.sync (some c) b) { st with
        cache := s
        dirty := update st.dirty b false
        synced := update st.synced b (s.heap a).data
        returned := none }
  | syncNull {b a : Nat} : st.holds b = some a → ClientStep sb st (.sync none b) { st with
        cache := st.cache.syncNull a
        dirty := update st.dirty b false
        synced := update st.synced b (st.cache.heap a).data
        returned := none }
  | release {b a : Nat} {s : Cache} : st.holds b = some a → st.dirty b = false →
      (cacheRelease a).exec st.cache = (.ok (), s) →
      ClientStep sb st (.release b) { st with
        cache := s
        holds := update st.holds b none
        returned := none }
  | beginOp {c : Nat} {s : Cache} : c ∉ st.running → (cacheBeginOp c).exec st.cache = (.ok (), s) →
      ClientStep sb st (.beginOp c) { st with
        cache := s
        running := c :: st.running
        groupDisk := if st.running = [] then st.cache.disk else st.groupDisk
        returned := none }
  | endOp {c : Nat} {s : Cache} : c ∈ st.running → (cacheEndOp sb).exec st.cache = (.ok (), s) →
      ClientStep sb st (.endOp c) { st with
        cache := s
        running := st.running.erase c
        returned := none }

theorem ClientStep.of_step {sb : SuperBlock} {st st' : Client} {a : Call}
    (h : step sb st a = .ok st') : ClientStep sb st a st' := by
  cases a with
  | acquire b =>
    obtain ⟨hb, h⟩ := Runs.guard_ok h
    obtain ⟨a, s, hexec, rfl⟩ := after_eq_ok h
    exact .acquire hb.1 hb.2 hexec
  | modify b d =>
    simp only [step] at h
    split at h
    next hb =>
      cases h
      exact .modify hb
    next => cases h
  | sync c b =>
    simp only [step] at h
    split at h
    next hb =>
      obtain ⟨hc, h⟩ := Runs.guard_ok h
      obtain ⟨_, s, hexec, rfl⟩ := after_eq_ok h
      cases c with
      | none =>
        cases hexec
        exact .syncNull hb
      | some c => exact .syncCtx hb (hc c rfl) hexec
    next => cases h
  | release b =>
    simp only [step] at h
    split at h
    next hb =>
      split at h
      next => cases h
      next hd =>
        obtain ⟨_, s, hexec, rfl⟩ := after_eq_ok h
        exact .release hb (Bool.eq_false_iff.mpr hd) hexec
    next => cases h
  | beginOp c =>
    simp only [step, Client.beginOp] at h
    split at h
    next => cases h
    next hc =>
      obtain ⟨_, s, hexec, rfl⟩ := after_eq_ok h
      exact .beginOp hc hexec
  | endOp c =>
    obtain ⟨hc, h⟩ := Runs.guard_ok h
    obtain ⟨_, s, hexec, rfl⟩ := after_eq_ok h
    exact .endOp hc hexec

/-! ## The invariant of every run -/

/-- Between calls the cache is well formed with the logged blocks pinned, the
caller holds what it thinks it holds, and a logged block has the contents it was
last synced with unless it has been changed since. -/
structure Inv (st : Client) : Prop where
  wf : st.cache.WF st.cache.header.logged
  nodup : st.cache.header.logged.Nodup
  small : ∀ b ∈ st.cache.header.logged, b < 2 ^ 64
  room : st.cache.header.numBlocks ≤ LOG_MAX_SIZE
  sem : st.cache.log.opSem.WF
  idle : st.cache.log.checkpointing = false
  count : st.cache.log.runningOps = st.running.length
  holds : ∀ b a, st.holds b = some a ↔ st.cache.Held a ∧ (st.cache.heap a).blockNo = b
  held : ∀ b, st.holds b ≠ none → b < 2 ^ 64
  dirty : ∀ b, st.dirty b = true → st.holds b ≠ none
  logged : ∀ b ∈ st.cache.header.logged, st.dirty b = true ∨ st.cache.contents b = st.synced b

theorem Inv.of_init {sb : SuperBlock} {st : Client} (h : Init sb st) : st.Inv := by
  obtain ⟨d, s, h0, hexec, rfl⟩ := h
  rw [exec_initBcache_empty (s := powerOn d) h0] at hexec
  cases hexec
  have hnil : (rebooted sb (powerOn d)).header.logged = [] := LogHeader.logged_eq_nil h0
  have h0' : (rebooted sb (powerOn d)).header.numBlocks = 0 := h0
  refine ⟨?_, ?_, ?_, ?_, .init (Int.le_refl 0), rfl, rfl, fun b a => ?_, fun b hb => absurd rfl hb,
    fun b hb => Bool.noConfusion hb, ?_⟩
  · show (rebooted sb (powerOn d)).WF (rebooted sb (powerOn d)).header.logged
    rw [hnil]
    exact BlockList.WF.nil _ _
  · show (rebooted sb (powerOn d)).header.logged.Nodup
    rw [hnil]
    exact List.nodup_nil
  · show ∀ b ∈ (rebooted sb (powerOn d)).header.logged, _
    rw [hnil]
    exact fun b hb => by cases hb
  · show (rebooted sb (powerOn d)).header.numBlocks ≤ _
    rw [h0']
    exact Nat.zero_le _
  · constructor
    · intro hb
      cases hb
    · rintro ⟨⟨ha, -⟩, -⟩
      cases ha
  · show ∀ b ∈ (rebooted sb (powerOn d)).header.logged, _
    rw [hnil]
    exact fun b hb => by cases hb

section

variable {st : Client}

variable {b a c : Nat} {s : Cache} {sb : SuperBlock}

section

variable (h : st.Inv)

include h

theorem Inv.held_of_holds (hb : st.holds b = some a) : st.cache.Held a := ((h.holds b a).mp hb).1

theorem Inv.blockNo_of_holds (hb : st.holds b = some a) :
    (st.cache.heap a).blockNo = b := ((h.holds b a).mp hb).2

section

variable (hb : st.holds b = none)

include hb

theorem Inv.free_of_holds : st.cache.Free b := by
  intro a ha hno
  have hsome := (h.holds b a).mpr ⟨ha, hno⟩
  rw [hb] at hsome
  cases hsome

theorem Inv.dirty_of_free : st.dirty b = false :=
  Bool.eq_false_iff.mpr fun hd => h.dirty b hd hb

theorem Inv.logged_of_free
    (hl : b ∈ st.cache.header.logged) : st.cache.contents b = st.synced b := by
  refine (h.logged b hl).resolve_left fun hd => ?_
  rw [h.dirty_of_free hb] at hd
  cases hd

theorem Inv.acquire (hlt : b < 2 ^ 64) (hacq : Acquired st.cache st.cache.header.logged b a s) :
    Inv { st with
      cache := s
      holds := update st.holds b (some a)
      returned := some (b, (s.heap a).data) } := by
  have hh := hacq.rest.header
  have hl : s.log = st.cache.log := hacq.rest.log
  constructor <;> dsimp only <;> (try rw [hh]) <;> (try rw [hl])
  case wf => exact hacq.wf
  case nodup => exact h.nodup
  case small => exact h.small
  case room => exact h.room
  case sem => exact h.sem
  case idle => exact h.idle
  case count => exact h.count
  case holds =>
    intro b' a'
    rw [hacq.held_iff]
    obtain rfl | hbb := eq_or_ne b' b
    · rw [update_self]
      constructor
      · rintro ⟨⟩
        exact ⟨Or.inl rfl, hacq.no⟩
      · rintro ⟨rfl | ha', hno⟩
        · rfl
        · rw [hacq.heap_of_held ha'] at hno
          exact absurd hno (h.free_of_holds hb a' ha')
    · rw [update_of_ne hbb, h.holds]
      constructor
      · rintro ⟨ha', hno⟩
        exact ⟨Or.inr ha', by rw [hacq.heap_of_held ha', hno]⟩
      · rintro ⟨rfl | ha', hno⟩
        · exact absurd (hno.symm.trans hacq.no) hbb
        · exact ⟨ha', by rw [← hacq.heap_of_held ha', hno]⟩
  case held =>
    intro b' hb'
    by_cases hbb : b' = b
    · rw [hbb]
      exact hlt
    · rw [update_of_ne hbb] at hb'
      exact h.held b' hb'
  case dirty =>
    intro b' hd
    by_cases hbb : b' = b
    · rw [hbb, update_self]
      exact Option.some_ne_none a
    · rw [update_of_ne hbb]
      exact h.dirty b' hd
  case logged =>
    intro b' hb'
    rw [(hacq.keeps h.wf (h.wf.stable_of_pinned hb')).contents]
    exact h.logged b' hb'

end

theorem Inv.modify (hb : st.holds b = some a) (d : Data) : Inv { st with
      cache := st.cache.setData a d
      dirty := update st.dirty b true
      returned := none } := by
  have hno := h.blockNo_of_holds hb
  have hnos : ∀ a', ((st.cache.setData a d).heap a').blockNo = (st.cache.heap a').blockNo := by
    intro a'
    by_cases ha : a' = a
    · rw [ha, heap_setData_self]
    · rw [heap_setData_of_ne _ d ha]
  refine ⟨h.wf.setData (h.held_of_holds hb).1 d, h.nodup, h.small, h.room, h.sem, h.idle, h.count,
    fun b' a' => ?_, h.held, fun b' hd => ?_, fun b' hb' => ?_⟩ <;> dsimp only at *
  · rw [held_setData, hnos]
    exact h.holds b' a'
  · by_cases hbb : b' = b
    · rw [hbb, hb]
      exact Option.some_ne_none a
    · rw [update_of_ne hbb] at hd
      exact h.dirty b' hd
  · by_cases hbb : b' = b
    · left
      rw [hbb, update_self]
    · rw [update_of_ne hbb, setData, contents_onBlock_of_ne rfl (hno.symm ▸ hbb)]
      exact h.logged b' hb'

/-- After a sync of the block `b`, held at `a`. -/
abbrev afterSync (st : Client) (b a : Nat) (s : Cache) : Client :=
  { st with
    cache := s
    dirty := update st.dirty b false
    synced := update st.synced b (s.heap a).data
    returned := none }

section

variable (hb : st.holds b = some a)

include hb

/-- A sync of a held block, with the `Block`s left as they are apart from `pinned`. -/
theorem Inv.synced (hwf : s.WF s.header.logged) (hnd : s.header.logged.Nodup)
    (hroom : s.header.numBlocks ≤ LOG_MAX_SIZE) (hlog : s.log = st.cache.log)
    (hmem : ∀ x ∈ s.header.logged, x = b ∨ x ∈ st.cache.header.logged)
    (hheld : ∀ a', s.Held a' ↔ st.cache.Held a')
    (hno : ∀ a', (s.heap a').blockNo = (st.cache.heap a').blockNo)
    (hcont : ∀ x, s.contents x = st.cache.contents x) : Inv (st.afterSync b a s) := by
  have ha : s.Held a := (hheld a).mpr (h.held_of_holds hb)
  have hab := (hno a).trans (h.blockNo_of_holds hb)
  constructor <;> dsimp only <;> (try rw [hlog])
  case wf => exact hwf
  case nodup => exact hnd
  case small =>
    intro x hx
    rcases hmem x hx with rfl | hx
    · exact h.held x (by rw [hb]; exact Option.some_ne_none a)
    · exact h.small x hx
  case room => exact hroom
  case sem => exact h.sem
  case idle => exact h.idle
  case count => exact h.count
  case holds =>
    intro b' a'
    rw [hheld, hno]
    exact h.holds b' a'
  case held => exact h.held
  case dirty =>
    intro x hd
    by_cases hxb : x = b
    · rw [hxb, update_self] at hd
      cases hd
    · rw [update_of_ne hxb] at hd
      exact h.dirty x hd
  case logged =>
    intro x hx
    by_cases hxb : x = b
    · right
      rw [hxb, update_self, ← hab, contents_of_mem hwf ha.1]
    · rw [update_of_ne hxb, update_of_ne hxb, hcont]
      exact h.logged x ((hmem x hx).resolve_left hxb)

theorem Inv.syncCtx
    (hexec : (cacheSync (some c) a).exec st.cache = (.ok (), s)) : Inv (st.afterSync b a s) := by
  obtain ⟨hd, ctx, hlog, rfl⟩ := cacheSync_some hexec
  have ha := (h.held_of_holds hb).1
  have hno := h.blockNo_of_holds hb
  have hmem := mem_of_syncLog hlog
  refine h.synced hb (h.wf.pin ha hmem) (nodup_of_syncLog hlog h.nodup)
    (room_of_syncLog hlog h.room) rfl (fun x hx => ?_) (fun a' => ?_)
    (fun a' => blockNo_pin a') (fun x => ?_)
  · rw [← hno]
    exact (hmem x).mp hx
  · exact held_pin
  · exact contents_onBlock (f := fun blk => { blk with pinned := true }) h.wf ha rfl rfl x

theorem Inv.syncNull : Inv (st.afterSync b a (st.cache.syncNull a)) :=
  h.synced hb h.wf h.nodup h.room rfl (fun _ hx => Or.inr hx)
    (fun _ => Iff.rfl) (fun _ => rfl) (contents_deviceWrite (h.held_of_holds hb).1 rfl _)

theorem Inv.release (hd : st.dirty b = false) : Inv { st with
      cache := st.cache.released a
      holds := update st.holds b none
      returned := none } := by
  have ha := h.held_of_holds hb
  have hno := h.blockNo_of_holds hb
  have hne : ∀ {b' a'}, st.holds b' = some a' → b' ≠ b → a' ≠ a := by
    rintro b' a' hb' hbb rfl
    exact hbb ((h.blockNo_of_holds hb').symm.trans hno)
  refine ⟨h.wf.release ha.1, h.nodup, h.small, h.room, h.sem, h.idle, h.count, fun b' a' => ?_,
    fun b' hb' => ?_, fun b' hd' => ?_, fun b' hb' => ?_⟩ <;> dsimp only at *
  · rw [held_released]
    obtain rfl | hbb := eq_or_ne b' b
    · rw [update_self]
      constructor
      · intro hn
        cases hn
      · rintro ⟨⟨hna, ha'⟩, hno'⟩
        rw [heap_released_of_ne _ hna] at hno'
        exact absurd (BlockList.WF.eq_of_blockNo h.wf ha'.1 ha.1 (hno'.trans hno.symm)) hna
    · rw [update_of_ne hbb]
      constructor
      · intro hb'
        have hna := hne hb' hbb
        rw [heap_released_of_ne _ hna]
        exact ⟨⟨hna, h.held_of_holds hb'⟩, h.blockNo_of_holds hb'⟩
      · rintro ⟨⟨hna, ha'⟩, hno'⟩
        rw [heap_released_of_ne _ hna] at hno'
        exact (h.holds b' a').mpr ⟨ha', hno'⟩
  · by_cases hbb : b' = b
    · rw [hbb, update_self] at hb'
      exact absurd rfl hb'
    · rw [update_of_ne hbb] at hb'
      exact h.held b' hb'
  · by_cases hbb : b' = b
    · rw [hbb, hd] at hd'
      cases hd'
    · rw [update_of_ne hbb]
      exact h.dirty b' hd'
  · rw [Cache.released, contents_onBlock h.wf ha.1 rfl rfl]
    exact h.logged b' hb'

end

theorem Inv.beginOp {d : Nat → Data} (hexec : (cacheBeginOp c).exec st.cache = (.ok (), s)) :
    Inv { st with cache := s, running := c :: st.running, groupDisk := d, returned := none } := by
  obtain ⟨-, rfl⟩ := cacheBeginOp_ok hexec
  exact ⟨h.wf, h.nodup, h.small, h.room, h.sem, h.idle, congrArg (· + 1) h.count, h.holds, h.held,
    h.dirty, h.logged⟩

theorem Inv.pos (hc : c ∈ st.running) : 0 < st.cache.log.runningOps := by
  rw [h.count]
  exact List.length_pos_of_mem hc

theorem Inv.ready
    (hout : ∀ b ∈ st.cache.header.logged, ¬ (logLayout sb).Area st.cache.header.numBlocks b) :
    Ready sb (lastEnded st.cache) := ⟨h.wf, h.nodup, hout⟩

theorem Inv.endOp_cases (hc : c ∈ st.running)
    (hout : st.cache.log.runningOps = 1 → ∀ b ∈ st.cache.header.logged,
      ¬ (logLayout sb).Area st.cache.header.numBlocks b)
    (hexec : (cacheEndOp sb).exec st.cache = (.ok (), s)) :
    (∃ sem : Semaphore, sem.WF ∧ st.cache.log.runningOps ≠ 1 ∧ s = { st.cache with
        log := { st.cache.log with runningOps := st.cache.log.runningOps - 1, opSem := sem } }) ∨
    (st.cache.log.runningOps = 1 ∧ Checkpointed sb (lastEnded st.cache) s) := by
  have hpos := h.pos hc
  by_cases hlast : st.cache.log.runningOps = 1
  · right
    refine ⟨hlast, ?_⟩
    rw [exec_cacheEndOp_last sb h.idle (by omega)] at hexec
    rcases doCheckpoint_spec (h.ready (hout hlast)) h.sem with ⟨s', he, hck⟩ | ⟨s', e, he, -⟩
    · cases hexec.symm.trans he
      exact hck
    · cases hexec.symm.trans he
  · left
    obtain ⟨sem, hwf, he⟩ := exec_cacheEndOp_other sb h.idle h.sem (by omega)
    refine ⟨sem, hwf, hlast, ?_⟩
    cases hexec.symm.trans he
    rfl

theorem Inv.endOther (hc : c ∈ st.running) {sem : Semaphore} (hsem : sem.WF) : Inv { st with
      cache := { st.cache with
        log := { st.cache.log with runningOps := st.cache.log.runningOps - 1, opSem := sem } }
      running := st.running.erase c
      returned := none } := by
  refine ⟨h.wf, h.nodup, h.small, h.room, hsem, h.idle, ?_, h.holds, h.held, h.dirty, h.logged⟩
  rw [List.length_erase_of_mem hc, h.count]

theorem Inv.endLast (hc : c ∈ st.running) (hck : Checkpointed sb (lastEnded st.cache) s) :
    Inv { st with cache := s, running := st.running.erase c, returned := none } := by
  have hnum : s.header.numBlocks = 0 := by rw [hck.header, LogHeader.numBlocks_clear]
  have hnil : s.header.logged = [] := LogHeader.logged_eq_nil hnum
  have hlog := hck.log
  constructor <;> dsimp only <;> (try rw [hnil])
  case wf => exact hck.wf
  case nodup => exact List.nodup_nil
  case small => exact fun b hb => absurd hb List.not_mem_nil
  case room =>
    rw [hnum]
    exact Nat.zero_le _
  case sem =>
    rw [hlog]
    exact .init (Int.le_max_right _ _)
  case idle => rw [hlog]
  case count =>
    rw [hlog, List.length_erase_of_mem hc, ← h.count]
    rfl
  case holds =>
    intro b a
    rw [h.holds, (hck.held a).1]
    refine and_congr_right fun ha => ?_
    rw [(hck.held a).2 ha]
    rfl
  case held => exact h.held
  case dirty => exact h.dirty
  case logged => exact fun b hb => absurd hb List.not_mem_nil

end

/-- The last `cache_end_op` of a group is made with the logged blocks outside the
header block and the slots that the checkpoint uses. -/
def LastOutside (sb : SuperBlock) (st : Client) (call : Call) : Prop :=
  ∀ c, call = .endOp c → st.cache.log.runningOps = 1 → ∀ b ∈ st.cache.header.logged,
    ¬ (logLayout sb).Area st.cache.header.numBlocks b

theorem Inv.step (h : st.Inv) {call : Call} {st' : Client}
    (hs : ClientStep sb st call st') (hok : LastOutside sb st call) : st'.Inv := by
  cases hs with
  | acquire hb hlt hexec =>
    obtain ⟨a, s, he, hacq⟩ := cacheAcquire_free h.wf (h.free_of_holds hb)
    cases hexec.symm.trans he
    exact h.acquire hb hlt hacq
  | modify hb => exact h.modify hb _
  | syncCtx hb _ hexec => exact h.syncCtx hb hexec
  | syncNull hb => exact h.syncNull hb
  | release hb hd hexec =>
    cases hexec.symm.trans (exec_cacheRelease h.wf (h.held_of_holds hb))
    exact h.release hb hd
  | beginOp _ hexec => exact h.beginOp hexec
  | endOp hc hexec =>
    rcases h.endOp_cases hc (hok _ rfl) hexec with ⟨sem, hsem, -, rfl⟩ | ⟨-, hck⟩
    · exact h.endOther hc hsem
    · exact h.endLast hc hck

end

end Client

end OsKernel
