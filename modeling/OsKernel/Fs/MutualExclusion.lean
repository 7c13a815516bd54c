import OsKernel.Fs.BlockLocks

/-!
# Mutual exclusion of the sleep locks

A lock protects what it should as long as a process goes on after
`acquire_sleeplock` only with the token, and no `Block` is freed while a process has
looked it up and not released it (`Safe`).  Then every lock has one token, at every
moment available or with one process (`Inv.use`).

`acquire_sleeplock` is an alertable wait, and its callers test its Boolean result
for being negative.  A killed process is not put to sleep, leaves the sleep list and
goes on without the token, and its release makes a second one
(`mutual_exclusion_fails`).
-/

namespace OsKernel

open Function List Actor BlockList

variable {k' : LockId} {p : Nat} {k : LockId} {w : Want} {pc : Pc} {A : Nat → Actor}
  {sb : SuperBlock} {s : LockSys}

namespace Pc

def wants : Pc → Option LockId
  | .take w | .asleep w => some w.lock
  | _ => none

/-- The lock on whose sleep list a process has been put. -/
def sleepsOn : Pc → Option LockId
  | .asleep w => some w.lock
  | _ => none

end Pc

namespace Actor

/-- The process is on the sleep list of `k`. -/
def Waits (q : Actor) (k : LockId) : Prop := q.pc.sleepsOn = some k ∧ q.up = false

/-- The process has been handed the token of `k` in its sleep. -/
def Handed (q : Actor) (k : LockId) : Prop := q.pc.sleepsOn = some k ∧ q.up = true

instance (q : Actor) (k : LockId) : Decidable (q.Handed k) :=
  inferInstanceAs (Decidable (_ ∧ _))

/-- The process has looked up what `k` protects and not released it. -/
def Engaged (q : Actor) (k : LockId) : Prop := q.pc.wants = some k ∨ k ∈ q.holds

instance (q : Actor) (k : LockId) : Decidable (q.Engaged k) :=
  inferInstanceAs (Decidable (_ ∨ _))

/-- How many tokens of `k` the process has. -/
def tokens (q : Actor) (k : LockId) : Nat := q.holds.count k + if q.Handed k then 1 else 0

section

variable {q : Actor} {k : LockId}

theorem not_waits (h : q.pc.sleepsOn = none) : ¬ q.Waits k := by
  rintro ⟨hs, -⟩
  rw [h] at hs
  cases hs

theorem tokens_of_awake (h : q.pc.sleepsOn = none) : q.tokens k = q.holds.count k := by
  have hnot : ¬ q.Handed k := by
    rintro ⟨hs, -⟩
    rw [h] at hs
    cases hs
  rw [tokens, if_neg hnot, Nat.add_zero]

theorem tokens_of_not_up (h : q.up = false) : q.tokens k = q.holds.count k := by
  have hnot : ¬ q.Handed k := by
    rintro ⟨-, hup⟩
    rw [h] at hup
    cases hup
  rw [tokens, if_neg hnot, Nat.add_zero]

theorem tokens_pos_of_mem (h : k ∈ q.holds) : 0 < q.tokens k :=
  Nat.add_pos_left (count_pos_iff.mpr h) _

theorem tokens_pos_of_handed (h : q.Handed k) : 0 < q.tokens k := by
  rw [tokens, if_pos h]
  exact Nat.succ_pos _

theorem engaged_of_tokens (h : 0 < q.tokens k) : q.Engaged k := by
  by_cases hh : q.Handed k
  · left
    cases hpc : q.pc with
    | asleep w => rw [Handed, hpc] at hh; exact hh.1
    | _ => rw [Handed, hpc] at hh; cases hh.1
  · rw [tokens, if_neg hh, Nat.add_zero, count_pos_iff] at h
    exact .inr h

theorem engaged_of_waits (h : q.Waits k) : q.Engaged k := by
  left
  cases hpc : q.pc with
  | asleep w => rw [Waits, hpc] at h; exact h.1
  | _ => rw [Waits, hpc] at h; cases h.1

end

end Actor

namespace LockSys

def Live (s : LockSys) : LockId → Prop
  | .block a => a ∈ s.blocks.head
  | .inode _ => True

structure Inv (s : LockSys) : Prop where
  distinct : (s.blocks.head.map fun a => (s.blocks.heap a).blockNo).Nodup
  live : ∀ p k, (s.actors p).Engaged k → s.Live k
  use : ∀ k, s.Live k →
    LockUse (s.sem k) (fun p => (s.actors p).Waits k) (fun p => (s.actors p).tokens k)
  unload : ∀ p i a, (s.actors p).pc = .unload i a → LockId.block a ∈ (s.actors p).holds

theorem Inv.of_init (h : s.Init) : s.Inv := by
  obtain ⟨hhead, -, hlock, hactors⟩ := h
  have hpc : ∀ p, (s.actors p).pc.sleepsOn = none := fun p => by
    rw [(hactors p).1]
    rfl
  refine ⟨?_, fun p k hk => ?_, fun k hk => ?_, fun p i a hp => ?_⟩
  · rw [hhead]
    exact nodup_nil
  · rcases hk with hk | hk
    · rw [(hactors p).1] at hk
      cases hk
    · rw [(hactors p).2.1] at hk
      cases hk
  · cases k with
    | block a =>
      rw [Live, hhead] at hk
      cases hk
    | inode i =>
      rw [sem, hlock i]
      refine .init (fun p => not_waits (hpc p)) fun p => ?_
      rw [tokens_of_awake (hpc p), (hactors p).2.1]
      rfl
  · rw [(hactors p).1] at hp
    cases hp

/-! ## What the parts of a step leave alone -/

variable {q : Actor}

section

variable {s s' : LockSys}

section

variable (s)

@[simp] theorem sem_setSem_self (k : LockId) (sem : Semaphore) : (s.setSem k sem).sem k = sem := by
  cases k with
  | block a => simp only [LockSys.sem, setSem, heap_update_self]
  | inode i => simp only [LockSys.sem, setSem, update_self]

theorem sem_setSem_of_ne (sem : Semaphore) (h : k' ≠ k) :
    (s.setSem k sem).sem k' = s.sem k' := by
  cases k with
  | block a =>
    cases k' with
    | block a' =>
      have ha : a' ≠ a := fun he => h (congrArg LockId.block he)
      simp only [LockSys.sem, setSem, heap_update_of_ne _ _ ha]
    | inode i' => rfl
  | inode i =>
    cases k' with
    | block a' => rfl
    | inode i' =>
      have hi : i' ≠ i := fun he => h (congrArg LockId.inode he)
      simp only [LockSys.sem, setSem, update_of_ne hi]

theorem sem_posted_self (k : LockId) (sem : Semaphore) : (s.posted k sem).sem k = sem := by
  cases k with
  | block a => simp only [LockSys.sem, posted, heap_update_self]
  | inode i => exact sem_setSem_self s (.inode i) sem

theorem sem_posted_of_ne (sem : Semaphore) (h : k' ≠ k) :
    (s.posted k sem).sem k' = s.sem k' := by
  cases k with
  | block a =>
    cases k' with
    | block a' =>
      have ha : a' ≠ a := fun he => h (congrArg LockId.block he)
      simp only [LockSys.sem, posted, heap_update_of_ne _ _ ha]
    | inode i' => rfl
  | inode i => exact sem_setSem_of_ne s sem h

theorem sem_readIn (w : Want) (k : LockId) : (s.readIn w).sem k = s.sem k := by
  unfold readIn
  split
  next a _ =>
    cases k with
    | block a' =>
      obtain rfl | ha := eq_or_ne a' a
      · simp only [sem, heap_update_self]
        split <;> rfl
      · exact congrArg Block.lock (heap_update_of_ne _ _ ha)
    | inode i => rfl
  next => rfl

theorem sem_locked (p : Nat) (w : Want) (k : LockId) :
    (s.locked p w).sem k = s.sem k := sem_readIn s w k

end

/-- The list has the same `Block`s with the same numbers. -/
structure Frame (s s' : LockSys) : Prop where
  head : s'.blocks.head.Perm s.blocks.head
  blockNo : ∀ a, (s'.blocks.heap a).blockNo = (s.blocks.heap a).blockNo

theorem Frame.of_blocks (h : s'.blocks = s.blocks) : Frame s s' := by
  refine ⟨?_, fun a => ?_⟩
  · rw [h]
  · rw [h]

theorem Frame.trans {s'' : LockSys} (h : Frame s s') (h' : Frame s' s'') : Frame s s'' :=
  ⟨h'.head.trans h.head, fun a => (h'.blockNo a).trans (h.blockNo a)⟩

variable {a : Nat} {sem : Semaphore} {c : Option Nat}

theorem Frame.update {f : Block → Block}
    (hf : (f (s.blocks.heap a)).blockNo = (s.blocks.heap a).blockNo) :
    Frame s { s with blocks := s.blocks.update a f } := by
  refine ⟨.refl _, fun a' => ?_⟩
  obtain rfl | ha := eq_or_ne a' a
  · rw [heap_update_self, hf]
  · rw [heap_update_of_ne _ _ ha]

theorem frame_setSem (s : LockSys) (k : LockId) (sem : Semaphore) : Frame s (s.setSem k sem) := by
  cases k with
  | block a => exact .update rfl
  | inode i => exact .of_blocks rfl

theorem frame_posted (s : LockSys) (k : LockId) (sem : Semaphore) : Frame s (s.posted k sem) := by
  cases k with
  | block a => exact .update rfl
  | inode i => exact .of_blocks rfl

theorem frame_readIn (s : LockSys) (w : Want) : Frame s (s.readIn w) := by
  unfold readIn
  split
  next =>
    refine .update ?_
    split <;> rfl
  next => exact .of_blocks rfl

theorem frame_locked (s : LockSys) (p : Nat) (w : Want) : Frame s (s.locked p w) :=
  (frame_readIn s w).trans (.of_blocks rfl)

theorem frame_hit (ha : a ∈ s.blocks.head) : Frame s { s with blocks := s.blocks.hit a } := by
  have hfront : Frame s { s with blocks := { s.blocks with head := a :: s.blocks.head.erase a } } :=
    ⟨(perm_cons_erase ha).symm, fun _ => rfl⟩
  exact hfront.trans (.update rfl)

theorem Frame.live (h : Frame s s') (k : LockId) : s'.Live k ↔ s.Live k := by
  cases k with
  | block a => exact h.head.mem_iff
  | inode i => exact Iff.rfl

theorem Frame.distinct (h : Frame s s')
    (hd : (s.blocks.head.map fun a => (s.blocks.heap a).blockNo).Nodup) :
    (s'.blocks.head.map fun a => (s'.blocks.heap a).blockNo).Nodup := by
  rw [funext h.blockNo]
  exact (h.head.map _).nodup_iff.mpr hd

@[simp] theorem actors_setSem (s : LockSys) (k : LockId) (sem : Semaphore) :
    (s.setSem k sem).actors = s.actors := by
  cases k <;> rfl

@[simp] theorem actors_posted (s : LockSys) (k : LockId) (sem : Semaphore) :
    (s.posted k sem).actors = s.actors := by
  cases k <;> rfl

/-! ## Steps -/

theorem Inv.of_frame (h : s.Inv) (hf : Frame s s') (k0 : LockId)
    (hsem : ∀ k, k ≠ k0 → s'.sem k = s.sem k)
    (hother : ∀ k, k ≠ k0 → ∀ p, ((s'.actors p).Waits k ↔ (s.actors p).Waits k) ∧
      (s'.actors p).tokens k = (s.actors p).tokens k)
    (huse : s.Live k0 → LockUse (s'.sem k0) (fun p => (s'.actors p).Waits k0)
      (fun p => (s'.actors p).tokens k0))
    (heng : ∀ p k, (s'.actors p).Engaged k → (s.actors p).Engaged k ∨ s.Live k)
    (hun : ∀ p i a, (s'.actors p).pc = .unload i a → LockId.block a ∈ (s'.actors p).holds) :
    s'.Inv := by
  refine ⟨hf.distinct h.distinct, fun p k hk => ?_, fun k hk => ?_, hun⟩
  · rw [hf.live]
    exact (heng p k hk).elim (h.live p k) id
  · rw [hf.live] at hk
    obtain rfl | he := eq_or_ne k k0
    · exact huse hk
    · rw [hsem k he]
      exact (h.use k hk).congr (fun p => (hother k he p).1) fun p => (hother k he p).2

theorem same_update (hq : (q.Waits k ↔ (A p).Waits k) ∧ q.tokens k = (A p).tokens k) :
    ∀ r, ((update A p q r).Waits k ↔ (A r).Waits k) ∧ (update A p q r).tokens k = (A r).tokens k := by
  rw [forall_update_iff A fun r x => (x.Waits k ↔ (A r).Waits k) ∧ x.tokens k = (A r).tokens k]
  exact ⟨hq, fun r _ => ⟨Iff.rfl, rfl⟩⟩

section

variable (h : s.Inv) (hf : Frame s s')

include h hf

/-- A step of process `p` that uses the lock `k₀`. -/
theorem Inv.uses (k0 : LockId)
    (hsem : ∀ k, k ≠ k0 → s'.sem k = s.sem k) (hact : s'.actors = update s.actors p q)
    (hq : ∀ k, k ≠ k0 → (q.Waits k ↔ (s.actors p).Waits k) ∧ q.tokens k = (s.actors p).tokens k)
    (huse : s.Live k0 → LockUse (s'.sem k0) (fun r => (update s.actors p q r).Waits k0)
      fun r => (update s.actors p q r).tokens k0)
    (heng : ∀ k, q.Engaged k → (s.actors p).Engaged k ∨ s.Live k)
    (hun : ∀ i a, q.pc = .unload i a → LockId.block a ∈ q.holds) : s'.Inv := by
  rw [← hact] at huse
  refine h.of_frame hf k0 hsem (fun k hk => ?_) huse ?_ ?_
  · rw [hact]
    exact same_update (hq k hk)
  · rw [hact, forall_update_iff s.actors
      fun r x => ∀ k, x.Engaged k → (s.actors r).Engaged k ∨ s.Live k]
    exact ⟨heng, fun r _ k hk => .inl hk⟩
  · rw [hact, forall_update_iff s.actors
      fun r x => ∀ i a, x.pc = .unload i a → LockId.block a ∈ x.holds]
    exact ⟨hun, fun r _ => h.unload r⟩

theorem Inv.quiet (hsem : ∀ k, s'.sem k = s.sem k) (hact : s'.actors = update s.actors p q)
    (hq : ∀ k, (q.Waits k ↔ (s.actors p).Waits k) ∧ q.tokens k = (s.actors p).tokens k)
    (heng : ∀ k, q.Engaged k → (s.actors p).Engaged k ∨ s.Live k)
    (hun : ∀ i a, q.pc = .unload i a → LockId.block a ∈ q.holds) : s'.Inv := by
  refine h.uses hf (.inode 0) (fun k _ => hsem k) hact (fun k _ => hq k) (fun hlive => ?_) heng hun
  rw [hsem]
  exact (h.use _ hlive).congr (fun r => (same_update (hq _) r).1) fun r => (same_update (hq _) r).2

theorem Inv.goto (hsem : ∀ k, s'.sem k = s.sem k)
    (hactors : s'.actors = s.actors) (hfrom : (s.actors p).pc.sleepsOn = none)
    (hto : pc.sleepsOn = none) (hwants : ∀ k, pc.wants = some k → s.Live k)
    (hun : ∀ i a, pc ≠ .unload i a) : (s'.goto p pc).Inv := by
  have hframe : Frame s (s'.goto p pc) := hf.trans (.of_blocks rfl)
  refine h.quiet hframe hsem (p := p)
    (q := { s.actors p with proc := (s.actors p).proc.run, pc := pc }) ?_ (fun k => ⟨?_, ?_⟩) (fun k hk => ?_) fun i a hpc => absurd hpc (hun i a)
  · simp only [LockSys.goto, setActor, hactors]
  · exact iff_of_false (not_waits hto) (not_waits hfrom)
  · rw [tokens_of_awake hto, tokens_of_awake hfrom]
  · rcases hk with hk | hk
    · exact .inr (hwants k hk)
    · exact .inl (.inr hk)

end

theorem sleepsOn_pcAfter (s : LockSys) (w : Want) : (s.pcAfter w).sleepsOn = none := by
  unfold pcAfter
  split <;> try rfl
  split <;> rfl

theorem wants_pcAfter (s : LockSys) (w : Want) : (s.pcAfter w).wants = none := by
  unfold pcAfter
  split <;> try rfl
  split <;> rfl

theorem lock_of_pcAfter {i : Nat} (h : s.pcAfter w = .unload i a) :
    w.lock = .block a := by
  unfold pcAfter at h
  split at h
  · cases h
  next hl _ =>
    cases h
    exact hl
  · split at h <;> cases h

/-- The process after `acquire_sleeplock` has one more lock and is awake. -/
def afterLock (s : LockSys) (p : Nat) (w : Want) : Actor :=
  { s.actors p with
    proc := (s.actors p).proc.run
    pc := s.pcAfter w
    holds := w.lock :: (s.actors p).holds }

theorem actors_locked (s : LockSys) (p : Nat) (w : Want) :
    (s.locked p w).actors = update s.actors p (s.afterLock p w) := by
  unfold locked setActor readIn
  split <;> rfl

section

variable {p : Nat} {w : Want}

theorem engaged_afterLock (hpc : (s.actors p).pc.wants = some w.lock)
    (hk : (s.afterLock p w).Engaged k) : (s.actors p).Engaged k := by
  rcases hk with hk | hk
  · rw [afterLock, wants_pcAfter] at hk
    cases hk
  · rcases mem_cons.mp hk with rfl | hk
    · exact .inl hpc
    · exact .inr hk

theorem unload_afterLock {i a : Nat} (h : (s.afterLock p w).pc = .unload i a) :
    LockId.block a ∈ (s.afterLock p w).holds := by
  have hl : w.lock = .block a := lock_of_pcAfter h
  exact mem_cons.mpr (.inl hl.symm)

theorem tokens_afterLock (k : LockId) :
    (s.afterLock p w).tokens k = (w.lock :: (s.actors p).holds).count k :=
  tokens_of_awake (sleepsOn_pcAfter s w)

end

theorem Inv.take (h : s.Inv) (hpc : (s.actors p).pc = .take w)
    (hs : (s.sem w.lock).waitSem p = (sem, true)) : ((s.setSem w.lock sem).locked p w).Inv := by
  have hsleeps : (s.actors p).pc.sleepsOn = none := by rw [hpc]; rfl
  have hwants : (s.actors p).pc.wants = some w.lock := by rw [hpc]; rfl
  have hactors : ((s.setSem w.lock sem).locked p w).actors =
      update s.actors p ((s.setSem w.lock sem).afterLock p w) := by
    rw [actors_locked, actors_setSem]
  have hholds : ((s.setSem w.lock sem).afterLock p w).holds = w.lock :: (s.actors p).holds := by
    simp only [afterLock, actors_setSem]
  have hawake := sleepsOn_pcAfter (s.setSem w.lock sem) w
  have hframe := (frame_setSem s w.lock sem).trans (frame_locked _ p w)
  refine h.uses hframe w.lock (fun k hk => ?_) hactors (fun k hk => ?_) (fun hlive => ?_)
    (fun k hk => .inl ?_) fun i a hu => unload_afterLock hu
  · rw [sem_locked, sem_setSem_of_ne s sem hk]
  · refine ⟨iff_of_false (not_waits hawake) (not_waits hsleeps), ?_⟩
    rw [tokens_of_awake hawake, tokens_of_awake hsleeps, hholds,
      count_cons_of_ne hk.symm]
  · obtain ⟨hzero, huse⟩ := (h.use w.lock hlive).take hs
    rw [sem_locked, sem_setSem_self]
    refine huse.congr (fun r => ?_) fun r => ?_
    · by_cases hr : r = p
      · rw [hr, update_self]
        exact iff_of_false (not_waits hawake) (not_waits hsleeps)
      · rw [update_of_ne hr]
    · by_cases hr : r = p
      · rw [tokens_of_awake hsleeps] at hzero
        rw [hr, update_self, update_self, tokens_of_awake hawake, hholds,
          count_cons_self, hzero]
      · rw [update_of_ne hr, update_of_ne hr]
  · have := engaged_afterLock (s := s.setSem w.lock sem) (by rw [actors_setSem]; exact hwants) hk
    rwa [actors_setSem] at this

theorem Inv.sleep (h : s.Inv)
    (hpc : (s.actors p).pc = .take w) (hs : (s.sem w.lock).waitSem p = (sem, false)) {proc : Proc} :
    ((s.setSem w.lock sem).setActor p
      { s.actors p with proc := proc, pc := .asleep w, up := false }).Inv := by
  have hsleeps : (s.actors p).pc.sleepsOn = none := by rw [hpc]; rfl
  have hactors : ((s.setSem w.lock sem).setActor p
      { s.actors p with proc := proc, pc := .asleep w, up := false }).actors =
      update s.actors p { s.actors p with proc := proc, pc := .asleep w, up := false } := by
    simp only [setActor, actors_setSem]
  have htokens : ∀ k, ({ s.actors p with proc := proc, pc := .asleep w, up := false } : Actor).tokens k =
      (s.actors p).tokens k := fun k => by
    rw [tokens_of_not_up rfl, tokens_of_awake hsleeps]
  have hframe : Frame s ((s.setSem w.lock sem).setActor p
      { s.actors p with proc := proc, pc := .asleep w, up := false }) :=
    (frame_setSem s w.lock sem).trans (.of_blocks rfl)
  refine h.uses hframe w.lock (fun k hk => ?_) hactors (fun k hk => ?_) (fun hlive => ?_)
    (fun k hk => .inl ?_) fun i a hu => by cases hu
  · exact sem_setSem_of_ne s sem hk
  · refine ⟨iff_of_false ?_ (not_waits hsleeps), htokens k⟩
    rintro ⟨hw, -⟩
    exact hk (Option.some.inj hw).symm
  · have huse := (h.use w.lock hlive).sleep hs (not_waits hsleeps) fun r => Iff.rfl
    have hsem := sem_setSem_self s w.lock sem
    refine (hsem.symm ▸ huse).congr (fun r => ?_) fun r => ?_
    · by_cases hr : r = p
      · rw [hr, update_self]
        exact iff_of_true ⟨rfl, rfl⟩ (.inl rfl)
      · rw [update_of_ne hr, or_iff_right hr]
    · by_cases hr : r = p
      · rw [hr, update_self, htokens]
      · rw [update_of_ne hr]
  · rcases hk with hk | hk
    · left
      rw [hpc]
      exact hk
    · exact .inr hk

theorem Inv.wake (h : s.Inv) (hpc : (s.actors p).pc = .asleep w) (hup : (s.actors p).up = true)
    (hs : (s.sem w.lock).wakeSem p (s.actors p).up = some sem) :
    ((s.setSem w.lock sem).locked p w).Inv := by
  have hsem : sem = s.sem w.lock := by
    rw [hup] at hs
    cases hs
    rfl
  have hawake := sleepsOn_pcAfter (s.setSem w.lock sem) w
  have hwants : (s.actors p).pc.wants = some w.lock := by rw [hpc]; rfl
  refine h.quiet ((frame_setSem s w.lock sem).trans (frame_locked _ p w)) (fun k => ?_)
    (p := p) (q := (s.setSem w.lock sem).afterLock p w) ?_ (fun k => ⟨iff_of_false ?_ ?_, ?_⟩)
    (fun k hk => ?_) fun i a hu => unload_afterLock hu
  · rw [sem_locked]
    by_cases hk : k = w.lock
    · rw [hk, sem_setSem_self, hsem]
    · rw [sem_setSem_of_ne s sem hk]
  · rw [actors_locked, actors_setSem]
  · exact not_waits hawake
  · rintro ⟨-, hn⟩
    rw [hup] at hn
    cases hn
  · rw [tokens_afterLock, actors_setSem, tokens, count_cons]
    simp only [Actor.Handed, hpc, Pc.sleepsOn, hup, Option.some.injEq, and_true, beq_iff_eq]
  · have := engaged_afterLock (s := s.setSem w.lock sem) (by rw [actors_setSem]; exact hwants) hk
    rw [actors_setSem] at this
    exact .inl this

variable {l : LockAct}

theorem Looks.sleepsOn {b : Nat} (h : Looks sb s l p b a c) : (s.actors p).pc.sleepsOn = none := by
  rcases h with ⟨-, hpc, -⟩ | ⟨i, -, hpc, -⟩ <;> rw [hpc] <;> rfl

theorem Inv.hit (h : s.Inv) (hpc : (s.actors p).pc.sleepsOn = none) (ha : a ∈ s.blocks.head) :
    ({ s with blocks := s.blocks.hit a }.goto p (.take ⟨.block a, false, c⟩)).Inv := by
  refine h.goto (frame_hit ha) (fun k => ?_) rfl hpc rfl (fun k hk => ?_) fun i a' hu => by cases hu
  · cases k with
    | block a' =>
      obtain rfl | he := eq_or_ne a' a
      · simp only [sem, heap_hit_self]
      · simp only [sem, heap_hit_of_ne _ he]
    | inode i => rfl
  · cases hk
    exact ha

/-- `cache_acquire(b)` frees no `Block` that a process has looked up and not
released. -/
def KeepsEngaged (s : LockSys) (b : Nat) : Prop :=
  s.blocks.findCachedBlock b = none → ∀ a ∈ s.blocks.head, a ∉ s.blocks.makeRoom.head →
    ∀ p, ¬ (s.actors p).Engaged (.block a)

theorem Inv.miss (h : s.Inv) {b : Nat}
    (hpc : (s.actors p).pc.sleepsOn = none) (hf : s.blocks.findCachedBlock b = none)
    (ha : a ∉ s.blocks.makeRoom.head) (hkeep : s.KeepsEngaged b) :
    ({ s with blocks := s.blocks.insertNew a b }.goto p (.take ⟨.block a, true, c⟩)).Inv := by
  have hmem : ∀ {r x}, (s.actors r).Engaged (.block x) → x ∈ s.blocks.makeRoom.head := by
    intro r x hx
    by_contra hn
    exact hkeep hf x (h.live r _ hx) hn r hx
  have hnew : ∀ r, ¬ (s.actors r).Engaged (.block a) := fun r hr => ha (hmem hr)
  have hlive : ∀ {r k}, (s.actors r).Engaged k →
      ({ s with blocks := s.blocks.insertNew a b }.goto p (.take ⟨.block a, true, c⟩)).Live k := by
    intro r k hk
    cases k with
    | block x => exact mem_cons_of_mem _ (hmem hk)
    | inode i => trivial
  have hto : (Pc.take ⟨.block a, true, c⟩).sleepsOn = none := rfl
  -- the process itself only moves, so the locks see the same waiters and tokens
  have hall := fun k => same_update (A := s.actors) (p := p) (k := k) (q := { s.actors p with
      proc := (s.actors p).proc.run, pc := .take ⟨.block a, true, c⟩ })
    ⟨iff_of_false (not_waits hto) (not_waits hpc),
      (tokens_of_awake hto).trans (tokens_of_awake hpc).symm⟩
  refine ⟨distinct_insertNew h.distinct hf ha, ?_, fun k hk => ?_, ?_⟩
  · refine (forall_update_iff s.actors fun r x => ∀ k, x.Engaged k →
      ({ s with blocks := s.blocks.insertNew a b }.goto p (.take ⟨.block a, true, c⟩)).Live k).mpr
      ⟨fun k hk => ?_, fun r _ k hk => hlive hk⟩
    rcases hk with hk | hk
    · cases hk
      exact mem_cons_self
    · exact hlive (.inr hk : (s.actors p).Engaged k)
  · refine LockUse.congr ?_ (fun r => (hall k r).1) fun r => (hall k r).2
    cases k with
    | inode i => exact h.use (.inode i) trivial
    | block x =>
      obtain rfl | hx := eq_or_ne x a
      · have hsem : ((s.blocks.insertNew x b).heap x).lock = .initSem 1 :=
          congrArg Block.lock (heap_push_self _ _ _)
        refine (congrArg (LockUse · _ _) hsem).mpr (.init (fun r hr => ?_) fun r => ?_)
        · exact hnew r (engaged_of_waits hr)
        · exact Nat.eq_zero_of_not_pos fun hpos => hnew r (engaged_of_tokens hpos)
      · have hx' := (mem_cons.mp hk).resolve_left hx
        have hsem : ((s.blocks.insertNew a b).heap x).lock = (s.blocks.heap x).lock := by
          rw [insertNew, heap_push_of_ne _ _ hx, heap_makeRoom]
        refine (congrArg (LockUse · _ _) hsem).mpr ?_
        exact h.use (.block x) (s.blocks.head_makeRoom_sublist.subset hx')
  · refine (forall_update_iff s.actors
      fun r x => ∀ i a, x.pc = .unload i a → LockId.block a ∈ x.holds).mpr ⟨?_, fun r _ => h.unload r⟩
    intro i a' hu
    cases hu

theorem Releases.spec (h : s.Inv) (hl : Releases s l p k pc) :
    (s.actors p).pc.sleepsOn = none ∧ k ∈ (s.actors p).holds ∧ pc.sleepsOn = none ∧
      pc.wants = none ∧ ∀ i a, pc ≠ .unload i a := by
  rcases hl with ⟨a, -, rfl, hpc, hk, rfl⟩ | ⟨i, a, -, rfl, hpc, rfl⟩ | ⟨i, -, rfl, hpc, hk, rfl⟩
  · exact ⟨by rw [hpc]; rfl, hk, rfl, rfl, fun _ _ hu => by cases hu⟩
  · exact ⟨by rw [hpc]; rfl, h.unload p i a hpc, rfl, rfl, fun _ _ hu => by cases hu⟩
  · exact ⟨by rw [hpc]; rfl, hk, rfl, rfl, fun _ _ hu => by cases hu⟩

/-- The process after it has released the lock `k`. -/
def afterRelease (s : LockSys) (p : Nat) (k : LockId) (pc : Pc) : Actor :=
  { s.actors p with
    proc := (s.actors p).proc.run
    pc := pc
    holds := (s.actors p).holds.erase k }

theorem actors_unlocked (s : LockSys) (p : Nat) (k : LockId) (sem : Semaphore) (w : Option Nat)
    (pc : Pc) : ((s.posted k sem).unlocked p k w pc).actors =
      grant (update s.actors p (s.afterRelease p k pc)) w := by
  simp only [unlocked, actors_posted, afterRelease]

theorem waits_granted (hq : q.Waits k) (k' : LockId) :
    ¬ q.granted.Waits k' ∧ q.granted.tokens k' = q.tokens k' + if k = k' then 1 else 0 := by
  constructor
  · rintro ⟨-, hup⟩
    cases hup
  · rw [tokens_of_not_up hq.2, tokens]
    simp only [Actor.Handed, granted, hq.1, Option.some.injEq, and_true]

section

variable {p : Nat} {k : LockId} {pc : Pc}

theorem tokens_afterRelease_of_ne (hfrom : (s.actors p).pc.sleepsOn = none)
    (hto : pc.sleepsOn = none) (hk : k' ≠ k) :
    (s.afterRelease p k pc).tokens k' = (s.actors p).tokens k' := by
  rw [tokens_of_awake hto, tokens_of_awake hfrom]
  exact count_erase_of_ne hk

theorem tokens_afterRelease_self (h : s.Inv) (hlive : s.Live k)
    (hfrom : (s.actors p).pc.sleepsOn = none) (hto : pc.sleepsOn = none) :
    (s.afterRelease p k pc).tokens k = 0 := by
  have hone := (h.use k hlive).one.tokens_le p
  rw [tokens_of_awake hfrom] at hone
  rw [tokens_of_awake hto]
  refine count_erase_self.trans ?_
  omega

theorem engaged_afterRelease (hto : pc.wants = none)
    (hk : (s.afterRelease p k pc).Engaged k') : (s.actors p).Engaged k' := by
  rcases hk with hk | hk
  · rw [afterRelease, hto] at hk
    cases hk
  · exact .inr (mem_of_mem_erase hk)

end

/-- The process `p` gives lock `k` back, and at most the token goes to a process that waits for it. -/
theorem Inv.releasing (h : s.Inv) {w : Option Nat}
    (hl : Releases s l p k pc)
    (hactors : ((s.posted k sem).unlocked p k w pc).actors = A) (hself : A p = s.afterRelease p k pc)
    (hother : ∀ r, r ≠ p → A r = s.actors r ∨ (s.actors r).Waits k ∧ A r = (s.actors r).granted)
    (huse : LockUse sem (fun r => (A r).Waits k) fun r => (A r).tokens k) :
    ((s.posted k sem).unlocked p k w pc).Inv := by
  obtain ⟨hfrom, -, hto, hwants, hun⟩ := hl.spec h
  refine h.of_frame ((frame_posted s k sem).trans (.of_blocks rfl)) k
    (fun k' hk' => sem_posted_of_ne s sem hk') (fun k' hk' r => ?_) (fun _ => ?_) (fun r k' hk' => ?_)
    fun r => ?_
  · rw [hactors]
    by_cases hr : r = p
    · rw [hr, hself]
      exact ⟨iff_of_false (not_waits hto) (not_waits hfrom),
        tokens_afterRelease_of_ne hfrom hto hk'⟩
    rcases hother r hr with he | ⟨hw, he⟩
    · rw [he]
      exact ⟨Iff.rfl, rfl⟩
    · rw [he, (waits_granted hw k').2, if_neg hk'.symm]
      exact ⟨iff_of_false (waits_granted hw k').1 fun hw' =>
        hk' (Option.some.inj (hw'.1.symm.trans hw.1)), rfl⟩
  · rw [hactors]
    exact (congrArg (LockUse · _ _) (sem_posted_self s k sem)).mpr huse
  · rw [hactors] at hk'
    by_cases hr : r = p
    · rw [hr, hself] at hk'
      exact .inl (hr ▸ engaged_afterRelease hwants hk')
    · rcases hother r hr with he | ⟨-, he⟩
      · exact .inl (he ▸ hk')
      · rw [he] at hk'
        exact .inl hk'
  · rw [hactors]
    by_cases hr : r = p
    · rw [hr, hself]
      exact fun i a hu => absurd hu (hun i a)
    · rcases hother r hr with he | ⟨-, he⟩
      · exact he ▸ h.unload r
      · rw [he]
        exact h.unload r

theorem Inv.release (h : s.Inv)
    {w : Option Nat} (hl : Releases s l p k pc) (hs : (s.sem k).postSem = some (sem, w)) :
    ((s.posted k sem).unlocked p k w pc).Inv := by
  obtain ⟨hfrom, hk, hto, -, -⟩ := hl.spec h
  have hlive := h.live p k (.inr hk)
  have huse := h.use k hlive
  have hwaits : (s.afterRelease p k pc).Waits k ↔ (s.actors p).Waits k :=
    iff_of_false (not_waits hto) (not_waits hfrom)
  have hnone := tokens_afterRelease_self h hlive hfrom hto
  have hactors := actors_unlocked s p k sem w pc
  rcases huse.post (tokens_pos_of_mem hk) hs with ⟨rfl, huse'⟩ | ⟨q, rfl, hq, huse'⟩
  · refine h.releasing hl hactors (update_self ..)
      (fun r hr => .inl (update_of_ne hr ..)) (huse'.congr (fun r => ?_) fun r => ?_)
    · rw [grant]
      by_cases hr : r = p
      · rwa [hr, update_self]
      · rw [update_of_ne hr]
    · rw [grant]
      by_cases hr : r = p
      · rwa [hr, update_self, update_self]
      · rw [update_of_ne hr, update_of_ne hr]
  · have hqp : q ≠ p := by
      rintro rfl
      exact not_waits hfrom hq
    have hzero := Nat.eq_zero_of_not_pos fun hpos =>
      hqp (huse.one.unique hpos (tokens_pos_of_mem hk))
    rw [grant, update_of_ne hqp] at hactors
    have hrest : ∀ r, r ≠ q → update (update s.actors p (s.afterRelease p k pc)) q
        (s.actors q).granted r = update s.actors p (s.afterRelease p k pc) r :=
      fun r hr => update_of_ne hr ..
    refine h.releasing hl hactors ((hrest p hqp.symm).trans (update_self ..))
      (fun r hr => ?_) (huse'.congr (fun r => ?_) fun r => ?_)
    · obtain rfl | hrq := eq_or_ne r q
      · exact .inr ⟨hq, update_self ..⟩
      · exact .inl ((hrest r hrq).trans (update_of_ne hr ..))
    · obtain rfl | hrq := eq_or_ne r q
      · rw [update_self]
        exact iff_of_false (waits_granted hq k).1 fun hw => hw.1 rfl
      · rw [hrest r hrq, and_iff_right hrq]
        by_cases hr : r = p
        · rwa [hr, update_self]
        · rw [update_of_ne hr]
    · obtain rfl | hrq := eq_or_ne r q
      · rw [update_self, (waits_granted hq k).2, if_pos rfl, hzero, update_self]
      · rw [hrest r hrq, update_of_ne hrq]
        by_cases hr : r = p
        · rwa [hr, update_self, update_self]
        · rw [update_of_ne hr, update_of_ne hr]

end

/-- A process goes on after a sleep only if it was handed the token, and no `Block`
is freed that a process has looked up and not released. -/
def Safe (sb : SuperBlock) (s : LockSys) : LockAct → Prop
  | .acquire _ b _ => s.KeepsEngaged b
  | .load p _ => ∀ i, (s.actors p).pc = .load i → s.KeepsEngaged (sb.toBlockNo (s.inodes i).inodeNo)
  | .wake p => (s.actors p).up = true
  | _ => True

section

variable {sb : SuperBlock} {s s' : LockSys} {l : LockAct}

theorem Safe.keepsEngaged {b a : Nat} {c : Option Nat} (h : Safe sb s l)
    (hl : Looks sb s l p b a c) : s.KeepsEngaged b := by
  rcases hl with ⟨rfl, -, -⟩ | ⟨i, rfl, hpc, rfl, -⟩
  · exact h
  · exact h i hpc

theorem Inv.step (h : s.Inv) (hs : LockStep sb s l s') (hok : Safe sb s l) : s'.Inv := by
  cases hs with
  | hit hl hf => exact h.hit hl.sleepsOn (mem_of_find hf).1
  | miss hl hf ha => exact h.miss hl.sleepsOn hf ha (hok.keepsEngaged hl)
  | inodeLock hpc =>
    refine h.goto (.of_blocks rfl) (fun _ => rfl) rfl (by rw [hpc]; rfl) rfl (fun k hk => ?_)
      fun _ _ hu => by cases hu
    cases hk
    trivial
  | take hpc hs => exact h.take hpc hs
  | sleep hpc hs => exact h.sleep hpc hs
  | wake hpc _ hs => exact h.wake hpc hok hs
  | release hl hs => exact h.release hl hs
  | @validate p i hpc =>
    have hframe : Frame s { s with
        inodes := update s.inodes i { s.inodes i with valid := true } } := .of_blocks rfl
    have hto : Pc.user.sleepsOn = none := rfl
    refine h.goto hframe (fun k => ?_) rfl (by rw [hpc]; rfl) hto (fun k hk => ?_)
      fun j a hu => ?_
    · cases k with
      | block a => rfl
      | inode j =>
        obtain rfl | hj := eq_or_ne j i
        · simp only [sem, update_self]
        · simp only [sem, update_of_ne hj]
    · cases hk
    · cases hu
  | @kill p =>
    exact h.quiet (.of_blocks rfl) (fun _ => rfl) rfl (fun _ => ⟨Iff.rfl, rfl⟩)
      (fun _ hk => .inl hk) (h.unload p)

theorem Inv.of_reach (h : ReachWhen sb (Safe sb) s) : s.Inv :=
  Runs.Reach.invariant (fun _ hs => .of_init hs)
    (fun _ _ _ hi hok hs => hi.step (LockStep.of_step hs) hok) h

theorem Inv.unique (h : s.Inv) {q : Nat} (hp : k ∈ (s.actors p).holds)
    (hq : k ∈ (s.actors q).holds) : p = q :=
  (h.use k (h.live p k (.inr hp))).one.unique (tokens_pos_of_mem hp)
    (tokens_pos_of_mem hq)

/-- The `Block`s of two locks that are held are the same if they have the same
number. -/
theorem Inv.eq_of_blockNo (h : s.Inv) {a a' : Nat} (ha : s.Live (.block a)) (ha' : s.Live (.block a'))
    (hno : (s.blocks.heap a).blockNo = (s.blocks.heap a').blockNo) : a = a' :=
  inj_on_of_nodup_map h.distinct ha ha' hno

end

/-- Mutual exclusion, whatever processes are killed.  In every run whose steps are
`Safe`, a lock (of an inode or of a `Block`) for which `acquire_sleeplock` has
returned has one holder until its release, so has the block with a given number,
and the value of the semaphore never exceeds 1. -/
theorem mutual_exclusion {sb : SuperBlock} {s : LockSys} (h : ReachWhen sb (Safe sb) s) :
    (∀ k p q, k ∈ (s.actors p).holds → k ∈ (s.actors q).holds → p = q) ∧
    (∀ p q a a', LockId.block a ∈ (s.actors p).holds → LockId.block a' ∈ (s.actors q).holds →
      (s.blocks.heap a).blockNo = (s.blocks.heap a').blockNo → p = q ∧ a = a') ∧
    (∀ k p, (s.actors p).holds.count k ≤ 1) ∧
    ∀ k, s.Live k → (s.sem k).val ≤ 1 := by
  have hinv := Inv.of_reach h
  refine ⟨fun k p q => hinv.unique, fun p q a a' hp hq hno => ?_, fun k p => ?_, fun k hk => ?_⟩
  · have ha : a = a' := hinv.eq_of_blockNo (hinv.live p _ (.inr hp)) (hinv.live q _ (.inr hq)) hno
    subst ha
    exact ⟨hinv.unique hp hq, rfl⟩
  · by_cases hk : k ∈ (s.actors p).holds
    · have hle := (hinv.use k (hinv.live p k (.inr hk))).one.tokens_le p
      exact (Nat.le_add_right _ _).trans hle
    · rw [count_eq_zero_of_not_mem hk]
      exact Nat.zero_le 1
  · exact (hinv.use k hk).one.le_one

/-- An empty cache and processes that are ready to run. -/
def boot : LockSys where
  blocks := ⟨fun _ => initBlock, [], 0⟩
  disk := fun _ => Bytes.zero
  inodes := fun i => ⟨i, .initSem 1, true⟩
  actors := fun _ => ⟨⟨false, .RUNNABLE⟩, .user, false, []⟩

theorem boot_init : boot.Init := ⟨rfl, rfl, fun _ => rfl, fun _ => ⟨rfl, rfl, rfl⟩⟩

/-- A test for steps that are `Safe` because the cache is not full. -/
def safe (s : LockSys) : LockAct → Bool
  | .acquire _ _ _ => decide (s.blocks.numCachedBlocks < EVICTION_THRESHOLD)
  | .wake p => (s.actors p).up
  | .load _ _ => false
  | _ => true

theorem Safe.of_test {l : LockAct} (h : s.safe l = true) :
    Safe sb s l := by
  cases l with
  | acquire p b a =>
    intro _ x hx hn
    have hroom : s.blocks.makeRoom = s.blocks := by
      rw [makeRoom, if_neg (Nat.not_le.mpr (of_decide_eq_true h))]
    rw [hroom] at hn
    exact absurd hx hn
  | load p a => cases h
  | wake p => exact h
  | inodeLock | wait | unload | validate | release | inodeUnlock | kill => trivial

/-- A process waits for block 5, is handed its lock and killed, and holds it. -/
theorem mutual_exclusion_handover : ∃ s, ReachWhen Mkfs.superBlock (Safe Mkfs.superBlock) s ∧
      LockId.block 0 ∈ (s.actors 1).holds ∧ (s.actors 1).proc.killed = true ∧
      (∀ q, LockId.block 0 ∈ (s.actors q).holds → q = 1) ∧ (s.sem (.block 0)).val ≤ 1 := by
  obtain ⟨s, hs, hw⟩ := Runs.Reach.of_execTest boot_init
    (show Runs.execTest (Runs.guarded (step Mkfs.superBlock) safe .disabled) boot
      [.acquire 0 5 0, .wait 0, .acquire 1 5 0, .wait 1, .release 0 0, .kill 1, .wake 1]
      (fun s => LockId.block 0 ∈ (s.actors 1).holds ∧ (s.actors 1).proc.killed = true ∧
        0 ∈ s.blocks.head) = true by decide +kernel)
  have hreach : ReachWhen Mkfs.superBlock (Safe Mkfs.superBlock) s :=
    Runs.Reach.of_guarded (fun _ _ => trivial) (fun _ _ _ => Safe.of_test) hs
  obtain ⟨hholds, hkilled, hmem⟩ := of_decide_eq_true hw
  obtain ⟨huniq, -, -, hval⟩ := mutual_exclusion hreach
  exact ⟨s, hreach, hholds, hkilled, fun q hq => huniq _ q 1 hq hholds, hval (.block 0) hmem⟩

/-- A process is killed and then acquires a block that another one holds: both hold
it, and when both have released it the semaphore has two tokens. -/
theorem mutual_exclusion_fails :
    (∃ s, ReachWhen Mkfs.superBlock Runs.always s ∧ LockId.block 0 ∈ (s.actors 0).holds ∧
      LockId.block 0 ∈ (s.actors 1).holds) ∧
    ∃ s, ReachWhen Mkfs.superBlock Runs.always s ∧ s.Live (.block 0) ∧
      (s.sem (.block 0)).val = 2 := by
  constructor
  · obtain ⟨s, hs, hw⟩ := Runs.Reach.of_execTest boot_init
      (show Runs.execTest (step Mkfs.superBlock) boot
        [.acquire 0 5 0, .wait 0, .kill 1, .acquire 1 5 0, .wait 1, .wake 1]
        (fun s => LockId.block 0 ∈ (s.actors 0).holds ∧ LockId.block 0 ∈ (s.actors 1).holds) = true by
        decide +kernel)
    exact ⟨s, hs, of_decide_eq_true hw⟩
  obtain ⟨s, hs, hw⟩ := Runs.Reach.of_execTest boot_init
    (show Runs.execTest (step Mkfs.superBlock) boot
      [.acquire 0 5 0, .wait 0, .kill 1, .acquire 1 5 0, .wait 1, .wake 1, .release 1 0,
        .release 0 0]
      (fun s => 0 ∈ s.blocks.head ∧ (s.sem (.block 0)).val = 2) = true by decide +kernel)
  obtain ⟨hmem, hval⟩ := of_decide_eq_true hw
  exact ⟨s, hs, hmem, hval⟩

end LockSys

end OsKernel
