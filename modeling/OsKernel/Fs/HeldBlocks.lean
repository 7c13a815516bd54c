import OsKernel.Fs.MutualExclusion

/-!
# Held blocks stay in the cache

`acquired` is one flag for the holder of a `Block` and all that wait for it, and
`cache_release` clears it while it hands the lock on.  If at every release no other
process has looked the `Block` up, then `acquired` is set for every `Block` that some
process has looked up and not released (`Held.acquired`), and `evict_block` leaves
it alone.  Otherwise a `Block` may be freed while its lock is handed on
(`held_block_evicted`).
-/

namespace OsKernel

open Function BlockList

variable {k : LockId} {s : LockSys} {sem : Semaphore}

/-- The process holds the lock or has been handed it. -/
def Actor.Owns (q : Actor) (k : LockId) : Prop := k ∈ q.holds ∨ q.Handed k

theorem Actor.engaged_of_owns {q : Actor} (h : q.Owns k) : q.Engaged k := by
  rcases h with h | h
  · exact .inr h
  · exact engaged_of_tokens (tokens_pos_of_handed h)

namespace LockSys

/-- Nobody is killed, and at a release of a `Block` no other process has looked it
up and not released it. -/
def Alone (s : LockSys) : LockAct → Prop
  | .kill _ => False
  | .release p a => ∀ q, q ≠ p → ¬ (s.actors q).Engaged (.block a)
  | .unload p => ∀ i a, (s.actors p).pc = .unload i a →
      ∀ q, q ≠ p → ¬ (s.actors q).Engaged (.block a)
  | _ => True

structure Held (s : LockSys) : Prop where
  acquired : ∀ p a, (s.actors p).Engaged (.block a) → (s.blocks.heap a).acquired = true
  alive : ∀ p, (s.actors p).proc.killed = false
  asleep : ∀ p k, (s.actors p).Waits k → (s.actors p).proc.state = .SLEEPING

theorem Held.of_init (h : s.Init) : s.Held := by
  obtain ⟨-, -, -, hactors⟩ := h
  refine ⟨fun p a hp => ?_, fun p => (hactors p).2.2, fun p k hp => ?_⟩
  · rcases hp with hp | hp
    · rw [(hactors p).1] at hp
      cases hp
    · rw [(hactors p).2.1] at hp
      cases hp
  · rw [Actor.Waits, (hactors p).1] at hp
    cases hp.1

section

variable {sb : SuperBlock} {s s' : LockSys} {l : LockAct}

theorem Held.safe (h : s.Held) (hs : LockStep sb s l s') : Safe sb s l := by
  have hkeep : ∀ b, s.KeepsEngaged b := by
    intro b _ a ha hn p hp
    have hacq := not_acquired_of_freed ha hn
    rw [h.acquired p a hp] at hacq
    cases hacq
  cases hs with
  | hit hl _ | miss hl _ _ =>
    rcases hl with ⟨rfl, -, -⟩ | ⟨i, rfl, -, -, -⟩
    · exact hkeep _
    · exact fun i _ => hkeep _
  | @wake p w _ hpc hawake _ =>
    -- a process that is still on the list sleeps
    by_contra hup
    have hstate := h.asleep p w.lock ⟨by rw [hpc]; rfl, Bool.eq_false_iff.mpr hup⟩
    rw [Proc.awake, hstate] at hawake
    cases hawake
  | release hl _ =>
    rcases hl with ⟨a, rfl, -⟩ | ⟨i, a, rfl, -⟩ | ⟨i, rfl, -⟩ <;> trivial
  | inodeLock | take | sleep | validate | kill => trivial

variable {p : Nat} {pc : Pc}

theorem Held.of_update (h : s.Held) {q : Actor} (hact : s'.actors = update s.actors p q)
    (hacq : ∀ a, (s.blocks.heap a).acquired = true → (s'.blocks.heap a).acquired = true)
    (heng : ∀ a, q.Engaged (.block a) → (s.actors p).Engaged (.block a) ∨
      (s'.blocks.heap a).acquired = true)
    (hkilled : q.proc.killed = false) (hsleep : ∀ k, q.Waits k → q.proc.state = .SLEEPING) :
    s'.Held := by
  refine ⟨?_, ?_, ?_⟩
  · rw [hact, forall_update_iff s.actors
      fun _ x => ∀ a, x.Engaged (.block a) → (s'.blocks.heap a).acquired = true]
    refine ⟨fun a ha => ?_, fun r _ a ha => hacq a (h.acquired r a ha)⟩
    exact (heng a ha).elim (fun hp => hacq a (h.acquired p a hp)) id
  · rw [hact, forall_update_iff s.actors fun _ x => x.proc.killed = false]
    exact ⟨hkilled, fun r _ => h.alive r⟩
  · rw [hact, forall_update_iff s.actors fun _ x => ∀ k, x.Waits k → x.proc.state = .SLEEPING]
    exact ⟨hsleep, fun r _ => h.asleep r⟩

theorem acquired_setSem (s : LockSys) (k : LockId) (sem : Semaphore) (a : Nat) :
    ((s.setSem k sem).blocks.heap a).acquired = (s.blocks.heap a).acquired := by
  cases k with
  | block a' =>
    obtain rfl | ha := eq_or_ne a a'
    · simp only [setSem, heap_update_self]
    · simp only [setSem, heap_update_of_ne _ _ ha]
  | inode i => rfl

theorem acquired_locked (s : LockSys) (p : Nat) (w : Want) (a : Nat) :
    ((s.locked p w).blocks.heap a).acquired = (s.blocks.heap a).acquired := by
  show ((s.readIn w).blocks.heap a).acquired = _
  unfold readIn
  split
  next a' _ =>
    obtain rfl | ha := eq_or_ne a a'
    · simp only [heap_update_self]
      split <;> rfl
    · simp only [heap_update_of_ne _ _ ha]
  next => rfl

theorem Held.locked (h : s.Held) {w : Want}
    (hwants : (s.actors p).pc.wants = some w.lock) : ((s.setSem w.lock sem).locked p w).Held := by
  refine h.of_update (p := p) (q := (s.setSem w.lock sem).afterLock p w) ?_ (fun a ha => ?_)
    (fun a ha => .inl ?_) ?_ fun k hk => ?_
  · rw [actors_locked, actors_setSem]
  · rw [acquired_locked, acquired_setSem, ha]
  · have := engaged_afterLock (s := s.setSem w.lock sem) (by rw [actors_setSem]; exact hwants) ha
    rwa [actors_setSem] at this
  · simp only [afterLock, actors_setSem, Proc.killed_run]
    exact h.alive p
  · exact absurd hk (Actor.not_waits (sleepsOn_pcAfter _ w))

theorem Held.goto (h : s.Held) (s' : LockSys) (hactors : s'.actors = s.actors)
    (hto : pc.sleepsOn = none)
    (hacq : ∀ a, (s.blocks.heap a).acquired = true → (s'.blocks.heap a).acquired = true)
    (hwants : ∀ a, pc.wants = some (.block a) → (s'.blocks.heap a).acquired = true) :
    (s'.goto p pc).Held := by
  refine h.of_update (p := p) (q := { s.actors p with proc := (s.actors p).proc.run, pc := pc })
    ?_ hacq (fun a ha => ?_) ?_ fun k hk => absurd hk (Actor.not_waits hto)
  · simp only [LockSys.goto, setActor, hactors]
  · rcases ha with ha | ha
    · exact .inr (hwants a ha)
    · exact .inl (.inr ha)
  · rw [Proc.killed_run]
    exact h.alive p

theorem Alone.engaged {a : Nat} (h : Alone s l)
    (hl : Releases s l p (.block a) pc) {q : Nat} (hq : (s.actors q).Engaged (.block a)) : q = p := by
  by_contra hne
  rcases hl with ⟨a', rfl, he, -⟩ | ⟨i, a', rfl, he, hpc, -⟩ | ⟨i, -, he, -⟩
  · cases he
    exact h q hne hq
  · cases he
    exact h i a hpc q hne hq
  · cases he

theorem not_engaged_afterRelease (h : s.Inv) (hlive : s.Live k)
    (hfrom : (s.actors p).pc.sleepsOn = none) (hto : pc.sleepsOn = none) (hwants : pc.wants = none) :
    ¬ (s.afterRelease p k pc).Engaged k := by
  intro hk
  rcases hk with hk | hk
  · rw [afterRelease, hwants] at hk
    cases hk
  · have hpos := Actor.tokens_pos_of_mem hk
    rw [tokens_afterRelease_self h hlive hfrom hto] at hpos
    exact absurd hpos (Nat.lt_irrefl 0)

theorem Held.granted {actors : Nat → Actor} (w : Option Nat) (r : Nat) :
    (∀ k, (grant actors w r).Engaged k → (actors r).Engaged k) ∧
    ((actors r).proc.killed = false → (grant actors w r).proc.killed = false) ∧
    ∀ k, (grant actors w r).Waits k → grant actors w r = actors r := by
  cases w with
  | none => exact ⟨fun _ hk => hk, id, fun _ _ => rfl⟩
  | some q =>
    obtain rfl | hr := eq_or_ne r q
    · rw [grant, update_self]
      refine ⟨fun _ hk => hk, fun hk => ?_, fun k hk => ?_⟩
      · rw [Actor.granted, Proc.killed_activateProc, hk]
      · cases hk.2
    · rw [grant, update_of_ne hr]
      exact ⟨fun _ hk => hk, id, fun _ _ => rfl⟩

theorem Held.release (h : s.Held) (hinv : s.Inv)
    {w : Option Nat} (hl : Releases s l p k pc) (hok : Alone s l) :
    ((s.posted k sem).unlocked p k w pc).Held := by
  obtain ⟨hfrom, hk, hto, hwants, -⟩ := hl.spec hinv
  have hlive := hinv.live p k (.inr hk)
  have hactors := actors_unlocked s p k sem w pc
  have hcases : ∀ r, (update s.actors p (s.afterRelease p k pc) r = s.actors r ∧ r ≠ p) ∨
      (update s.actors p (s.afterRelease p k pc) r = s.afterRelease p k pc ∧ r = p) := by
    intro r
    by_cases hr : r = p
    · exact .inr ⟨by rw [hr, update_self], hr⟩
    · exact .inl ⟨by rw [update_of_ne hr], hr⟩
  refine ⟨fun r a ha => ?_, fun r => ?_, fun r k' hw => ?_⟩
  · -- who is engaged after the release was so before, and not with the released `Block`
    rw [hactors] at ha
    have heng := (Held.granted w r).1 _ ha
    have hold : (s.actors r).Engaged (.block a) ∧ k ≠ .block a := by
      rcases hcases r with ⟨he, hne⟩ | ⟨he, rfl⟩
      · rw [he] at heng
        refine ⟨heng, ?_⟩
        rintro rfl
        exact hne (hok.engaged hl heng)
      · rw [he] at heng
        refine ⟨engaged_afterRelease hwants heng, ?_⟩
        rintro rfl
        exact not_engaged_afterRelease hinv hlive hfrom hto hwants heng
    have hacq := h.acquired r a hold.1
    show ((s.posted k sem).blocks.heap a).acquired = true
    cases k with
    | block a' =>
      have hne : a ≠ a' := fun he => hold.2 (congrArg LockId.block he.symm)
      simp only [posted, heap_update_of_ne _ _ hne]
      exact hacq
    | inode i => exact hacq
  · rw [hactors]
    refine (Held.granted w r).2.1 ?_
    rcases hcases r with ⟨he, -⟩ | ⟨he, rfl⟩
    · rw [he]
      exact h.alive r
    · rw [he, afterRelease, Proc.killed_run]
      exact h.alive r
  · rw [hactors] at hw ⊢
    have hsame := (Held.granted w r).2.2 k' hw
    rw [hsame] at hw ⊢
    rcases hcases r with ⟨he, -⟩ | ⟨he, rfl⟩
    · rw [he] at hw ⊢
      exact h.asleep r k' hw
    · rw [he] at hw
      exact absurd hw (Actor.not_waits hto)

theorem Held.step (h : s.Held) (hinv : s.Inv) (hs : LockStep sb s l s') (hok : Alone s l) :
    s'.Held := by
  cases hs with
  | @hit _ p b _ a c hl hf =>
    have hhit : ∀ x, (s.blocks.heap x).acquired = true ∨ x = a →
        ((s.blocks.hit a).heap x).acquired = true := by
      intro x hx
      by_cases he : x = a
      · rw [he, heap_hit_self]
      · rw [heap_hit_of_ne _ he]
        exact hx.resolve_right he
    refine h.goto { s with blocks := s.blocks.hit a } rfl rfl
      (fun x hx => hhit x (.inl hx)) fun x hx => hhit x (.inr ?_)
    cases hx
    rfl
  | @miss _ p b a c hl hf ha =>
    have hnew : ∀ x, (s.blocks.heap x).acquired = true ∨ x = a →
        ((s.blocks.insertNew a b).heap x).acquired = true := by
      intro x hx
      by_cases he : x = a
      · rw [he]
        exact congrArg Block.acquired (heap_push_self _ _ _)
      · rw [insertNew, heap_push_of_ne _ _ he, heap_makeRoom]
        exact hx.resolve_right he
    refine h.goto { s with blocks := s.blocks.insertNew a b } rfl rfl
      (fun x hx => hnew x (.inl hx)) fun x hx => hnew x (.inr ?_)
    cases hx
    rfl
  | inodeLock => exact h.goto s rfl rfl (fun _ ha => ha) fun _ ha => by cases ha
  | take hpc _ => exact h.locked (by rw [hpc]; rfl)
  | @sleep p w sem hpc _ =>
    refine h.of_update (p := p)
      (q := { s.actors p with proc := (s.actors p).proc.run.sched .SLEEPING, pc := .asleep w, up := false })
      ?_ (fun a ha => ?_) (fun a ha => .inl ?_) ?_ fun k hk => ?_
    · simp only [setActor, actors_setSem]
    · exact (acquired_setSem s w.lock sem a).trans ha
    · rcases ha with ha | ha
      · left
        rw [hpc]
        exact ha
      · exact .inr ha
    · rw [Proc.killed_sched, Proc.killed_run]
      exact h.alive p
    · exact Proc.sched_state _ ((Proc.killed_run _).trans (h.alive p))
  | wake hpc _ _ => exact h.locked (by rw [hpc]; rfl)
  | release hl _ => exact h.release hinv hl hok
  | @validate p i _ =>
    have hto : Pc.user.sleepsOn = none := rfl
    exact h.goto { s with
      inodes := update s.inodes i { s.inodes i with valid := true } } rfl hto
      (fun _ ha => ha) fun _ ha => by cases ha
  | kill => exact hok.elim

theorem Held.of_reach (h : ReachWhen sb Alone s) : s.Inv ∧ s.Held := by
  refine Runs.Reach.invariant (I := fun s => s.Inv ∧ s.Held)
    (fun _ hs => ⟨.of_init hs, .of_init hs⟩) ?_ h
  rintro s l s' ⟨hinv, hheld⟩ hok hs
  have hstep := LockStep.of_step hs
  exact ⟨hinv.step hstep (hheld.safe hstep), hheld.step hinv hstep hok⟩

end

/-- A `Block` whose sleep lock is held by or has been handed to a process is
acquired and in the cache list, no two `Block`s of the list have the same number, and
so neither have two that are held. -/
theorem held_block_cached {sb : SuperBlock} {s : LockSys} (h : ReachWhen sb Alone s) :
    (∀ p a, (s.actors p).Owns (.block a) → a ∈ s.blocks.head ∧ (s.blocks.heap a).acquired = true) ∧
    (s.blocks.head.map fun a => (s.blocks.heap a).blockNo).Nodup ∧
    ∀ p q a a', (s.actors p).Owns (.block a) → (s.actors q).Owns (.block a') →
      (s.blocks.heap a).blockNo = (s.blocks.heap a').blockNo → a = a' := by
  obtain ⟨hinv, hheld⟩ := Held.of_reach h
  have hmem : ∀ {p a}, (s.actors p).Owns (.block a) → a ∈ s.blocks.head := fun {p} {a} hp =>
    hinv.live p (.block a) (Actor.engaged_of_owns hp)
  refine ⟨fun p a hp => ⟨hmem hp, hheld.acquired p a (Actor.engaged_of_owns hp)⟩, hinv.distinct,
    fun p q a a' hp hq hno => ?_⟩
  exact hinv.eq_of_blockNo (hmem hp) (hmem hq) hno

/-! ## Runs of processes 0, 1 and 2 -/

section

variable {sb : SuperBlock} {s s' : LockSys} {l : LockAct}

theorem Looks.actor_eq {p b a : Nat} {c : Option Nat} (h : Looks sb s l p b a c) :
    actor l = some p := by
  rcases h with ⟨rfl, -⟩ | ⟨i, rfl, -⟩ <;> rfl

theorem Releases.actor_eq {p : Nat} {pc : Pc} (h : Releases s l p k pc) :
    actor l = some p := by
  rcases h with ⟨a, rfl, -⟩ | ⟨i, a, rfl, -⟩ | ⟨i, rfl, -⟩ <;> rfl

theorem LockStep.engaged_of_ne (hs : LockStep sb s l s') {r : Nat} (hr : actor l ≠ some r)
    (hk : (s'.actors r).Engaged k) : (s.actors r).Engaged k := by
  have hne : ∀ {p}, actor l = some p → r ≠ p := by
    rintro p hp rfl
    exact hr hp
  cases hs with
  | hit hl _ | miss hl _ _ => rwa [actors_goto_of_ne _ _ (hne hl.actor_eq)] at hk
  | inodeLock | validate => rwa [actors_goto_of_ne _ _ (hne rfl)] at hk
  | take | wake => rwa [actors_locked, actors_setSem, update_of_ne (hne rfl)] at hk
  | sleep => rwa [actors_setActor_of_ne _ _ (hne rfl), actors_setSem] at hk
  | @release _ _ _ _ _ w hl _ =>
    rw [actors_unlocked] at hk
    have := (Held.granted w r).1 k hk
    rwa [update_of_ne (hne hl.actor_eq)] at this
  | @kill p =>
    obtain rfl | hrp := eq_or_ne r p
    · simp only [setActor, update_self] at hk
      exact hk
    · rwa [actors_setActor_of_ne _ _ hrp] at hk

end

/-- A test for steps of processes 0 and 1 that are `Alone`. -/
def alone (s : LockSys) : LockAct → Bool
  | .acquire p _ _ | .wait p => decide (p < 2)
  | .release p a => decide (p < 2 ∧ ¬ (s.actors (1 - p)).Engaged (.block a))
  | _ => false

def Others (s : LockSys) : Prop := ∀ r, 2 ≤ r → ∀ k, ¬ (s.actors r).Engaged k

theorem Others.of_guarded {sb : SuperBlock}
    (h : Runs.Reach (Runs.guarded (step sb) alone .disabled) Runs.always Init s) : s.Others := by
  refine Runs.Reach.invariant (fun s hs r _ k hk => ?_) (fun s l s' ho _ hs r hr k hk => ?_) h
  · rcases hk with hk | hk
    · rw [(hs.2.2.2 r).1] at hk
      cases hk
    · rw [(hs.2.2.2 r).2.1] at hk
      cases hk
  obtain ⟨hq, hs⟩ := Runs.step_of_guarded hs
  refine ho r hr k ((LockStep.of_step hs).engaged_of_ne ?_ hk)
  rintro he
  cases l with
  | acquire p b a | wait p =>
    cases he
    exact absurd hr (Nat.not_le.mpr (of_decide_eq_true hq))
  | release p a =>
    cases he
    exact absurd hr (Nat.not_le.mpr (of_decide_eq_true hq).1)
  | _ => cases hq

theorem Alone.of_test {l : LockAct} (ho : s.Others) (h : s.alone l = true) :
    Alone s l := by
  cases l with
  | acquire | wait => trivial
  | release p a =>
    obtain ⟨hp, hn⟩ := of_decide_eq_true h
    intro q hq
    by_cases hq2 : 2 ≤ q
    · exact ho q hq2 _
    · have he : q = 1 - p := by omega
      rw [he]
      exact hn
  | _ => cases h

/-- Two processes hold one block after the other. -/
theorem held_block_cached_in_turn :
    ∃ s, ReachWhen Mkfs.superBlock Alone s ∧ LockId.block 0 ∈ (s.actors 1).holds ∧
      0 ∈ s.blocks.head ∧ (s.blocks.heap 0).acquired = true := by
  obtain ⟨s, hs, hw⟩ := Runs.Reach.of_execTest boot_init
    (show Runs.execTest (Runs.guarded (step Mkfs.superBlock) alone .disabled) boot
      [.acquire 0 5 0, .wait 0, .release 0 0, .acquire 1 5 0, .wait 1, .acquire 0 6 1, .wait 0]
      (fun s => LockId.block 0 ∈ (s.actors 1).holds) = true by decide +kernel)
  have hreach : ReachWhen Mkfs.superBlock Alone s :=
    Runs.Reach.of_guarded (fun _ => Others.of_guarded) (fun _ _ => Alone.of_test) hs
  have hholds := of_decide_eq_true hw
  exact ⟨s, hreach, hholds, (held_block_cached hreach).1 1 0 (.inl hholds)⟩

/-- The steps of `cache_acquire` and `cache_release`. -/
def cacheCall : LockAct → Bool
  | .acquire _ _ _ | .wait _ | .wake _ | .release _ _ => true
  | _ => false

/-- Process 0 holds block 0, process 1 waits for it, and process 2 uses nineteen
other blocks.  Process 0 hands the lock on, which clears `acquired`; a miss of
process 2 evicts the `Block`, and process 0 acquires block 0 again.  Then process 1
holds a freed `Block` and process 0 another one with the same number. -/
theorem held_block_evicted : ∃ s, ReachWhen Mkfs.superBlock (fun _ l => cacheCall l = true) s ∧
      LockId.block 0 ∈ (s.actors 1).holds ∧ 0 ∉ s.blocks.head ∧
      LockId.block 21 ∈ (s.actors 0).holds ∧
      (s.blocks.heap 0).blockNo = (s.blocks.heap 21).blockNo := by
  obtain ⟨s, hs, hw⟩ := Runs.Reach.of_execTest boot_init
    (show Runs.execTest (Runs.guarded (step Mkfs.superBlock) (fun _ => cacheCall) .disabled) boot
      ([.acquire 0 0 0, .wait 0, .acquire 1 0 0, .wait 1] ++
        (List.range 19).flatMap (fun b => [.acquire 2 (b + 1) (b + 1), .wait 2, .release 2 (b + 1)]) ++
        [.release 0 0, .acquire 2 20 20, .wait 2, .wake 1, .acquire 0 0 21, .wait 0])
      (fun s => LockId.block 0 ∈ (s.actors 1).holds ∧ 0 ∉ s.blocks.head ∧
        LockId.block 21 ∈ (s.actors 0).holds ∧
        (s.blocks.heap 0).blockNo = (s.blocks.heap 21).blockNo) = true by decide +kernel)
  exact ⟨s, Runs.Reach.of_guarded (fun _ _ => trivial) (fun _ _ _ => id) hs, of_decide_eq_true hw⟩

end LockSys

end OsKernel
