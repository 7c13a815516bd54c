import OsKernel.Fs.CacheRuns
import OsKernel.Fs.WriteAhead

/-!
# The size of the cache

`cache_acquire` calls `evict_block` once before it allocates a `Block`, and `evict_block` frees at most one.
So a miss keeps the cache within `EVICTION_THRESHOLD` if it was, and a cache that has grown
beyond it, while its blocks were held or pinned, never becomes smaller again.
-/

namespace OsKernel

open Cache Function

namespace Cache

variable {s s' : Cache} {b a : Nat}

/-- The cache is within the threshold, or every block but `a` is acquired or pinned. -/
def Small (s : Cache) (a : Nat) : Prop :=
  s.numCachedBlocks ≤ EVICTION_THRESHOLD ∨
    ∀ a' ∈ s.head, a' ≠ a → (s.heap a').acquired = true ∨ (s.heap a').pinned = true

/-- The number of blocks that `evict_block` may free. -/
def evictableBlocks (s : Cache) : Nat := (s.head.filter s.evictable).length

theorem small_iff (hfresh : ∀ a ∈ s.head, a < s.brk) (hmiss : s.findCachedBlock b = none)
    (h : (cacheAcquire b).exec s = (.ok a, s')) : s'.Small a ↔
      s.numCachedBlocks ≤ EVICTION_THRESHOLD ∨ s.evictableBlocks ≤ 1 := by
  rw [exec_cacheAcquire_miss hmiss] at h
  cases h
  refine Iff.trans ?_ s.toBlockList.makeRoom_small_iff
  refine or_congr Iff.rfl ⟨fun hbusy a' ha' => ?_, fun hbusy a' ha' hne => ?_⟩
  · -- the new `Block` is none of the old ones
    have hne : a' ≠ s.brk :=
      Nat.ne_of_lt (hfresh a' (s.toBlockList.head_makeRoom_sublist.subset ha'))
    have := hbusy a' (List.mem_cons_of_mem _ ha') hne
    rwa [BlockList.heap_push_of_ne _ _ hne, BlockList.heap_makeRoom] at this
  · rw [BlockList.heap_push_of_ne _ _ hne, BlockList.heap_makeRoom]
    exact hbusy a' ((List.mem_cons.mp ha').resolve_left hne)

end Cache

namespace Client

variable {sb : SuperBlock} {st st' : Client} {call : Call}

theorem ClientStep.since (h : ClientStep sb st call st') : Since st.cache st'.cache := by
  have hgrows : ∀ {α : Type} {x : CacheM α} {r : Except Halt α} {s : Cache}, Grows x →
      x.exec st.cache = (r, s) → Since st.cache s := by
    intro α x r s hx hexec
    have := hx.since st.cache
    rwa [hexec] at this
  cases h with
  | acquire _ _ hexec => exact hgrows (cacheAcquire_grows _) hexec
  | modify => exact .refl st.cache
  | syncCtx _ _ hexec => exact hgrows (cacheSync_grows _ _) hexec
  | syncNull => exact .refl st.cache
  | release _ _ hexec => exact hgrows (cacheRelease_grows _) hexec
  | beginOp _ hexec => exact hgrows (cacheBeginOp_grows _) hexec
  | endOp _ hexec => exact hgrows (cacheEndOp_grows sb) hexec

/-- No call takes back what `Since` says; in particular none makes the cache smaller. -/
theorem since_of_reach (h : Runs.Reach (step sb) Runs.always (fun x => x = st) st') :
    Since st.cache st'.cache := by
  refine Runs.Reach.invariant (I := fun st' : Client => Since st.cache st'.cache) ?_ ?_ h
  · rintro _ rfl
    exact .refl _
  · exact fun _ _ _ hsince _ hs => hsince.trans (ClientStep.of_step hs).since

theorem fresh_of_reach (h : Runs.Reach (step sb) Runs.always (Init sb) st) :
    ∀ a ∈ st.cache.head, a < st.cache.brk := by
  refine Runs.Reach.invariant (I := fun st : Client => ∀ a ∈ st.cache.head, a < st.cache.brk) ?_ ?_ h
  · exact fun _ hinit => (Inv.of_init hinit).wf.fresh
  · exact fun _ _ _ hfresh _ hs => (ClientStep.of_step hs).since.2.2 hfresh

end Client

/-- In every run of one caller: after a miss the cache is within the threshold, or every block but
the returned one is acquired or pinned, if and only if it was within the threshold before the miss or
at most one of its blocks could be freed; and no run makes the cache smaller, so a cache that
has grown beyond the threshold does not shrink back. -/
theorem cache_stays_small {sb : SuperBlock} {st : Client}
    (h : Runs.Reach (Client.step sb) Runs.always (Client.Init sb) st) :
    (∀ b a s', st.cache.findCachedBlock b = none → (cacheAcquire b).exec st.cache = (.ok a, s') →
      (s'.Small a ↔
        st.cache.numCachedBlocks ≤ EVICTION_THRESHOLD ∨ st.cache.evictableBlocks ≤ 1)) ∧
    ∀ st', Runs.Reach (Client.step sb) Runs.always (fun x => x = st) st' →
      st.cache.numCachedBlocks ≤ st'.cache.numCachedBlocks :=
  ⟨fun _ _ _ => small_iff (Client.fresh_of_reach h), fun _ hrun => (Client.since_of_reach hrun).2.1⟩

/-- The caller holds 21 blocks and acquires one more. -/
theorem cache_stays_small_held :
    ∃ st a s', Runs.Reach (Client.step Mkfs.superBlock) Runs.always
        (Client.Init Mkfs.superBlock) st ∧
      EVICTION_THRESHOLD < st.cache.numCachedBlocks ∧
      (cacheAcquire 199).exec st.cache = (.ok a, s') ∧ s'.Small a := by
  let held := (List.range (EVICTION_THRESHOLD + 1)).map (100 + ·)
  obtain ⟨st, hst, ht⟩ := Runs.Reach.of_execTest
    (Client.boot_init Mkfs.superBlock (fun _ => Bytes.zero) LogHeader.numBlocks_ofData_zero)
    (show Runs.execTest (Client.step Mkfs.superBlock)
      (.boot (rebooted Mkfs.superBlock (powerOn fun _ => Bytes.zero)) fun _ => Bytes.zero)
      (held.map Call.acquire)
      (fun st => decide (EVICTION_THRESHOLD < st.cache.numCachedBlocks ∧
        st.cache.findCachedBlock 199 = none ∧ st.cache.evictableBlocks ≤ 1)) = true
      by decide +kernel)
  obtain ⟨hlarge, hmiss, hone⟩ := of_decide_eq_true ht
  have hexec := exec_cacheAcquire_miss hmiss
  exact ⟨st, _, _, hst, hlarge, hexec,
    ((cache_stays_small hst).1 _ _ _ hmiss hexec).mpr (.inr hone)⟩

/-- A caller has held one block more than the threshold and released them all: the next miss frees one
block and allocates one, and the cache stays as large as it was. -/
theorem cache_does_not_shrink :
    ∃ st st', Runs.Reach (Client.step Mkfs.superBlock) Runs.always (Client.Init Mkfs.superBlock) st ∧
      (∀ a ∈ st.cache.head, (st.cache.heap a).acquired = false) ∧
      st.cache.findCachedBlock 199 = none ∧ st.step Mkfs.superBlock (.acquire 199) = .ok st' ∧
      EVICTION_THRESHOLD < st'.cache.numCachedBlocks ∧
      ∃ a ∈ st'.cache.head, (st'.cache.heap a).blockNo ≠ 199 ∧
        (st'.cache.heap a).acquired = false ∧ (st'.cache.heap a).pinned = false := by
  let held := (List.range (EVICTION_THRESHOLD + 1)).map (100 + ·)
  obtain ⟨st, hst, ht⟩ := Runs.Reach.of_execTest
    (Client.boot_init Mkfs.superBlock (fun _ => Bytes.zero) LogHeader.numBlocks_ofData_zero)
    (show Runs.execTest (Client.step Mkfs.superBlock)
      (.boot (rebooted Mkfs.superBlock (powerOn fun _ => Bytes.zero)) fun _ => Bytes.zero)
      (held.map Call.acquire ++ held.map Call.release)
      (fun st => match st.step Mkfs.superBlock (.acquire 199) with
        | .ok st' => decide ((∀ a ∈ st.cache.head, (st.cache.heap a).acquired = false) ∧
          st.cache.findCachedBlock 199 = none ∧
          EVICTION_THRESHOLD < st'.cache.numCachedBlocks ∧
          ∃ a ∈ st'.cache.head, (st'.cache.heap a).blockNo ≠ 199 ∧
            (st'.cache.heap a).acquired = false ∧ (st'.cache.heap a).pinned = false)
        | .error _ => false) = true by decide +kernel)
  split at ht
  next st' hs =>
    obtain ⟨hfree, hmiss, hlarge⟩ := of_decide_eq_true ht
    exact ⟨st, st', hst, hfree, hmiss, hs, hlarge⟩
  next => cases ht

end OsKernel
