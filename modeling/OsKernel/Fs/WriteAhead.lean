import OsKernel.Lib.RedoHistory
import OsKernel.Fs.Commit

/-!
# The write-ahead rule of the cache

The device of a caller that runs one operation at a time goes from one commit to the
next and every crash is recoverable, as long as two things hold: a block synced with
a context lies outside the log (`Cache.Clean`), and a block synced with `NULL` is
already on the device.

The calls of the cache are specified by triples under the first condition.  The
record of the blocks synced only grows, so that a run that ends with a clean record
was clean all along; so does the number of cached blocks.
-/

namespace OsKernel

open Prog Cache Function List Triple LogHeader
open RedoLog (apply apply_append apply_singleton)

variable {a : Nat}

namespace Cache

/-- All blocks synced with a context so far lie outside the log. -/
def Clean (sb : SuperBlock) (s : Cache) : Prop :=
  ∀ b ∈ s.syncs, ¬ (logLayout sb).Area OP_MAX_NUM_BLOCKS b

instance (sb : SuperBlock) (s : Cache) : Decidable (s.Clean sb) :=
  inferInstanceAs (Decidable (∀ b ∈ s.syncs, ¬ (logLayout sb).Area OP_MAX_NUM_BLOCKS b))

end Cache

/-! ## The record grows -/

/-- The record of `s` extends that of `r`, there are at least as many cached blocks, and the next
address is still a new one. -/
def Since (r s : Cache) : Prop :=
  r.syncs <+: s.syncs ∧ r.numCachedBlocks ≤ s.numCachedBlocks ∧
    ((∀ a ∈ r.head, a < r.brk) → ∀ a ∈ s.head, a < s.brk)

theorem Since.refl (s : Cache) : Since s s := ⟨prefix_rfl, Nat.le_refl _, id⟩

theorem Since.trans {r s s' : Cache} (h : Since r s) (h' : Since s s') : Since r s' :=
  ⟨h.1.trans h'.1, Nat.le_trans h.2.1 h'.2.1, fun hr => h'.2.2 (h.2.2 hr)⟩

/-- Programs along which the record only grows, whether they return or stop. -/
def Grows {α : Type} (x : CacheM α) : Prop :=
  ∀ r, Triple (Since r) x (fun _ => Since r) (Since r)

namespace Grows

variable {α β : Type} {x : CacheM α} {f : α → CacheM β}

theorem pure (a : α) : Grows (Pure.pure a : CacheM α) := fun _ => Triple.pure fun _ hs => hs

theorem throw (e : Halt) : Grows (throw e : CacheM α) := fun _ => Triple.throw fun _ hs => hs

theorem bind (hx : Grows x) (hf : ∀ a, Grows (f a)) : Grows (x >>= f) :=
  fun r => (hx r).bind fun a => hf a r

theorem read {f : Cache → CacheM β} (hf : ∀ s, Grows (f s)) : Grows (get >>= f) :=
  fun r => Triple.read fun s => hf s r

theorem modify {g : Cache → Cache} (hg : ∀ s, Since s (g s)) :
    Grows (modify g : CacheM PUnit) := fun _ => Triple.modify fun s hs => hs.trans (hg s)

theorem forM {ι : Type} {l : List ι} {g : ι → CacheM PUnit} (hg : ∀ i, Grows (g i)) :
    Grows (l.forM g) := fun r => Triple.forM fun i _ => hg i r

theorem since (hx : Grows x) (s : Cache) : Since s (x.exec s).2 := by
  rcases (hx s).elim (.refl s) with ⟨_, _, he, h⟩ | ⟨_, _, he, h⟩ <;>
    rw [he] <;> exact h

/-- The record was clean, if it is clean afterwards. -/
theorem clean (hx : Grows x) (sb : SuperBlock) (s : Cache) (h : (x.exec s).2.Clean sb) :
    s.Clean sb := fun y hy => h y ((hx.since s).1.subset hy)

end Grows

theorem withBlock_grows (a : Nat) (f : Block → Block) : Grows (withBlock a f) :=
  .modify Since.refl

theorem acquireSleeplock_grows (a : Nat) : Grows (acquireSleeplock a) := by
  unfold acquireSleeplock
  refine .read fun s => ?_
  split
  · exact withBlock_grows _ _
  · exact (withBlock_grows _ _).bind fun _ => .throw _

theorem readBlock_grows (a : Nat) : Grows (readBlock a) := .modify Since.refl

theorem cacheAcquire_grows (b : Nat) : Grows (cacheAcquire b) := by
  intro r s hs
  unfold cacheAcquire
  rw [exec_bind_ok (exec_get s)]
  split
  next a ha =>
    have hhit : Since s { s with toBlockList := s.toBlockList.hit a } := by
      refine ⟨prefix_rfl, Nat.le_refl _, fun hf a' ha' => ?_⟩
      rcases mem_cons.mp ha' with rfl | ha'
      · exact hf a' (mem_of_find?_eq_some ha)
      · exact hf a' (erase_subset ha')
    rw [exec_bind_ok (exec_set _ _)]
    refine bind (acquireSleeplock_grows a r) (fun _ => ?_) _ (hs.trans hhit)
    refine read fun s' => ?_
    split
    · exact .bind (readBlock_grows a r) fun _ => Grows.pure a r
    · exact Grows.pure a r
  next =>
    have hmiss : Since s
        { s with toBlockList := s.toBlockList.insertNew s.brk b, brk := s.brk + 1 } := by
      refine ⟨prefix_rfl, s.toBlockList.numCachedBlocks_makeRoom, fun hf a' ha' => ?_⟩
      rcases mem_cons.mp ha' with rfl | ha'
      · exact Nat.lt_succ_self _
      · exact Nat.lt_succ_of_lt (hf a' (s.toBlockList.head_makeRoom_sublist.subset ha'))
    rw [exec_bind_ok (exec_set _ _)]
    refine bind (acquireSleeplock_grows _ r) (fun _ => ?_) _ (hs.trans hmiss)
    exact bind (readBlock_grows _ r) fun _ => Grows.pure _ r

theorem cacheRelease_grows (a : Nat) : Grows (cacheRelease a) := by
  intro r s hs
  unfold cacheRelease BlockList.release
  rw [exec_bind_ok (exec_get s)]
  cases (s.heap a).lock.postSem with
  | none => exact hs
  | some => exact hs

theorem cacheSync_grows (ctx : Option Nat) (a : Nat) : Grows (cacheSync ctx a) := by
  cases ctx with
  | none => exact .modify Since.refl
  | some c =>
    refine (withBlock_grows _ _).bind fun _ r s hs => ?_
    rw [exec_bind_ok (exec_get s)]
    split
    · exact hs
    · exact hs.trans ⟨prefix_append _ _, Nat.le_refl _, id⟩

theorem copyBlock_grows (src dst : Nat) : Grows (copyBlock src dst) := by
  refine (cacheAcquire_grows _).bind fun _ => (cacheAcquire_grows _).bind fun _ => .read fun s => ?_
  refine (withBlock_grows _ _).bind fun _ => (cacheSync_grows _ _).bind fun _ => ?_
  exact (cacheRelease_grows _).bind fun _ => cacheRelease_grows _

theorem ckptHome_grows (i : Nat) : Grows (ckptHome i) := by
  refine .read fun s => (cacheAcquire_grows _).bind fun _ => (cacheSync_grows _ _).bind fun _ => ?_
  exact (withBlock_grows _ _).bind fun _ => cacheRelease_grows _

theorem postAllOps_grows : Grows postAllOps := by
  intro r s hs
  unfold postAllOps
  rw [exec_bind_ok (exec_get s)]
  split
  · exact hs
  · exact hs

theorem writeHeader_grows (sb : SuperBlock) : Grows (writeHeader sb) :=
  .modify Since.refl

theorem doCheckpoint_grows (sb : SuperBlock) : Grows (doCheckpoint sb) := by
  unfold doCheckpoint
  refine .bind (.modify Since.refl) fun _ => .read fun s => ?_
  refine .bind (.forM fun i => .read fun s => copyBlock_grows _ _) fun _ => ?_
  refine (writeHeader_grows sb).bind fun _ => .read fun s => ?_
  refine .bind (.forM fun i => ckptHome_grows i) fun _ => ?_
  refine .bind (.modify Since.refl) fun _ => (writeHeader_grows sb).bind fun _ => ?_
  exact .bind (.modify Since.refl) fun _ => postAllOps_grows

theorem cacheBeginOp_grows (c : Nat) : Grows (cacheBeginOp c) := by
  intro r s hs
  unfold cacheBeginOp
  rw [exec_bind_ok (exec_get s)]
  split
  · exact hs
  · exact hs

theorem cacheEndOp_grows (sb : SuperBlock) : Grows (cacheEndOp sb) := by
  intro r s hs
  unfold cacheEndOp
  rw [exec_bind_ok (exec_get s)]
  by_cases hck : s.log.checkpointing = true
  · rw [if_pos hck]
    exact hs
  rw [if_neg hck, exec_bind_ok (exec_set _ _)]
  split
  · exact doCheckpoint_grows sb r _ hs
  · split
    · exact hs
    · exact hs

/-! ## The invariant of a single caller -/

/-- Every crash is recoverable and the device has been written log first, also when the
program has stopped for good. -/
def Stopped (sb : SuperBlock) (d₀ : Nat → Data) (s : Cache) : Prop :=
  (logLayout sb).Recoverable OP_MAX_NUM_BLOCKS d₀ s.writes s.commits ∧
    (logLayout sb).Ahead OP_MAX_NUM_BLOCKS d₀ s.writes

/-- How many blocks may still be logged: by the running operation, or by the next
one. -/
def roomLeft (run : Option Nat) (s : Cache) : Nat :=
  match run with
  | none => OP_MAX_NUM_BLOCKS
  | some c => (s.ctxs c).rm

/-- The cache of a caller with the running operation `run` that holds the `Block`s `H`,
on the device that was `d₀` at the start. -/
structure OpInv (sb : SuperBlock) (d₀ : Nat → Data) (run : Option Nat) (H : List Nat)
    (s : Cache) : Prop where
  wf : s.WF s.header.logged
  nodup : s.header.logged.Nodup
  small : ∀ b ∈ s.header.logged, b < 2 ^ 64
  outside : ∀ b ∈ s.header.logged, ¬ (logLayout sb).Area OP_MAX_NUM_BLOCKS b
  sem : s.log.opSem.WF
  idle : s.log.checkpointing = false
  count : s.log.runningOps = run.toList.length
  room : s.header.numBlocks + roomLeft run s ≤ OP_MAX_NUM_BLOCKS
  held : ∀ a ∈ H, s.Held a ∧ (s.heap a).blockNo < 2 ^ 64
  distinct : H.Nodup
  disk : s.disk = apply d₀ s.writes
  history : (logLayout sb).History OP_MAX_NUM_BLOCKS d₀ s.writes s.commits

namespace OpInv

variable {sb : SuperBlock} {d₀ : Nat → Data} {run : Option Nat} {H H' : List Nat} {s s' : Cache}

section

variable (h : OpInv sb d₀ run H s)

include h

/-- What is left of the invariant where a call stops. -/
theorem stopped : Stopped sb d₀ s := ⟨h.history.safe, h.history.ahead⟩

theorem stopped_of_noWrite (hs : NoWrite s s') : Stopped sb d₀ s' := by
  rw [Stopped, hs.writes, hs.commits]
  exact h.stopped

/-- A change of the list of blocks alone. -/
theorem of_onlyList (hs : OnlyList s s') (hwf : s'.WF s.header.logged)
    (hheld : ∀ a ∈ H', s'.Held a ∧ (s'.heap a).blockNo < 2 ^ 64) (hdistinct : H'.Nodup) :
    OpInv sb d₀ run H' s' := by
  have hroom : roomLeft run s' = roomLeft run s := by
    unfold roomLeft
    rw [hs.ctxs]
  constructor
  case held => exact hheld
  case distinct => exact hdistinct
  case room =>
    rw [hroom, hs.header]
    exact h.room
  case disk =>
    rw [hs.disk, hs.writes]
    exact h.disk
  case history =>
    rw [hs.writes, hs.commits]
    exact h.history
  case sem =>
    rw [hs.log]
    exact h.sem
  case idle =>
    rw [hs.log]
    exact h.idle
  case count =>
    rw [hs.log]
    exact h.count
  all_goals rw [hs.header]
  · exact hwf
  · exact h.nodup
  · exact h.small
  · exact h.outside

/-- A block is acquired with the contents that the cache shows for it. -/
theorem acquire {b : Nat} (hb : b < 2 ^ 64) :
    Post (fun a s' => OpInv sb d₀ run (a :: H) s' ∧ (s'.heap a).blockNo = b ∧
      (s'.heap a).data = s.contents b ∧ s'.disk = s.disk) (Stopped sb d₀)
      ((cacheAcquire b).exec s) := by
  by_cases hfree : s.Free b
  · obtain ⟨a, s', he, hacq⟩ := cacheAcquire_free h.wf hfree
    rw [he]
    have hnew : a ∉ H := fun ha => hacq.new (h.held a ha).1
    refine ⟨h.of_onlyList hacq.rest hacq.wf ?_ (nodup_cons.mpr ⟨hnew, h.distinct⟩), hacq.no,
      hacq.data, hacq.rest.disk⟩
    intro a' ha'
    rcases mem_cons.mp ha' with rfl | ha'
    · rw [hacq.no]
      exact ⟨hacq.held, hb⟩
    · have ⟨hheld, hsmall⟩ := h.held a' ha'
      rw [hacq.heap_of_held hheld]
      exact ⟨hacq.held_iff.mpr (.inr hheld), hsmall⟩
  · obtain ⟨s', he, hs⟩ := cacheAcquire_held h.wf hfree
    rw [he]
    exact h.stopped_of_noWrite hs.noWrite

end

theorem release (h : OpInv sb d₀ run (a :: H) s) :
    Post (fun _ => OpInv sb d₀ run H) (Stopped sb d₀) ((cacheRelease a).exec s) := by
  have ha := (h.held a mem_cons_self).1
  obtain ⟨hnew, hdistinct⟩ := nodup_cons.mp h.distinct
  rw [exec_cacheRelease h.wf ha]
  refine h.of_onlyList (onlyList_onBlock _ _ _) (h.wf.release ha.1) (fun a' ha' => ?_) hdistinct
  have hne : a' ≠ a := fun he => hnew (he ▸ ha')
  have ⟨hheld, hsmall⟩ := h.held a' (mem_cons_of_mem a ha')
  rw [heap_released_of_ne s hne]
  exact ⟨held_released.mpr ⟨hne, hheld⟩, hsmall⟩

/-- A change of a block that is held. -/
theorem setData (h : OpInv sb d₀ run H s) (ha : a ∈ H) (d : Data) :
    OpInv sb d₀ run H (s.setData a d) := by
  refine h.of_onlyList (onlyList_onBlock _ _ _) (h.wf.setData (h.held a ha).1.1 d)
    (fun a' ha' => ?_) h.distinct
  have ⟨hheld, hsmall⟩ := h.held a' ha'
  refine ⟨held_setData.mpr hheld, ?_⟩
  rw [Cache.setData, blockNo_onBlock rfl]
  exact hsmall

/-- A sync without a context, of contents that are on the device already. -/
theorem syncNull (h : OpInv sb d₀ run H s)
    (hold : s.disk (s.heap a).blockNo = (s.heap a).data) : OpInv sb d₀ run H (s.syncNull a) := by
  have hhist := h.history.redundant (a := (s.heap a).blockNo) (v := (s.heap a).data) (by
    rw [← h.disk, hold])
  refine ⟨h.wf, h.nodup, h.small, h.outside, h.sem, h.idle, h.count, h.room, h.held, h.distinct,
    ?_, hhist⟩
  show update s.disk _ _ = apply d₀ (s.writes ++ [_])
  rw [apply_append, apply_singleton, ← h.disk]

/-- A sync in the running operation. -/
theorem syncCtx {c : Nat} (h : OpInv sb d₀ (some c) H s) (ha : a ∈ H)
    (hclean : ((cacheSync (some c) a).exec s).2.Clean sb) :
    Post (fun _ => OpInv sb d₀ (some c) H) (Stopped sb d₀) ((cacheSync (some c) a).exec s) := by
  have ⟨hheld, hsmall⟩ := h.held a ha
  match he : (cacheSync (some c) a).exec s with
  | (.error e, s') => exact h.stopped_of_noWrite (cacheSync_some_error he).noWrite
  | (.ok (), s') =>
    rw [he] at hclean
    obtain ⟨hd, ctx, hlog, rfl⟩ := cacheSync_some he
    have hmem := mem_of_syncLog hlog
    have hout := hclean _ (mem_append_right _ (mem_singleton_self _))
    refine ⟨h.wf.pin hheld.1 hmem, nodup_of_syncLog hlog h.nodup, fun b hb => ?_, fun b hb => ?_,
      h.sem, h.idle, h.count, ?_, fun a' ha' => ?_, h.distinct, h.disk, h.history⟩
    · rcases (hmem b).mp hb with rfl | hb
      · exact hsmall
      · exact h.small b hb
    · rcases (hmem b).mp hb with rfl | hb
      · exact hout
      · exact h.outside b hb
    · have hroom := h.room
      show hd.numBlocks + (update s.ctxs c ctx c).rm ≤ _
      rw [update_self, credit_of_syncLog hlog]
      exact hroom
    · have ⟨hheld', hsmall'⟩ := h.held a' ha'
      exact ⟨held_pin.mpr hheld', (blockNo_pin a').symm ▸ hsmall'⟩

theorem beginOp (h : OpInv sb d₀ none H s) (c : Nat) :
    Post (fun _ => OpInv sb d₀ (some c) H) (Stopped sb d₀) ((cacheBeginOp c).exec s) := by
  match he : (cacheBeginOp c).exec s with
  | (.error e, s') =>
    unfold cacheBeginOp at he
    rw [exec_bind_ok (exec_get s)] at he
    split at he
    · cases he
      exact h.stopped
    · cases he
  | (.ok (), s') =>
    obtain ⟨-, rfl⟩ := cacheBeginOp_ok he
    have hroom := h.room
    have hcount : s.log.runningOps = 0 := h.count
    refine ⟨h.wf, h.nodup, h.small, h.outside, h.sem, h.idle, ?_, ?_, h.held, h.distinct, h.disk,
      h.history⟩
    · show s.log.runningOps + 1 = 1
      rw [hcount]
    · show s.header.numBlocks + (update s.ctxs c s.log.beginOp.2 c).rm ≤ _
      rw [update_self]
      exact hroom

theorem numBlocks_le (h : OpInv sb d₀ run H s) : s.header.numBlocks ≤ OP_MAX_NUM_BLOCKS :=
  (Nat.le_add_right _ _).trans h.room

/-- The writes of a checkpoint, after those of all groups before. -/
theorem committed (h : OpInv sb d₀ run H s) :
    (logLayout sb).History OP_MAX_NUM_BLOCKS d₀ (s.writes ++ checkpointWrites sb s)
      (s.commits ++ [(s.writes ++ checkpointWrites sb s).length]) := by
  refine h.history.commit ?_ h.outside ?_ ?_
  · rw [length_logged]
    exact h.numBlocks_le
  · exact logged_ofData_toData _ (h.numBlocks_le.trans (by decide)) h.small
  · exact logged_eq_nil (numBlocks_ofData_clear _)

theorem checkpointed {c : Nat} (h : OpInv sb d₀ (some c) H s)
    (hck : Checkpointed sb (lastEnded s) s') : OpInv sb d₀ none H s' := by
  have hnum : s'.header.numBlocks = 0 := by rw [hck.header, numBlocks_clear]
  have hnil := logged_eq_nil hnum
  have hwrites : s'.writes = s.writes ++ checkpointWrites sb s := hck.writes
  have hcommits := hck.commits
  have hdisk : s'.disk = apply s.disk (checkpointWrites sb s) := hck.disk
  have hcount : s.log.runningOps = 1 := h.count
  constructor
  case room =>
    rw [hnum, Nat.zero_add]
    exact Nat.le_refl _
  case sem =>
    rw [hck.log]
    exact .init (Int.le_max_right _ _)
  case idle => rw [hck.log]
  case count =>
    rw [hck.log]
    show s.log.runningOps - 1 = 0
    rw [hcount]
  case held =>
    intro a ha
    have ⟨hheld, hsmall⟩ := h.held a ha
    rw [(hck.held a).2 hheld]
    exact ⟨(hck.held a).1.mpr hheld, hsmall⟩
  case distinct => exact h.distinct
  case disk => rw [hdisk, hwrites, apply_append, ← h.disk]
  case history =>
    rw [hcommits, hwrites]
    exact h.committed
  all_goals rw [hnil]
  · exact hck.wf
  · exact nodup_nil
  · exact forall_mem_nil _
  · exact forall_mem_nil _

/-- The last operation ends with a checkpoint. -/
theorem endOp {c : Nat} (h : OpInv sb d₀ (some c) H s) :
    Post (fun _ => OpInv sb d₀ none H) (Stopped sb d₀) ((cacheEndOp sb).exec s) := by
  have hcount : s.log.runningOps = 1 := h.count
  have hready : Ready sb (lastEnded s) :=
    ⟨h.wf, h.nodup, fun b hb hA => h.outside b hb (hA.mono h.numBlocks_le)⟩
  rw [exec_cacheEndOp_last sb h.idle (by rw [hcount])]
  rcases doCheckpoint_spec hready h.sem with ⟨s', he, hck⟩ | ⟨s', e, he, ws, hws, hiss⟩
  · rw [he]
    exact h.checkpointed hck
  rw [he]
  have hwrites := hiss.writes
  have hcommits := hiss.commits
  show Stopped sb d₀ s'
  rw [Stopped, hwrites, hcommits]
  refine h.history.stopped ?_ hws
  rw [length_logged]
  exact h.numBlocks_le

end OpInv

/-! ## Triples -/

/-- The invariant, if the record is clean. -/
def At (sb : SuperBlock) (d₀ : Nat → Data) (run : Option Nat) (H : List Nat) (s : Cache) : Prop :=
  s.Clean sb → OpInv sb d₀ run H s

/-- The invariant, with the `Block` at `a` as it is on the device. -/
def AtSettled (sb : SuperBlock) (d₀ : Nat → Data) (run : Option Nat) (H : List Nat) (a : Nat)
    (s : Cache) : Prop :=
  s.Clean sb → OpInv sb d₀ run H s ∧ s.disk (s.heap a).blockNo = (s.heap a).data

/-- Where a program may stop, if the record is clean. -/
def StopAt (sb : SuperBlock) (d₀ : Nat → Data) (s : Cache) : Prop :=
  s.Clean sb → Stopped sb d₀ s

section

variable {sb : SuperBlock} {d₀ : Nat → Data} {run : Option Nat} {H : List Nat} {c : Nat}

theorem At.stopAt {s : Cache} (h : At sb d₀ run H s) : StopAt sb d₀ s := fun hc => (h hc).stopped

theorem cacheAcquire_triple (b : Nat) :
    Triple (At sb d₀ run H) (cacheAcquire (usize b)) (fun a => At sb d₀ run (a :: H))
      (StopAt sb d₀) :=
  assuming ((cacheAcquire_grows _).clean sb) fun _ h _ =>
    (h.acquire (usize_lt b)).imp (fun _ _ hq => hq.1) fun _ he => he

/-- A block that is on the device as it is in the cache. -/
theorem cacheAcquire_triple_settled (b : Nat) :
    Triple (fun s => s.Clean sb → OpInv sb d₀ run H s ∧ s.contents (usize b) = s.disk (usize b))
      (cacheAcquire (usize b))
      (fun a => AtSettled sb d₀ run (a :: H) a) (StopAt sb d₀) := by
  refine .assuming ((cacheAcquire_grows _).clean sb) fun s h _ => ?_
  refine (h.1.acquire (usize_lt b)).imp (fun a s' hq => ?_) fun _ he => he
  obtain ⟨hinv, hno, hdata, hdisk⟩ := hq
  refine ⟨hinv, ?_⟩
  rw [hno, hdata, hdisk, h.2]

theorem cacheRelease_triple :
    Triple (At sb d₀ run (a :: H)) (cacheRelease a) (fun _ => At sb d₀ run H) (StopAt sb d₀) :=
  assuming ((cacheRelease_grows a).clean sb) fun _ h _ => h.release

theorem setData_triple (ha : a ∈ H) (g : Data → Data) :
    Triple (At sb d₀ run H) (withBlock a fun blk => { blk with data := g blk.data })
      (fun _ => At sb d₀ run H) (StopAt sb d₀) :=
  assuming ((withBlock_grows a _).clean sb) fun s h _ => h.setData ha (g (s.heap a).data)

theorem cacheSync_triple (ha : a ∈ H) :
    Triple (At sb d₀ (some c) H) (cacheSync (some c) a) (fun _ => At sb d₀ (some c) H)
      (StopAt sb d₀) :=
  assuming ((cacheSync_grows _ a).clean sb) fun _ h hc => h.syncCtx ha hc

theorem cacheSync_triple_null (a : Nat) :
    Triple (AtSettled sb d₀ run H a) (cacheSync none a) (fun _ => At sb d₀ run H) (StopAt sb d₀) :=
  assuming ((cacheSync_grows _ a).clean sb) fun _ h _ => h.1.syncNull h.2

theorem cacheBeginOp_triple :
    Triple (At sb d₀ none H) (cacheBeginOp c) (fun _ => At sb d₀ (some c) H) (StopAt sb d₀) :=
  assuming ((cacheBeginOp_grows c).clean sb) fun _ h _ => h.beginOp c

theorem cacheEndOp_triple :
    Triple (At sb d₀ (some c) H) (cacheEndOp sb) (fun _ => At sb d₀ none H) (StopAt sb d₀) :=
  assuming ((cacheEndOp_grows sb).clean sb) fun _ h _ => h.endOp

theorem throw_triple {α : Type} {Q : α → Cache → Prop} (e : Halt) :
    Triple (At sb d₀ run H) (throw e : CacheM α) Q (StopAt sb d₀) :=
  throw fun _ h => h.stopAt

/-- Each turn of `cache_alloc` acquires a bitmap block, and releases it. -/
theorem allocFrom_triple (l : List Nat) :
    Triple (At sb d₀ (some c) H) (allocFrom sb c l) (fun _ => At sb d₀ (some c) H)
      (StopAt sb d₀) := by
  have hsync : ∀ {a}, Triple (At sb d₀ (some c) (a :: H)) (cacheSync (some c) a)
      (fun _ => At sb d₀ (some c) (a :: H)) (StopAt sb d₀) := cacheSync_triple mem_cons_self
  induction l with
  | nil => exact throw_triple _
  | cons start rest ih =>
    refine (cacheAcquire_triple _).bind fun bitmap => read fun s => ?_
    dsimp only
    split
    next i _ =>
      refine (setData_triple mem_cons_self (Bitmap.setBit · i)).bind fun _ => ?_
      refine hsync.bind fun _ => cacheRelease_triple.bind fun _ => ?_
      refine (cacheAcquire_triple _).bind fun newBlk => ?_
      refine (setData_triple mem_cons_self fun _ => Bytes.zero).bind fun _ => ?_
      exact hsync.bind fun _ => cacheRelease_triple.bind fun _ => pure fun _ h => h
    next => exact cacheRelease_triple.bind fun _ => ih

theorem cacheAlloc_triple :
    Triple (At sb d₀ (some c) H) (cacheAlloc sb (some c)) (fun _ => At sb d₀ (some c) H)
      (StopAt sb d₀) := allocFrom_triple _

theorem cacheFree_triple (b : Nat) :
    Triple (At sb d₀ (some c) H) (cacheFree sb (some c) b) (fun _ => At sb d₀ (some c) H)
      (StopAt sb d₀) := by
  refine (cacheAcquire_triple _).bind fun mapBlk => ?_
  refine (setData_triple mem_cons_self (Bitmap.clearBit · _)).bind fun _ => ?_
  exact (cacheSync_triple mem_cons_self).bind fun _ => cacheRelease_triple

end

end OsKernel
