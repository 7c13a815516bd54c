import OsKernel.Fs.KernelStore

/-!
# Atomic operations on a block store

Between `begin_op` and `end_op` the blocks that have been passed to `sync` count: an operation may
pass `OP_MAX_NUM_BLOCKS` different ones.  `OpLaws` says that the calls of an operation return as long
as it keeps to that, and that `end_op` loses nothing; `kernelOps` shows it of `fs/cache.c` with
one operation at a time.
-/

namespace OsKernel

open Prog Cache Function List Mkfs

variable {κ : Type}

/-- `idle` between operations, `running s₀ s` in the operation that has begun in `s₀`, which has
passed the blocks `passed s` to `sync`.  `syncs` has the blocks of all calls of `sync`. -/
structure OpView (κ : Type) where
  idle : κ → Prop
  running : κ → κ → Prop
  passed : κ → Finset Nat
  syncs : κ → List Nat

structure OpLaws (bc : BlockCache κ) (B : StoreView κ) (O : OpView κ) : Prop where
  acquireIdle : ∀ {s b}, O.idle s → B.Ok s → b < 2 ^ 64 → ¬ B.own b → (∀ a, B.held s a ≠ some b) →
    ∃ a s', (bc.acquire b).exec s = (.ok a, s') ∧ B.Acquired s b a s' ∧ O.idle s'
  setDataIdle : ∀ {s a b} (f : Data → Data), O.idle s → B.Ok s → B.held s a = some b → ¬ B.own b →
    ∃ s', (bc.setData a f).exec s = (.ok (), s') ∧ B.Changed s b f s' ∧ O.idle s'
  releaseIdle : ∀ {s a b}, O.idle s → B.Ok s → B.held s a = some b → ¬ B.own b →
    ∃ s', (bc.release a).exec s = (.ok (), s') ∧ B.Released s a b s' ∧ O.idle s'
  beginOp : ∀ {s}, B.Settled s → O.idle s →
    ∃ s', (bc.beginOp stackCtx).exec s = (.ok (), s') ∧ B.Same s s' ∧ O.running s' s' ∧
      O.passed s' = ∅ ∧ O.syncs s' = O.syncs s
  endOp : ∀ {s₀ s}, B.Settled s → O.running s₀ s →
    ∃ s', (bc.endOp stackCtx).exec s = (.ok (), s') ∧ B.Same s s' ∧ O.idle s' ∧
      O.syncs s' = O.syncs s
  trace : ∀ {s₀ s}, O.running s₀ s →
    ∃ l, O.syncs s = O.syncs s₀ ++ l ∧ l.toFinset = O.passed s
  acquire : ∀ {s₀ s b}, O.running s₀ s → B.Ok s → b < 2 ^ 64 → ¬ B.own b →
    (∀ a, B.held s a ≠ some b) →
    ∃ a s', (bc.acquire b).exec s = (.ok a, s') ∧ B.Acquired s b a s' ∧ O.running s₀ s' ∧
      O.passed s' = O.passed s
  setData : ∀ {s₀ s a b} (f : Data → Data), O.running s₀ s → B.Ok s → B.held s a = some b →
    ¬ B.own b →
    ∃ s', (bc.setData a f).exec s = (.ok (), s') ∧ B.Changed s b f s' ∧ O.running s₀ s' ∧
      O.passed s' = O.passed s
  release : ∀ {s₀ s a b}, O.running s₀ s → B.Ok s → B.held s a = some b → ¬ B.own b →
    ∃ s', (bc.release a).exec s = (.ok (), s') ∧ B.Released s a b s' ∧ O.running s₀ s' ∧
      O.passed s' = O.passed s
  sync : ∀ {s₀ s a b}, O.running s₀ s → B.Ok s → B.held s a = some b → ¬ B.own b →
    (insert b (O.passed s)).card ≤ OP_MAX_NUM_BLOCKS →
    ∃ s', (bc.sync (some stackCtx) a).exec s = (.ok (), s') ∧ B.Synced s b s' ∧ O.running s₀ s' ∧
      O.passed s' = insert b (O.passed s)
  alloc : ∀ {s₀ s}, O.running s₀ s → B.Ok s → B.Holding s →
    (O.passed s).card + 2 ≤ OP_MAX_NUM_BLOCKS →
    Post (fun b s' => B.Allocated s b s' ∧ O.running s₀ s' ∧
        ∃ m, O.passed s' = insert b (insert m (O.passed s)))
      (fun s' => B.room s = 0 ∧ B.room s' = 0 ∧ O.running s₀ s' ∧ O.passed s' = O.passed s)
      ((bc.alloc (some stackCtx)).exec s)

/-! ## Reading between operations -/

/-- A cache of which only the calls are used that do not need an operation. -/
def BlockCache.readOnly (bc : BlockCache κ) : BlockCache κ :=
  { bc with
    sync := fun _ _ => throw .panic
    alloc := fun _ => throw .panic
    free := fun _ _ => throw .panic }

def StoreView.idle (B : StoreView κ) (O : OpView κ) : StoreView κ :=
  { B with
    Ok := fun s => B.Ok s ∧ O.idle s
    stops := True }

variable {B : StoreView κ} {O : OpView κ}

theorem OpLaws.readOnly {bc : BlockCache κ} (W : OpLaws bc B O)
    (L : StoreLaws bc B) : StoreLaws bc.readOnly (B.idle O) where
  fixed_of_own := L.fixed_of_own
  used_of_fixed := fun h => L.used_of_fixed h.1
  acquire := fun h hb hown hfree => by
    obtain ⟨a, s', hexec, hacq, hidle⟩ := W.acquireIdle h.2 h.1 hb hown hfree
    exact ⟨a, s', hexec, ⟨hacq.ok, hidle⟩, hacq.new, hacq.held, hacq.view, hacq.synced, hacq.keeps,
      hacq.used, hacq.room⟩
  data := fun h ha => L.data h.1 ha
  setData := fun f h ha hown => by
    obtain ⟨s', hexec, hch, hidle⟩ := W.setDataIdle f h.2 h.1 ha hown
    exact ⟨s', hexec, ⟨hch.ok, hidle⟩, hch.held, hch.view, hch.keeps, hch.used, hch.room⟩
  sync := fun _ _ _ _ => trivial
  release := fun h ha hown => by
    obtain ⟨s', hexec, hrel, hidle⟩ := W.releaseIdle h.2 h.1 ha hown
    exact ⟨s', hexec, ⟨hrel.ok, hidle⟩, hrel.held, hrel.keeps, hrel.keepsSynced, hrel.used, hrel.room⟩
  alloc := fun _ _ _ => Or.inl trivial
  free := fun _ _ _ _ _ => trivial

theorem StoreView.Settled.toIdle {c : κ} (h : B.Settled c)
    (hidle : O.idle c) : (B.idle O).Settled c := ⟨⟨h.ok, hidle⟩, h.idle, h.synced⟩

theorem StoreView.Same.ofIdle {c c' : κ} (h : (B.idle O).Same c c') : B.Same c c' ∧ O.idle c' :=
  ⟨⟨⟨h.settled.ok.1, h.settled.idle, h.settled.synced⟩, h.view, h.used, h.room⟩, h.settled.ok.2⟩

/-! ## The operations of the cache -/

theorem syncAll_spec {h h' : LogHeader} {ctx ctx' : OpContext} {bs : List Nat}
    (hs : syncAll h ctx bs = some (h', ctx')) :
    h'.numBlocks + ctx'.rm = h.numBlocks + ctx.rm ∧
      (∀ x, x ∈ h'.logged ↔ x ∈ bs ∨ x ∈ h.logged) ∧ (h.logged.Nodup → h'.logged.Nodup) := by
  induction bs generalizing h ctx with
  | nil =>
    cases hs
    exact ⟨rfl, fun x => by simp, fun hnd => hnd⟩
  | cons b bs ih =>
    rw [syncAll, Option.bind_eq_some_iff] at hs
    obtain ⟨⟨h1, ctx1⟩, hsync, hrest⟩ := hs
    obtain ⟨hcredit, hmem, hnd⟩ := ih hrest
    refine ⟨hcredit.trans (credit_of_syncLog hsync), fun x => ?_,
      fun hn => hnd (nodup_of_syncLog hsync hn)⟩
    rw [hmem, mem_of_syncLog hsync, mem_cons]
    tauto

/-- The operation that has begun in `s₀`. -/
structure InOp (s₀ s : Cache) : Prop where
  one : s.log.runningOps = 1
  ready : s.log.checkpointing = false
  sem : s.log.opSem.WF
  nodup : s.header.logged.Nodup
  credit : s.header.numBlocks + (s.ctxs stackCtx).rm = OP_MAX_NUM_BLOCKS
  syncs : ∃ l, s.syncs = s₀.syncs ++ l ∧ l.toFinset = s.header.logged.toFinset

/-- No operation is running, and the log is empty. -/
structure Idle (s : Cache) : Prop where
  none : s.log.runningOps = 0
  ready : s.log.checkpointing = false
  sem : s.log.opSem.WF
  empty : s.header.numBlocks = 0

def kernelOp : OpView Cache where
  idle := Idle
  running := InOp
  passed := fun s => s.header.logged.toFinset
  syncs := Cache.syncs

section

variable {sb : SuperBlock} {s₀ s s' : Cache} {bs : List Nat}

theorem InOp.card (h : InOp s₀ s) : (kernelOp.passed s).card = s.header.numBlocks := by
  show s.header.logged.toFinset.card = _
  rw [toFinset_card_of_nodup h.nodup, LogHeader.length_logged]

theorem InOp.logged (h : InOp s₀ s) (hlog : Logged stackCtx bs s s') :
    InOp s₀ s' ∧ kernelOp.passed s' = bs.toFinset ∪ kernelOp.passed s := by
  obtain ⟨hcredit, hmem, hnd⟩ := syncAll_spec hlog.run
  have hpassed : kernelOp.passed s' = bs.toFinset ∪ kernelOp.passed s := by
    ext x
    show x ∈ s'.header.logged.toFinset ↔ x ∈ bs.toFinset ∪ s.header.logged.toFinset
    rw [Finset.mem_union, mem_toFinset, mem_toFinset, mem_toFinset, hmem]
  obtain ⟨l, hsyncs, hl⟩ := h.syncs
  refine ⟨⟨by rw [hlog.log, h.one], by rw [hlog.log, h.ready], by rw [hlog.log]; exact h.sem,
    hnd h.nodup, hcredit.trans h.credit, l ++ bs, ?_, ?_⟩, hpassed⟩
  · rw [hlog.syncs, hsyncs, append_assoc]
  · rw [toFinset_append, hl, Finset.union_comm]
    exact hpassed.symm

theorem InOp.onlyList (h : InOp s₀ s) (hrest : OnlyList s s') :
    InOp s₀ s' ∧ kernelOp.passed s' = kernelOp.passed s := by
  have hlog := h.logged (hrest.logged stackCtx)
  rwa [toFinset_nil, Finset.empty_union] at hlog

theorem Idle.onlyList (h : Idle s) (hrest : OnlyList s s') : Idle s' :=
  ⟨by rw [hrest.log, h.none], by rw [hrest.log, h.ready], by rw [hrest.log]; exact h.sem,
    by rw [hrest.header, h.empty]⟩

theorem InOp.not_full (h : InOp s₀ s) {x : Nat}
    (hfull : syncLog s.header (s.ctxs stackCtx) x = none) :
    (kernelOp.passed s).card = OP_MAX_NUM_BLOCKS ∧ x ∉ kernelOp.passed s := by
  obtain ⟨hnot, hrm⟩ := syncLog_eq_none hfull
  have hcredit := h.credit
  refine ⟨?_, fun hx => hnot (mem_toFinset.mp hx)⟩
  rw [h.card]
  simp only [OP_MAX_NUM_BLOCKS_eq, LOG_MAX_SIZE_eq] at *
  omega

section

variable (hl : sb.Layout) (h : (kernelView sb).Settled s)

include hl h

theorem same_of_keeps (hok : SingleOp sb s') (hheld : (baseView sb).held s' = (baseView sb).held s)
    (hk : ∀ x, ¬ (logLayout sb).Area OP_MAX_NUM_BLOCKS x → (baseView sb).Keeps s s' x) :
    (kernelView sb).Same s s' := by
  have hbits := h.ok.sameBits hok (fun x hx => hk x (hl.apart x hx)) fun x hx a ha =>
    (h.ok.bitmap x hx).2 a (hheld ▸ ha)
  have hkeep : ∀ x, ¬ sb.Own x → (kernelView sb).Keeps s s' x := fun x hown =>
    hk x fun harea => hown (.inl harea)
  exact
    { settled := h.of_keeps hbits.ok hheld fun x hx hown => .inl ⟨hbits.used ▸ hx, hkeep x hown⟩
      view := fun x hx hown => (hkeep x hown (h.safe hx hown)).2
      used := hbits.used
      room := hbits.room }

theorem exec_cacheBeginOp (hidle : Idle s) :
    ∃ s', (cacheBeginOp stackCtx).exec s = (.ok (), s') ∧ (kernelView sb).Same s s' ∧
      InOp s' s' ∧ kernelOp.passed s' = ∅ ∧ s'.syncs = s.syncs := by
  let s' : Cache := { s with
    log := s.log.beginOp.1
    ctxs := update s.ctxs stackCtx s.log.beginOp.2 }
  have hwait : s.log.mustWait s.header = false := by
    simp [Log.mustWait, hidle.ready, hidle.none, hidle.empty, LOG_MAX_SIZE_eq, OP_MAX_NUM_BLOCKS_eq]
  have hlogged : s.header.logged = [] := LogHeader.logged_eq_nil hidle.empty
  have hcredit : s'.header.numBlocks + (s'.ctxs stackCtx).rm = OP_MAX_NUM_BLOCKS := by
    show s.header.numBlocks + (update s.ctxs stackCtx s.log.beginOp.2 stackCtx).rm = _
    rw [hidle.empty, update_self, Log.beginOp]
    exact Nat.zero_add _
  have hpassed : kernelOp.passed s' = ∅ := by
    show s.header.logged.toFinset = ∅
    rw [hlogged]
    rfl
  refine ⟨s', ?_, same_of_keeps hl h ⟨h.ok.wf, h.ok.nodup, Nat.le_of_eq hcredit, fun c hc => ?_,
    h.ok.outside⟩ rfl fun x _ hx => ⟨hx, rfl⟩, ⟨?_, hidle.ready, hidle.sem, h.ok.nodup, hcredit, [],
    (append_nil _).symm, hpassed.symm⟩, hpassed, rfl⟩
  · unfold cacheBeginOp
    rw [exec_bind_ok (exec_get s), hwait]
    rfl
  · show (update s.ctxs stackCtx s.log.beginOp.2 c).rm = 0
    rw [update_of_ne hc, h.ok.others c hc]
  · show s.log.runningOps + 1 = 1
    rw [hidle.none]

theorem exec_cacheEndOp (hop : InOp s₀ s) :
    ∃ s', (cacheEndOp sb).exec s = (.ok (), s') ∧ (kernelView sb).Same s s' ∧ Idle s' ∧
      s'.syncs = s.syncs := by
  have hidle : ∀ a, ¬ s.Held a := fun a => (@held_base_none sb _ _).mp (h.idle a)
  have hle : s.header.numBlocks ≤ OP_MAX_NUM_BLOCKS := by
    have := hop.credit
    omega
  have hready : Ready sb (lastEnded s) :=
    ⟨h.ok.wf, hop.nodup, fun b hb harea => h.ok.outside b hb (area_mono hle harea)⟩
  have hops : s.log.runningOps - 1 = 0 := by rw [hop.one]
  obtain ⟨s', hexec, hc⟩ := doCheckpoint_idle hready hop.sem hidle
  have hempty : s'.header.numBlocks = 0 := by
    rw [hc.header]
    rfl
  have hlogged := LogHeader.logged_eq_nil hempty
  have hok : SingleOp sb s' := by
    refine ⟨?_, ?_, ?_, fun c hc' => ?_, ?_⟩
    · rw [hlogged]
      exact hc.wf
    · rw [hlogged]
      exact nodup_nil
    · have hcredit := h.ok.credit
      rw [hempty, hc.ctxs]
      show 0 + (s.ctxs stackCtx).rm ≤ _
      omega
    · rw [hc.ctxs]
      exact h.ok.others c hc'
    · rw [hlogged]
      exact fun b hb => absurd hb not_mem_nil
  refine ⟨s', ?_, ?_, ⟨?_, ?_, ?_, hempty⟩, hc.syncs⟩
  · rw [exec_cacheEndOp_last sb hop.ready hops, hexec]
  · refine same_of_keeps hl h hok (held_base_congr fun a => ?_) fun x hx => ?_
    · obtain ⟨hiff, hheap⟩ := hc.held a
      exact ⟨hiff, fun ha => by rw [hheap ha]; rfl⟩
    · refine keeps_base h.ok.wf hok.wf fun hst => ?_
      have hkeep := hc.keeps x (fun harea => hx (area_mono hle harea)) hst
      exact ⟨hkeep.contents, hkeep.stable⟩
  · rw [hc.log]
    exact hops
  · rw [hc.log]
  · rw [hc.log]
    exact .init (Int.le_max_right _ _)

end

theorem kernelOps (hl : sb.Layout) : OpLaws (bcache sb) (kernelView sb) kernelOp where
  acquireIdle := fun hidle h _ hown hfree => by
    obtain ⟨a, s', hexec, hacq, hrest⟩ := acquire_base h.toSingleOp hfree
    exact ⟨a, s', hexec, h.acquired hown hacq, hidle.onlyList hrest⟩
  setDataIdle := fun f hidle h ha hown => by
    obtain ⟨s', hexec, hch, hrest⟩ := setData_base h.toSingleOp ha f
    exact ⟨s', hexec, h.changed hown hch, hidle.onlyList hrest⟩
  releaseIdle := fun hidle h ha hown => by
    obtain ⟨s', hexec, hr, hrest⟩ := release_base h.toSingleOp ha
    exact ⟨s', hexec, h.released hown hr, hidle.onlyList hrest⟩
  beginOp := exec_cacheBeginOp hl
  endOp := exec_cacheEndOp hl
  trace := fun hop => hop.syncs
  acquire := fun hop h _ hown hfree => by
    obtain ⟨a, s', hexec, hacq, hrest⟩ := acquire_base h.toSingleOp hfree
    exact ⟨a, s', hexec, h.acquired hown hacq, hop.onlyList hrest⟩
  setData := fun f hop h ha hown => by
    obtain ⟨s', hexec, hch, hrest⟩ := setData_base h.toSingleOp ha f
    exact ⟨s', hexec, h.changed hown hch, hop.onlyList hrest⟩
  release := fun hop h ha hown => by
    obtain ⟨s', hexec, hr, hrest⟩ := release_base h.toSingleOp ha
    exact ⟨s', hexec, h.released hown hr, hop.onlyList hrest⟩
  sync := fun {s₀ s a b} hop h ha hown hcard => by
    have hpost := sync_base stackCtx h.toSingleOp ha fun harea => hown (.inl harea)
    obtain ⟨⟨⟩, s', hexec, hs, hlog⟩ := hpost.returns fun s' hstop => by
      obtain ⟨hfull, hnot⟩ := hop.not_full hstop.1
      rw [Finset.card_insert_of_notMem hnot] at hcard
      omega
    obtain ⟨hop', hpassed⟩ := hop.logged hlog
    refine ⟨s', hexec, h.synced hown hs, hop', ?_⟩
    rw [hpassed, toFinset_cons, toFinset_nil, Finset.insert_union, Finset.empty_union]
  alloc := fun {s₀ s} hop h hhold hcard => by
    refine (post_cacheAlloc stackCtx hl h hhold).imp ?_ ?_
    · rintro b s' ⟨hall, hlog⟩
      obtain ⟨hop', hpassed⟩ := hop.logged hlog
      refine ⟨hall, hop', sb.bitmapBlock b, ?_⟩
      rw [hpassed, toFinset_cons, toFinset_cons, toFinset_nil, Finset.insert_union,
        Finset.insert_union, Finset.empty_union, Finset.insert_comm]
    rintro s' (⟨bs, x, hlen, hlog, hfull⟩ | ⟨hroom, hroom', hlog⟩)
    · obtain ⟨hop', hpassed⟩ := hop.logged hlog
      obtain ⟨hcard', -⟩ := hop'.not_full hfull
      have hunion := Finset.card_union_le bs.toFinset (kernelOp.passed s)
      have hbs := toFinset_card_le (l := bs)
      rw [hpassed] at hcard'
      omega
    · obtain ⟨hop', hpassed⟩ := hop.logged hlog
      rw [toFinset_nil, Finset.empty_union] at hpassed
      exact ⟨hroom, hroom', hop', hpassed⟩

/-! ## After `init_bcache` -/

/-- The cache in front of a device `d` with an empty log and with a bitmap that has the metadata
allocated. -/
theorem settled_rebooted {d : Nat → Data} (h0 : (LogHeader.ofData (d sb.logStart)).numBlocks = 0)
    (hmeta : ∀ b < sb.dataStart, (rebooted sb (powerOn d)).bit sb b = true) :
    (kernelView sb).Settled (rebooted sb (powerOn d)) ∧ Idle (rebooted sb (powerOn d)) := by
  have hlogged : (rebooted sb (powerOn d)).header.logged = [] := LogHeader.logged_eq_nil h0
  have hnone : ∀ a, (baseView sb).held (rebooted sb (powerOn d)) a = none := fun a =>
    held_base_none.mpr fun ha => nomatch ha.1
  have hsynced : ∀ x, (baseView sb).synced (rebooted sb (powerOn d)) x := fun x a ha => nomatch ha
  refine ⟨⟨⟨⟨?_, ?_, ?_, fun _ _ => rfl, ?_⟩, fun x _ => ⟨hsynced x, fun a => ?_⟩, hmeta⟩, hnone,
    fun x _ _ => hsynced x⟩, ⟨rfl, rfl, .init (Int.le_refl 0), h0⟩⟩
  · rw [hlogged]
    exact BlockList.WF.nil _ _
  · rw [hlogged]
    exact nodup_nil
  · show (LogHeader.ofData (d sb.logStart)).numBlocks + 0 ≤ _
    rw [h0]
    exact Nat.zero_le _
  · rw [hlogged]
    exact fun b hb => absurd hb not_mem_nil
  · rw [hnone a]
    nofun

end

theorem area_lt {sb : SuperBlock} (hlog : sb.logStart = 2) {x : Nat}
    (h : (logLayout sb).Area OP_MAX_NUM_BLOCKS x) : x < 64 := by
  rcases h with rfl | ⟨i, hi, rfl⟩
  · show sb.logStart < 64
    omega
  · rw [OP_MAX_NUM_BLOCKS_eq] at hi
    show sb.logStart + 1 + i < 64
    omega

theorem layout_mkfs : Mkfs.superBlock.Layout := by
  have hbitmap : ∀ x, superBlock.IsBitmap x → x = 91 := by
    rintro x ⟨b, hb, rfl⟩
    have hdiv : b / BIT_PER_BLOCK = 0 := Nat.div_eq_of_lt (Nat.lt_trans hb (by decide))
    rw [SuperBlock.bitmapBlock, hdiv]
    rfl
  have hinode : ∀ no < superBlock.numInodes,
      65 ≤ superBlock.toBlockNo no ∧ superBlock.toBlockNo no < 91 := by
    intro no hno
    simp only [SuperBlock.toBlockNo, superBlock, Mkfs.NINODES, numLogBlocks, LOG_MAX_SIZE_eq,
      INODE_PER_BLOCK, INODE_ENTRY_BYTES, BLOCK_SIZE] at hno ⊢
    omega
  have hstart : superBlock.dataStart = 92 := by decide
  refine ⟨by decide, fun x hx => ?_, fun x hx ha => ?_, fun no hno => ⟨?_, fun hown => ?_⟩⟩
  · rw [hstart]
    rcases hx with ha | hb
    · have := area_lt rfl ha
      omega
    · rw [hbitmap x hb]
      decide
  · have := area_lt rfl ha
    rw [hbitmap x hx] at this
    omega
  · rw [hstart]
    have := hinode no hno
    omega
  have hlt := hinode no hno
  rcases hown with ha | hb
  · have := area_lt rfl ha
    omega
  · have := hbitmap _ hb
    omega

/-! ## Numbers that are no blocks -/

/-- When `cache_free` is harmless, for any number `b`: it returns and no block changes, if and only if
the caller does not hold the block in which it takes the bit of `b` to be, the bit is clear there,
and the operation has passed this block to `cache_sync` before or may pass another one. -/
theorem free_invalid_harmless {sb : SuperBlock} {s₀ s : Cache} {b : Nat} (h : SingleOp sb s)
    (hop : InOp s₀ s) (hlog : ∀ x, (logLayout sb).Area OP_MAX_NUM_BLOCKS x → x < sb.bitmapStart)
    (hlt : sb.bitmapBlock b < 2 ^ 64) :
    (∃ s', (cacheFree sb (some stackCtx) b).exec s = (.ok (), s') ∧
      s'.contents (sb.bitmapBlock b) = s.contents (sb.bitmapBlock b) ∧
      ∀ x, (baseView sb).Keeps s s' x) ↔
    s.Free (sb.bitmapBlock b) ∧ s.bit sb b = false ∧
      (sb.bitmapBlock b ∈ kernelOp.passed s ∨ (kernelOp.passed s).card < OP_MAX_NUM_BLOCKS) := by
  have hout : ¬ (logLayout sb).Area OP_MAX_NUM_BLOCKS (sb.bitmapBlock b) := fun ha =>
    Nat.not_lt.mpr (Nat.le_add_right _ _) (hlog _ ha)
  have hcredit := hop.credit
  have hcard := hop.card
  constructor
  · rintro ⟨s', hexec, hview, -⟩
    have hfree : s.Free (sb.bitmapBlock b) := by
      -- otherwise `cache_acquire` waits
      by_contra hheld
      have hmap : usize (sb.bitmapStart + b / BIT_PER_BLOCK) = sb.bitmapBlock b :=
        Nat.mod_eq_of_lt hlt
      obtain ⟨s1, hwait, -⟩ := cacheAcquire_held h.wf hheld
      unfold cacheFree at hexec
      rw [hmap, exec_bind_error hwait] at hexec
      cases hexec
    have hpost := stored_cacheFree stackCtx h hlt (held_of_free hfree) hout
    rw [hexec] at hpost
    obtain ⟨hst, hlogged⟩ := hpost
    refine ⟨hfree, ?_, ?_⟩
    · have hbit := Bitmap.bit_clearBit (s.contents (sb.bitmapBlock b))
        (Nat.mod_lt b (show 0 < BIT_PER_BLOCK by decide)) (b % BIT_PER_BLOCK)
      rw [← hst.view, hview, decide_eq_true rfl, Bool.not_true, Bool.and_false] at hbit
      exact hbit
    · have hrun := hlogged.run
      rw [syncAll, Option.bind_eq_some_iff] at hrun
      obtain ⟨r, hsync, -⟩ := hrun
      rcases syncLog_eq_some hsync with ⟨hmem, -⟩ | ⟨-, hrm, -⟩
      · exact .inl (mem_toFinset.mpr hmem)
      · exact .inr (by omega)
  · rintro ⟨hfree, hclear, hfit⟩
    obtain ⟨⟨⟩, s', hexec, hst, -⟩ :=
      (stored_cacheFree stackCtx h hlt (held_of_free hfree) hout).returns fun s' hstop => by
        obtain ⟨hfull, hnot⟩ := hop.not_full hstop.2
        rcases hfit with hmem | hfit
        · exact hnot hmem
        · omega
    have hview := hst.view.trans (Bitmap.clearBit_of_clear hclear)
    refine ⟨s', hexec, hview, fun x => ?_⟩
    obtain rfl | hx := eq_or_ne x (sb.bitmapBlock b)
    · exact fun _ => ⟨.inl hst.synced, hview⟩
    · exact hst.keeps x hx

/-- A device with the layout of `mkfs`: blocks below 96 are allocated, and block 92 is not empty. -/
def Mkfs.usedDisk (b : Nat) : Data :=
  if b = 91 then fun i => if i.val < 12 then 255 else 0
  else if b = 92 then fun _ => 1
  else Bytes.zero

theorem free_invalid_harmless_mkfs :
    ∃ s s', (cacheBeginOp stackCtx).exec (rebooted Mkfs.superBlock (powerOn Mkfs.usedDisk)) =
        (.ok (), s) ∧ (cacheFree Mkfs.superBlock (some stackCtx) 2000).exec s = (.ok (), s') ∧
      ∀ x, (baseView Mkfs.superBlock).Keeps s s' x := by
  have hboot : (kernelView superBlock).Settled (rebooted superBlock (powerOn usedDisk)) ∧
      Idle _ := settled_rebooted (by decide +kernel) (by decide +kernel)
  obtain ⟨s, hexec, hsame, hop, hpassed, -⟩ := exec_cacheBeginOp layout_mkfs hboot.1 hboot.2
  have hclear : (match (cacheBeginOp stackCtx).exec
      (rebooted superBlock (powerOn usedDisk)) with
    | (.ok _, s) => !s.bit superBlock 2000
    | _ => false) = true := by decide +kernel
  rw [hexec] at hclear
  have hlog : ∀ x, (logLayout superBlock).Area OP_MAX_NUM_BLOCKS x → x < superBlock.bitmapStart :=
    fun x hx => Nat.lt_trans (area_lt rfl hx) (by decide)
  have hfree : s.Free (superBlock.bitmapBlock 2000) := fun a ha _ =>
    (@held_base_none superBlock s a).mp (hsame.settled.idle a) ha
  obtain ⟨s', hexec', -, hkeeps⟩ := (free_invalid_harmless (b := 2000) hsame.settled.ok.toSingleOp hop
    hlog (by decide)).mpr ⟨hfree, by simpa using hclear, .inr (by rw [hpassed]; decide)⟩
  exact ⟨s, s', hexec, hexec', hkeeps⟩

/-- Number 4096 is no block of that device: to free it changes the data in block 92. -/
theorem free_invalid_clears_data :
    ∃ s s', (cacheBeginOp stackCtx).exec (rebooted Mkfs.superBlock (powerOn Mkfs.usedDisk)) =
        (.ok (), s) ∧ (cacheFree Mkfs.superBlock (some stackCtx) 4096).exec s = (.ok (), s') ∧
      Mkfs.superBlock.numBlocks ≤ 4096 ∧ s.bit Mkfs.superBlock 92 = true ∧
      (s.contents 92).get 0 = 1 ∧ (s'.contents 92).get 0 = 0 := by
  have ht : (match (cacheBeginOp stackCtx).exec
      (rebooted superBlock (powerOn usedDisk)) with
    | (.ok _, s) => match (cacheFree superBlock (some stackCtx) 4096).exec s with
      | (.ok _, s') => decide (s.bit superBlock 92 = true ∧ (s.contents 92).get 0 = 1 ∧
        (s'.contents 92).get 0 = 0)
      | _ => false
    | _ => false) = true := by decide +kernel
  split at ht
  next s hs =>
    split at ht
    next s' hs' => exact ⟨s, s', hs, hs', by decide, of_decide_eq_true ht⟩
    next => cases ht
  next => cases ht

end OsKernel
