import Mathlib.Data.Finset.Card
import OsKernel.Fs.Commit
import OsKernel.Fs.FileBlocks
import OsKernel.Fs.Sysfile

/-!
# The block cache as a block store

`fs/cache.c` with one operation at a time is a block store for the inode layer.  Its own blocks
are the bitmap and the part of the log that one operation can fill.  The calls on single blocks
are first described without the bitmap (`baseView`); `cache_alloc` and `cache_free` are made of
these calls.

A call is also described by what it passes to `cache_sync`: from `s` to `s'` the blocks `bs` have
been `Logged` with a context.
-/

namespace OsKernel

open Prog Cache Function List SuperBlock

variable {f : Data → Data} {c : Nat} {sb : SuperBlock} {ctx : OpContext} {hd : LogHeader}
  {s' s1 : Cache}

/-! ## What is logged -/

/-- `cache_sync` with a context of one block after another. -/
def syncAll (h : LogHeader) (ctx : OpContext) : List Nat → Option (LogHeader × OpContext)
  | [] => some (h, ctx)
  | b :: bs => (syncLog h ctx b).bind fun r => syncAll r.1 r.2 bs

theorem syncAll_append (h : LogHeader) (ctx : OpContext) (bs bs' : List Nat) :
    syncAll h ctx (bs ++ bs') = (syncAll h ctx bs).bind fun r => syncAll r.1 r.2 bs' := by
  induction bs generalizing h ctx with
  | nil => rfl
  | cons b bs ih =>
    simp only [cons_append, syncAll, Option.bind_assoc]
    congr 1
    funext r
    exact ih r.1 r.2

namespace Cache

/-- From `s` to `s'` the blocks `bs` have been synced with the context `c`. -/
structure Logged (c : Nat) (bs : List Nat) (s s' : Cache) : Prop where
  run : syncAll s.header (s.ctxs c) bs = some (s'.header, s'.ctxs c)
  others : ∀ c', c' ≠ c → s'.ctxs c' = s.ctxs c'
  syncs : s'.syncs = s.syncs ++ bs
  log : s'.log = s.log

theorem OnlyList.logged {s : Cache} (h : OnlyList s s') (c : Nat) : Logged c [] s s' :=
  ⟨by rw [syncAll, h.header, h.ctxs], fun _ _ => by rw [h.ctxs],
    by rw [h.syncs, append_nil], h.log⟩

theorem Logged.trans {bs bs' : List Nat} {s s'' : Cache} (h : Logged c bs s s')
    (h' : Logged c bs' s' s'') : Logged c (bs ++ bs') s s'' where
  run := by
    rw [syncAll_append, h.run]
    exact h'.run
  others := fun c' hc => (h'.others c' hc).trans (h.others c' hc)
  syncs := by rw [h'.syncs, h.syncs, append_assoc]
  log := h'.log.trans h.log

end Cache

/-! ## Single blocks -/

/-- One operation at a time, whose context is on the stack of the caller. -/
structure SingleOp (sb : SuperBlock) (s : Cache) : Prop where
  wf : s.WF s.header.logged
  nodup : s.header.logged.Nodup
  credit : s.header.numBlocks + (s.ctxs stackCtx).rm ≤ OP_MAX_NUM_BLOCKS
  others : ∀ c, c ≠ stackCtx → (s.ctxs c).rm = 0
  outside : ∀ b ∈ s.header.logged, ¬ (logLayout sb).Area OP_MAX_NUM_BLOCKS b

def baseView (sb : SuperBlock) : StoreView Cache where
  Ok := SingleOp sb
  view := Cache.contents
  used := fun _ _ => True
  room := fun _ => 0
  held := fun s a => if a ∈ s.head ∧ (s.heap a).acquired = true then some (s.heap a).blockNo else none
  synced := fun s b => ∀ a ∈ s.head, (s.heap a).blockNo = b →
    (s.heap a).pinned = true ∨ (s.heap a).data = s.disk b
  fixed := (logLayout sb).Area OP_MAX_NUM_BLOCKS
  own := (logLayout sb).Area OP_MAX_NUM_BLOCKS
  stops := True

section

variable {sb : SuperBlock} {s s' : Cache} {a b c x : Nat}

theorem held_base : (baseView sb).held s a = some b ↔ s.Held a ∧ (s.heap a).blockNo = b := by
  simp only [baseView, Held]
  split
  next h => simp [h]
  next h => simp [h]

theorem held_base_none : (baseView sb).held s a = none ↔ ¬ s.Held a := by
  simp only [baseView, Held]
  split
  next h => simp [h]
  next h => simp [h]

theorem held_base_congr (h : ∀ a, (s'.Held a ↔ s.Held a) ∧
    (s.Held a → (s'.heap a).blockNo = (s.heap a).blockNo)) :
    (baseView sb).held s' = (baseView sb).held s := by
  funext a
  obtain ⟨hiff, hno⟩ := h a
  cases hh : (baseView sb).held s a with
  | none => exact held_base_none.mpr fun ha => held_base_none.mp hh (hiff.mp ha)
  | some b =>
    obtain ⟨ha, hb⟩ := held_base.mp hh
    exact held_base.mpr ⟨hiff.mpr ha, (hno ha).trans hb⟩

theorem free_of_held (h : ∀ a, (baseView sb).held s a ≠ some b) : s.Free b := fun a ha hno =>
  h a (held_base.mpr ⟨ha, hno⟩)

theorem held_of_free (h : s.Free b) (a : Nat) : (baseView sb).held s a ≠ some b := fun ha =>
  h a (held_base.mp ha).1 (held_base.mp ha).2

theorem safe_base_iff (h : s.WF s.header.logged) : (baseView sb).Safe s x ↔ s.Stable x := by
  constructor
  · rintro (hs | ⟨a, ha⟩) a' ha' hno
    · exact Or.inr (hs a' ha' hno)
    · obtain ⟨hheld, hb⟩ := held_base.mp ha
      left
      rw [BlockList.WF.eq_of_blockNo h ha' hheld.1 (hno.trans hb.symm)]
      exact hheld.2
  intro hs
  by_cases hc : ∃ a ∈ s.head, (s.heap a).blockNo = x ∧ (s.heap a).acquired = true
  · obtain ⟨a, ha, hno, hacq⟩ := hc
    exact .inr ⟨a, held_base.mpr ⟨⟨ha, hacq⟩, hno⟩⟩
  · refine .inl fun a ha hno => ?_
    exact (hs a ha hno).resolve_left fun hacq => hc ⟨a, ha, hno, hacq⟩

theorem keeps_base (h : s.WF s.header.logged) (h' : s'.WF s'.header.logged)
    (hk : s.Stable x → Cache.Keeps s s' x) : (baseView sb).Keeps s s' x := by
  intro hx
  have hkx := hk ((safe_base_iff h).mp hx)
  exact ⟨(safe_base_iff h').mpr hkx.stable, hkx.contents⟩

section

variable (h : SingleOp sb s)

include h

theorem SingleOp.of_onlyList (hwf : s'.WF s.header.logged)
    (hrest : OnlyList s s') : SingleOp sb s' where
  wf := by
    rw [hrest.header]
    exact hwf
  nodup := by
    rw [hrest.header]
    exact h.nodup
  credit := by
    rw [hrest.header, hrest.ctxs]
    exact h.credit
  others := by
    rw [hrest.ctxs]
    exact h.others
  outside := by
    rw [hrest.header]
    exact h.outside

theorem acquire_base (hfree : ∀ a, (baseView sb).held s a ≠ some b) :
    ∃ a s', (cacheAcquire b).exec s = (.ok a, s') ∧ (baseView sb).Acquired s b a s' ∧
      OnlyList s s' := by
  obtain ⟨a, s', hexec, hacq⟩ := cacheAcquire_free h.wf (free_of_held hfree)
  have hok := h.of_onlyList hacq.wf hacq.rest
  refine ⟨a, s', hexec, ⟨hok, held_base_none.mpr hacq.new, ?_, ?_, fun hs a' ha' hno => ?_,
    fun x => keeps_base h.wf hok.wf (hacq.keeps h.wf), rfl, rfl⟩, hacq.rest⟩
  · funext a'
    obtain rfl | ha := eq_or_ne a' a
    · rw [update_self]
      exact held_base.mpr ⟨hacq.held, hacq.no⟩
    rw [update_of_ne ha]
    cases hh : (baseView sb).held s a' with
    | none =>
      refine held_base_none.mpr fun ha' => ?_
      exact held_base_none.mp hh ((hacq.held_iff.mp ha').resolve_left ha)
    | some b' =>
      obtain ⟨ha', hb'⟩ := held_base.mp hh
      exact held_base.mpr ⟨hacq.held_iff.mpr (.inr ha'), by rw [hacq.heap_of_held ha', hb']⟩
  · show s'.contents b = s.contents b
    rw [← hacq.data, ← contents_of_mem hacq.wf hacq.held.1, hacq.no]
  · rw [BlockList.WF.eq_of_blockNo hacq.wf ha' hacq.held.1 (hno.trans hacq.no.symm), hacq.rest.disk]
    exact hacq.settled h.wf (free_of_held hfree) ((safe_base_iff h.wf).mp (.inl hs))

section

variable (ha : (baseView sb).held s a = some b)

include ha

theorem data_base : ((bcache sb).data a).exec s = (.ok ((baseView sb).view s b), s) := by
  obtain ⟨hheld, rfl⟩ := held_base.mp ha
  show (Except.ok (s.heap a).data, s) = _
  rw [← contents_of_mem h.wf hheld.1]
  rfl

theorem setData_base (f : Data → Data) :
    ∃ s', ((bcache sb).setData a f).exec s = (.ok (), s') ∧ (baseView sb).Changed s b f s' ∧
      OnlyList s s' := by
  obtain ⟨hheld, rfl⟩ := held_base.mp ha
  have hrest : OnlyList s (s.setData a (f (s.heap a).data)) := onlyList_onBlock _ _ _
  have hok := h.of_onlyList (h.wf.setData hheld.1 (f (s.heap a).data)) hrest
  refine ⟨s.setData a (f (s.heap a).data), ?_, ⟨hok, held_base_congr fun a' => ⟨held_setData, ?_⟩,
    ?_, fun x hx => keeps_base h.wf hok.wf fun hs => .setData hx hs _, rfl, rfl⟩, hrest⟩
  · show (Except.ok (), s.onBlock a _) = (Except.ok (), s.onBlock a _)
    simp only [Cache.onBlock, BlockList.update]
  · exact fun _ => blockNo_onBlock rfl a'
  · show (s.setData a _).contents _ = f (s.contents _)
    rw [contents_of_mem h.wf hheld.1, Cache.setData, contents_onBlock_self h.wf hheld.1 rfl]

theorem release_base :
    ∃ s', (cacheRelease a).exec s = (.ok (), s') ∧ (baseView sb).Released s a b s' ∧
      OnlyList s s' := by
  obtain ⟨hheld, rfl⟩ := held_base.mp ha
  have hrest : OnlyList s (s.released a) := onlyList_onBlock _ _ _
  have hok := h.of_onlyList (h.wf.release hheld.1) hrest
  refine ⟨_, exec_cacheRelease h.wf hheld, ⟨hok, ?_, fun x hx => ?_, fun hs => ?_, rfl, rfl⟩, hrest⟩
  · funext a'
    obtain rfl | hne := eq_or_ne a' a
    · rw [update_self]
      exact held_base_none.mpr fun hh => (held_released.mp hh).1 rfl
    rw [update_of_ne hne]
    cases hh : (baseView sb).held s a' with
    | none => exact held_base_none.mpr fun ha' => held_base_none.mp hh (held_released.mp ha').2
    | some b' =>
      obtain ⟨ha', hb'⟩ := held_base.mp hh
      refine held_base.mpr ⟨held_released.mpr ⟨hne, ha'⟩, ?_⟩
      rw [heap_released_of_ne s hne, hb']
  · exact keeps_base h.wf hok.wf fun hst => .released h.wf hheld.1 hst fun he => absurd he hx
  · exact keeps_base h.wf hok.wf fun hst => .released h.wf hheld.1 hst fun _ => hs a hheld.1 rfl

theorem syncNull_base :
    ∃ s', (cacheSync none a).exec s = (.ok (), s') ∧ (baseView sb).Synced s b s' ∧
      Logged c [] s s' := by
  obtain ⟨hheld, rfl⟩ := held_base.mp ha
  have hok : SingleOp sb (s.syncNull a) := ⟨h.wf, h.nodup, h.credit, h.others, h.outside⟩
  refine ⟨s.syncNull a, rfl, ⟨hok, rfl, fun a' ha' hno => ?_,
    fun x => keeps_base h.wf hok.wf fun hs => .syncNull h.wf hheld.1 (.inl hs), rfl, rfl⟩,
    rfl, fun _ _ => rfl, (append_nil _).symm, rfl⟩
  right
  rw [BlockList.WF.eq_of_blockNo h.wf ha' hheld.1 hno, Cache.syncNull, disk_deviceWrite_self]
  rfl

end

end

/-- The state after a `cache_sync` with a context that returns. -/
def Cache.synced (s : Cache) (c a : Nat) (hd : LogHeader) (ctx : OpContext) : Cache :=
  { s.pin a with
    header := hd
    ctxs := update s.ctxs c ctx
    syncs := s.syncs ++ [(s.heap a).blockNo] }

theorem exec_cacheSync_logged
    (hs : syncLog s.header (s.ctxs c) (s.heap a).blockNo = some (hd, ctx)) :
    (cacheSync (some c) a).exec s = (.ok (), s.synced c a hd ctx) := by
  have hs' : syncLog (s.pin a).header ((s.pin a).ctxs c) (s.heap a).blockNo = some (hd, ctx) := hs
  unfold cacheSync
  rw [exec_bind_ok (exec_withBlock _ _ _), exec_bind_ok (exec_get _), heap_onBlock_self, ← Cache.pin,
    hs']
  rfl

theorem exec_cacheSync_full (hs : syncLog s.header (s.ctxs c) (s.heap a).blockNo = none) :
    (cacheSync (some c) a).exec s = (.error .panic, s.pin a) := by
  have hs' : syncLog (s.pin a).header ((s.pin a).ctxs c) (s.heap a).blockNo = none := hs
  unfold cacheSync
  rw [exec_bind_ok (exec_withBlock _ _ _), exec_bind_ok (exec_get _), heap_onBlock_self, ← Cache.pin,
    hs']
  rfl

theorem SingleOp.sync (h : SingleOp sb s) (hheld : s.Held a)
    (hout : ¬ (logLayout sb).Area OP_MAX_NUM_BLOCKS (s.heap a).blockNo)
    (hs : syncLog s.header (s.ctxs c) (s.heap a).blockNo = some (hd, ctx)) :
    SingleOp sb (s.synced c a hd ctx) where
  wf := h.wf.pin hheld.1 (mem_of_syncLog hs)
  nodup := nodup_of_syncLog hs h.nodup
  credit := by
    have hcredit := h.credit
    have hpaid := credit_of_syncLog hs
    show hd.numBlocks + (update s.ctxs c ctx stackCtx).rm ≤ _
    obtain rfl | hc := eq_or_ne stackCtx c
    · rw [update_self]
      omega
    · have hrm := h.others c (Ne.symm hc)
      rw [update_of_ne hc]
      omega
  others := fun c' hc' => by
    show (update s.ctxs c ctx c').rm = 0
    obtain rfl | hc := eq_or_ne c' c
    · have hrm := h.others c' hc'
      rcases syncLog_eq_some hs with ⟨-, -, rfl⟩ | ⟨-, hpos, -⟩
      · rw [update_self, hrm]
      · omega
    · rw [update_of_ne hc, h.others c' hc']
  outside := fun x hx => by
    rcases (mem_of_syncLog hs x).mp hx with rfl | hx
    · exact hout
    · exact h.outside x hx

theorem sync_base (c : Nat) (h : SingleOp sb s) (ha : (baseView sb).held s a = some b)
    (hout : ¬ (logLayout sb).Area OP_MAX_NUM_BLOCKS b) :
    Post (fun _ s' => (baseView sb).Synced s b s' ∧ Logged c [b] s s')
      (fun s' => syncLog s.header (s.ctxs c) b = none ∧ OnlyList s s')
      ((cacheSync (some c) a).exec s) := by
  obtain ⟨hheld, rfl⟩ := held_base.mp ha
  cases hs : syncLog s.header (s.ctxs c) (s.heap a).blockNo with
  | none =>
    rw [exec_cacheSync_full hs]
    exact ⟨rfl, onlyList_onBlock _ _ _⟩
  | some r =>
    rw [exec_cacheSync_logged hs]
    have hok := h.sync hheld hout hs
    refine ⟨⟨hok, held_base_congr fun a' => ⟨held_pin, fun _ => blockNo_pin a'⟩,
      fun a' ha' hno => ?_, fun x => keeps_base h.wf hok.wf fun hst => ?_, rfl, rfl⟩, ?_,
      fun c' hc' => update_of_ne hc' .., rfl, rfl⟩
    · left
      rw [BlockList.WF.pinned hok.wf a' ha', hno]
      exact (mem_of_syncLog hs _).mpr (.inl rfl)
    · have hc : (s.pin a).contents x = s.contents x := contents_onBlock h.wf hheld.1 rfl rfl x
      have hst' : (s.pin a).Stable x := by
        by_cases hx : x = (s.heap a).blockNo
        · rw [hx]
          exact stable_onBlock_self h.wf hheld.1 rfl (.inr (.inl rfl))
        · exact stable_onBlock_of_ne rfl hx hst
      exact ⟨hc, hst'⟩
    · show (syncLog _ _ _).bind _ = _
      rw [hs]
      simp [syncAll, Cache.synced]

/-- `cache_sync` has found no room in the log, after it had logged up to `n` blocks. -/
def Cache.LogStop (c n : Nat) (s s' : Cache) : Prop :=
  ∃ bs x, bs.length ≤ n ∧ Logged c bs s s' ∧ syncLog s'.header (s'.ctxs c) x = none

theorem Cache.LogStop.mono {n m : Nat} {s : Cache} (h : s.LogStop c n s') (hnm : n ≤ m) :
    s.LogStop c m s' := by
  obtain ⟨bs, x, hlen, hlog, hfull⟩ := h
  exact ⟨bs, x, Nat.le_trans hlen hnm, hlog, hfull⟩

theorem Cache.LogStop.after {n : Nat} {bs : List Nat} {s s'' : Cache} (h : s'.LogStop c n s'')
    (hlog : Logged c bs s s') : s.LogStop c (bs.length + n) s'' := by
  obtain ⟨bs', x, hlen, hlog', hfull⟩ := h
  refine ⟨bs ++ bs', x, ?_, hlog.trans hlog', hfull⟩
  rw [length_append]
  omega

/-- The contents of block `b` have been changed with `f`, and logged. -/
structure BlockStored (sb : SuperBlock) (s : Cache) (b : Nat) (f : Data → Data) (s' : Cache) : Prop where
  ok : SingleOp sb s'
  held : (baseView sb).held s' = (baseView sb).held s
  view : s'.contents b = f (s.contents b)
  synced : (baseView sb).synced s' b
  keeps : ∀ x, x ≠ b → (baseView sb).Keeps s s' x

theorem store_base {β : Type} {k : CacheM β}
    {R : β → Cache → Prop} {E : Cache → Prop} (hfree : ∀ a, (baseView sb).held s a ≠ some b)
    (hacq : (baseView sb).Acquired s b a s1) (hrest : OnlyList s s1)
    (hout : ¬ (logLayout sb).Area OP_MAX_NUM_BLOCKS b)
    (hk : ∀ s', BlockStored sb s b f s' → Logged c [b] s s' → Post R E (k.exec s'))
    (hE : ∀ s', s.LogStop c 0 s' → syncLog s.header (s.ctxs c) b = none → E s') :
    Post R E (Prog.exec (do
      withBlock a fun blk => { blk with data := f blk.data }
      cacheSync (some c) a
      cacheRelease a
      k) s1) := by
  obtain ⟨s2, h2, hch, hrest2⟩ := setData_base hacq.ok hacq.held_self f
  have h2' : (withBlock a fun blk => { blk with data := f blk.data }).exec s1 = (.ok (), s2) := h2
  have ha2 : (baseView sb).held s2 a = some b := hch.held ▸ hacq.held_self
  have hlog2 : Logged c [] s s2 := (hrest.trans hrest2).logged c
  rw [exec_bind_ok h2']
  refine Post.bind (Q := fun _ s' => (baseView sb).Synced s2 b s' ∧ Logged c [b] s2 s') ?_ ?_
  · refine (sync_base c hch.ok ha2 hout).imp (fun _ _ h => h) fun s' hs' => hE s' ?_ ?_
    · obtain ⟨hfull, hrest'⟩ := hs'
      refine ⟨[], b, Nat.le_refl 0, hlog2.trans (hrest'.logged c), ?_⟩
      rw [hrest'.header, hrest'.ctxs]
      exact hfull
    · have hsame := hrest.trans hrest2
      rw [← hsame.header, ← hsame.ctxs]
      exact hs'.1
  rintro _ s3 ⟨hsy, hlog3⟩
  have ha3 : (baseView sb).held s3 a = some b := hsy.held ▸ ha2
  obtain ⟨s4, h4, hrel, hrest4⟩ := release_base hsy.ok ha3
  rw [exec_bind_ok h4]
  have hsafe : (baseView sb).Safe s3 b := .inr ⟨a, ha3⟩
  have hview3 := (hsy.keeps b (.inr ⟨a, ha2⟩)).2.trans (hch.view.trans (congrArg f hacq.view))
  obtain ⟨hsafe4, hview4⟩ := hrel.keepsSynced hsy.synced hsafe
  have hheld4 := hacq.held_released (hsy.held.trans hch.held) hrel
  refine hk s4 ⟨hrel.ok, hheld4, hview4.trans hview3, ?_, fun x hx => ?_⟩
    ((hlog2.trans hlog3).trans (hrest4.logged c))
  · refine hsafe4.resolve_right ?_
    rintro ⟨a', ha'⟩
    exact hfree a' (hheld4 ▸ ha')
  · exact ((hacq.keeps x).trans (hch.keeps x hx)).trans ((hsy.keeps x).trans (hrel.keeps x hx))

end

/-! ## The bitmap -/

namespace SuperBlock

/-- The bitmap block with the bit of block `b`. -/
def bitmapBlock (sb : SuperBlock) (b : Nat) : Nat := sb.bitmapStart + b / BIT_PER_BLOCK

def IsBitmap (sb : SuperBlock) (x : Nat) : Prop := ∃ b < sb.numBlocks, x = sb.bitmapBlock b

/-- The blocks of the cache: the part of the log that one operation can fill, and the bitmap. -/
def Own (sb : SuperBlock) (x : Nat) : Prop :=
  (logLayout sb).Area OP_MAX_NUM_BLOCKS x ∨ sb.IsBitmap x

def dataStart (sb : SuperBlock) : Nat := sb.numBlocks - sb.numDataBlocks

/-- The log, the bitmap and the inode blocks are apart, and lie before the data blocks. -/
structure Layout (sb : SuperBlock) : Prop where
  size : sb.numBlocks ≤ 2 ^ 32
  own : ∀ x, sb.Own x → x < sb.dataStart
  apart : ∀ x, sb.IsBitmap x → ¬ (logLayout sb).Area OP_MAX_NUM_BLOCKS x
  inode : ∀ no < sb.numInodes, sb.toBlockNo no < sb.dataStart ∧ ¬ sb.Own (sb.toBlockNo no)

theorem dataStart_le (sb : SuperBlock) : sb.dataStart ≤ sb.numBlocks := Nat.sub_le _ _

theorem bitmapBlock_eq {b i : Nat} (h : b / BIT_PER_BLOCK = i) :
    sb.bitmapBlock b = sb.bitmapBlock (BIT_PER_BLOCK * i) := by
  rw [bitmapBlock, bitmapBlock, Nat.mul_div_cancel_left i (by decide), h]

theorem isBitmap_bitmapBlock {b : Nat} (hb : b < sb.numBlocks) :
    sb.IsBitmap (sb.bitmapBlock b) := ⟨b, hb, rfl⟩

end SuperBlock

/-- The bit of block `b`. -/
def Cache.bit (sb : SuperBlock) (s : Cache) (b : Nat) : Bool :=
  Bitmap.bit (s.contents (sb.bitmapBlock b)) (b % BIT_PER_BLOCK)

/-- The blocks that `cache_alloc` can give out. -/
def Cache.freeBlocks (sb : SuperBlock) (s : Cache) : Finset Nat :=
  (Finset.range sb.numBlocks).filter fun b => s.bit sb b = false

/-- The bitmap is synced and in nobody's hands, and the metadata is allocated. -/
structure KernelOk (sb : SuperBlock) (s : Cache) : Prop extends SingleOp sb s where
  bitmap : ∀ x, sb.IsBitmap x → (baseView sb).synced s x ∧ ∀ a, (baseView sb).held s a ≠ some x
  metadata : ∀ b < sb.dataStart, s.bit sb b = true

def kernelView (sb : SuperBlock) : StoreView Cache :=
  { baseView sb with
    Ok := KernelOk sb
    used := fun s b => sb.numBlocks ≤ b ∨ s.bit sb b = true
    room := fun s => (s.freeBlocks sb).card
    fixed := fun b => b < sb.dataStart ∨ sb.numBlocks ≤ b
    own := sb.Own }

section

variable {sb : SuperBlock} {s s' s'' : Cache} {a b c x : Nat}

theorem used_kernel : (kernelView sb).used s b ↔ sb.numBlocks ≤ b ∨ s.bit sb b = true := Iff.rfl

theorem mem_freeBlocks : b ∈ s.freeBlocks sb ↔ b < sb.numBlocks ∧ s.bit sb b = false := by
  rw [Cache.freeBlocks, Finset.mem_filter, Finset.mem_range]

structure BitsKept (sb : SuperBlock) (s s' : Cache) : Prop where
  ok : KernelOk sb s'
  used : (kernelView sb).used s' = (kernelView sb).used s
  room : (kernelView sb).room s' = (kernelView sb).room s

theorem BitsKept.refl (h : KernelOk sb s) : BitsKept sb s s := ⟨h, rfl, rfl⟩

theorem BitsKept.trans (h : BitsKept sb s s') (h' : BitsKept sb s' s'') : BitsKept sb s s'' :=
  ⟨h'.ok, h'.used.trans h.used, h'.room.trans h.room⟩

theorem BitsKept.bit (h : BitsKept sb s s') (hb : b < sb.numBlocks) (hset : s'.bit sb b = true) :
    s.bit sb b = true := by
  have hused : (kernelView sb).used s' b := .inr hset
  rw [h.used] at hused
  exact hused.resolve_left (Nat.not_le.mpr hb)

theorem BitsKept.allocated (h : BitsKept sb s s')
    (hheld : (baseView sb).held s' = (baseView sb).held s)
    (hk : ∀ x, (baseView sb).Keeps s s' x) (ha : (kernelView sb).Allocated s' b s'') :
    (kernelView sb).Allocated s b s'' where
  ok := ha.ok
  ne_zero := ha.ne_zero
  lt := ha.lt
  fresh := h.used ▸ ha.fresh
  zero := ha.zero
  safe := ha.safe
  held := ha.held.trans hheld
  keeps := fun x hx hne => StoreView.Keeps.trans (hk x) (ha.keeps x hx hne)
  used := fun x => by rw [ha.used, h.used]
  room := ha.room.trans h.room

section

variable (h : KernelOk sb s)

include h

theorem KernelOk.sameBits (hok : SingleOp sb s')
    (hk : ∀ x, sb.IsBitmap x → (baseView sb).Keeps s s' x)
    (hheld : ∀ x, sb.IsBitmap x → ∀ a, (baseView sb).held s' a ≠ some x) : BitsKept sb s s' := by
  have hsafe : ∀ x, sb.IsBitmap x → (baseView sb).Safe s' x ∧ s'.contents x = s.contents x :=
    fun x hx => hk x hx (.inl (h.bitmap x hx).1)
  have hbit : ∀ b < sb.numBlocks, s'.bit sb b = s.bit sb b := fun b hb => by
    rw [Cache.bit, Cache.bit, (hsafe _ (isBitmap_bitmapBlock hb)).2]
  refine ⟨⟨hok, fun x hx => ⟨?_, hheld x hx⟩, fun b hb => ?_⟩, ?_, ?_⟩
  · refine (hsafe x hx).1.resolve_right ?_
    rintro ⟨a, ha⟩
    exact hheld x hx a ha
  · rw [hbit b (Nat.lt_of_lt_of_le hb sb.dataStart_le)]
    exact h.metadata b hb
  · funext b
    by_cases hb : b < sb.numBlocks
    · exact propext (by rw [used_kernel, used_kernel, hbit b hb])
    · exact propext ⟨fun _ => .inl (Nat.le_of_not_lt hb), fun _ => .inl (Nat.le_of_not_lt hb)⟩
  · have hfree : s'.freeBlocks sb = s.freeBlocks sb := by
      ext b
      rw [mem_freeBlocks, mem_freeBlocks]
      exact and_congr_right fun hb => by rw [hbit b hb]
    exact congrArg Finset.card hfree

section

variable (hown : ¬ sb.Own b)

include hown

theorem KernelOk.acquired
    (ha : (baseView sb).Acquired s b a s') : (kernelView sb).Acquired s b a s' := by
  have hbits : BitsKept sb s s' := h.sameBits ha.ok (fun x _ => ha.keeps x) fun x hx a' ha' => by
    rw [ha.held] at ha'
    by_cases he : a' = a
    · rw [he, update_self] at ha'
      cases ha'
      exact hown (.inr hx)
    · rw [update_of_ne he] at ha'
      exact (h.bitmap x hx).2 a' ha'
  exact ⟨hbits.ok, ha.new, ha.held, ha.view, ha.synced, ha.keeps, hbits.used, hbits.room⟩

theorem KernelOk.sameBits_of_held (hok : SingleOp sb s')
    (hk : ∀ x, x ≠ b → (baseView sb).Keeps s s' x)
    (hheld : ∀ a x, (baseView sb).held s' a = some x → (baseView sb).held s a = some x) :
    BitsKept sb s s' :=
  h.sameBits hok (fun x hx => hk x fun he => hown (.inr (he ▸ hx))) fun x hx a ha =>
    (h.bitmap x hx).2 a (hheld a x ha)

theorem KernelOk.changed
    (hc : (baseView sb).Changed s b f s') : (kernelView sb).Changed s b f s' := by
  have hbits := h.sameBits_of_held hown hc.ok hc.keeps fun a x ha => hc.held ▸ ha
  exact ⟨hbits.ok, hc.held, hc.view, hc.keeps, hbits.used, hbits.room⟩

theorem KernelOk.synced (hs : (baseView sb).Synced s b s') : (kernelView sb).Synced s b s' := by
  have hbits := h.sameBits_of_held hown hs.ok (fun x _ => hs.keeps x) fun a x ha => hs.held ▸ ha
  exact ⟨hbits.ok, hs.held, hs.synced, hs.keeps, hbits.used, hbits.room⟩

theorem KernelOk.released
    (hr : (baseView sb).Released s a b s') : (kernelView sb).Released s a b s' := by
  have hbits := h.sameBits_of_held hown hr.ok hr.keeps fun a' x ha' => by
    rw [hr.held] at ha'
    by_cases he : a' = a
    · rw [he, update_self] at ha'
      cases ha'
    · rwa [update_of_ne he] at ha'
  exact ⟨hbits.ok, hr.held, hr.keeps, hr.keepsSynced, hbits.used, hbits.room⟩

end

end

/-! ## `cache_alloc` and `cache_free` -/

/-- The bit of block `b` has been changed to `v`. -/
structure BitSet (sb : SuperBlock) (s : Cache) (b : Nat) (v : Bool) (s' : Cache) : Prop where
  ok : KernelOk sb s'
  held : (baseView sb).held s' = (baseView sb).held s
  bit : ∀ x < sb.numBlocks, s'.bit sb x = if x = b then v else s.bit sb x
  keeps : ∀ x, ¬ sb.IsBitmap x → (baseView sb).Keeps s s' x

theorem KernelOk.bitSet {v : Bool} (h : KernelOk sb s) (hb : b < sb.numBlocks)
    (hv : b < sb.dataStart → v = true) (hst : BlockStored sb s (sb.bitmapBlock b) f s')
    (hf : ∀ i, Bitmap.bit (f (s.contents (sb.bitmapBlock b))) i =
      if i = b % BIT_PER_BLOCK then v else Bitmap.bit (s.contents (sb.bitmapBlock b)) i) :
    BitSet sb s b v s' := by
  have hbits : ∀ x < sb.numBlocks, s'.bit sb x = if x = b then v else s.bit sb x := by
    intro x hx
    by_cases hsame : x / BIT_PER_BLOCK = b / BIT_PER_BLOCK
    · have hblock : sb.bitmapBlock x = sb.bitmapBlock b := by
        rw [bitmapBlock, bitmapBlock, hsame]
      rw [Cache.bit, hblock, hst.view, hf, Cache.bit, hblock]
      refine if_congr ⟨fun hmod => ?_, fun he => he ▸ rfl⟩ rfl rfl
      rw [← Nat.div_add_mod x BIT_PER_BLOCK, hsame, hmod, Nat.div_add_mod]
    have hne : sb.bitmapBlock x ≠ sb.bitmapBlock b := fun he =>
      hsame (Nat.add_left_cancel he)
    have hxb : x ≠ b := by
      rintro rfl
      exact hsame rfl
    have hview := (hst.keeps _ hne (.inl (h.bitmap _ (isBitmap_bitmapBlock hx)).1)).2
    rw [if_neg hxb, Cache.bit, Cache.bit]
    exact congrArg (Bitmap.bit · _) hview
  refine ⟨⟨hst.ok, fun x hx => ?_, fun x hx => ?_⟩, hst.held, hbits, fun x hx => ?_⟩
  · rw [hst.held]
    refine ⟨?_, (h.bitmap x hx).2⟩
    by_cases hxb : x = sb.bitmapBlock b
    · rw [hxb]
      exact hst.synced
    · refine (hst.keeps x hxb (.inl (h.bitmap x hx).1)).1.resolve_right ?_
      rintro ⟨a, ha⟩
      exact (h.bitmap x hx).2 a (hst.held ▸ ha)
  · rw [hbits x (Nat.lt_of_lt_of_le hx sb.dataStart_le)]
    split
    next he => exact hv (he ▸ hx)
    next => exact h.metadata x hx
  · refine hst.keeps x ?_
    rintro rfl
    exact hx (isBitmap_bitmapBlock hb)

theorem BitSet.used_set (h : BitSet sb s b true s') (x : Nat) :
    (kernelView sb).used s' x ↔ x = b ∨ (kernelView sb).used s x := by
  rw [used_kernel, used_kernel]
  by_cases hx : x < sb.numBlocks
  · rw [h.bit x hx]
    split
    next he => simp [he]
    next he => simp [he]
  · have hle : sb.numBlocks ≤ x := Nat.le_of_not_lt hx
    exact ⟨fun _ => .inr (.inl hle), fun _ => .inl hle⟩

theorem BitSet.room_set (h : BitSet sb s b true s') (hb : b < sb.numBlocks)
    (hfree : s.bit sb b = false) : (kernelView sb).room s' + 1 = (kernelView sb).room s := by
  have hmem := mem_freeBlocks.mpr ⟨hb, hfree⟩
  have herase : s'.freeBlocks sb = (s.freeBlocks sb).erase b := by
    ext x
    rw [Finset.mem_erase, mem_freeBlocks, mem_freeBlocks]
    by_cases hx : x < sb.numBlocks
    · rw [h.bit x hx]
      split
      next he => simp [he]
      next he => simp [he]
    · simp [hx]
  show (s'.freeBlocks sb).card + 1 = (s.freeBlocks sb).card
  rw [herase, Finset.card_erase_add_one hmem]

theorem BitSet.used_clear (h : BitSet sb s b false s') (hb : b < sb.numBlocks) (x : Nat) :
    (kernelView sb).used s' x ↔ x ≠ b ∧ (kernelView sb).used s x := by
  rw [used_kernel, used_kernel]
  by_cases hx : x < sb.numBlocks
  · rw [h.bit x hx]
    split
    next he =>
      simp
      omega
    next he => simp [he]
  · have hle : sb.numBlocks ≤ x := Nat.le_of_not_lt hx
    exact ⟨fun _ => ⟨by omega, .inl hle⟩, fun _ => .inl hle⟩

theorem BitSet.room_clear (h : BitSet sb s b false s') (hb : b < sb.numBlocks)
    (hused : s.bit sb b = true) : (kernelView sb).room s' = (kernelView sb).room s + 1 := by
  have hmem : b ∉ s.freeBlocks sb := fun hm => by
    have := (mem_freeBlocks.mp hm).2
    rw [hused] at this
    cases this
  have hins : s'.freeBlocks sb = insert b (s.freeBlocks sb) := by
    ext x
    rw [Finset.mem_insert, mem_freeBlocks, mem_freeBlocks]
    by_cases hx : x < sb.numBlocks
    · rw [h.bit x hx]
      split
      next he => simp [he, hb]
      next he => simp [he]
    · have hne : x ≠ b := by
        rintro rfl
        exact hx hb
      simp [hx, hne]
  show (s'.freeBlocks sb).card = (s.freeBlocks sb).card + 1
  rw [hins, Finset.card_insert_of_notMem hmem]

theorem KernelOk.data_of_bit (h : KernelOk sb s) (hl : sb.Layout) (hfree : s.bit sb b = false) :
    sb.dataStart ≤ b ∧ ¬ sb.Own b := by
  have hlt : ¬ b < sb.dataStart := fun hb => by
    have := h.metadata b hb
    rw [hfree] at this
    cases this
  exact ⟨Nat.le_of_not_lt hlt, fun ho => hlt (hl.own b ho)⟩

theorem free_of_bit (hhold : (kernelView sb).Holding s) (hb : b < sb.numBlocks)
    (hfree : s.bit sb b = false) (a : Nat) : (baseView sb).held s a ≠ some b := fun ha => by
  rcases (hhold a b ha).1 with hle | hset
  · omega
  · rw [hfree] at hset
    cases hset

theorem BitSet.allocated (h : KernelOk sb s) (hl : sb.Layout)
    (hb : b < sb.numBlocks) (hfree : s.bit sb b = false) (hset : BitSet sb s b true s')
    (hst : BlockStored sb s' b f s'') (hf : ∀ d, f d = Bytes.zero) :
    (kernelView sb).Allocated s b s'' := by
  obtain ⟨hdata, hown⟩ := h.data_of_bit hl hfree
  have hbits := hset.ok.sameBits_of_held hown hst.ok hst.keeps fun a x ha => hst.held ▸ ha
  have hpos : 0 < sb.dataStart := Nat.zero_lt_of_lt (hl.own _ (.inl (.inl rfl)))
  refine ⟨hbits.ok, by omega, Nat.lt_of_lt_of_le hb hl.size, ?_, ?_, .inl hst.synced,
    hst.held.trans hset.held, fun x hx hne => ?_, fun x => ?_, ?_⟩
  · rw [used_kernel, hfree]
    simp only [Bool.false_eq_true, or_false]
    omega
  · show s''.contents b = _
    rw [hst.view, hf]
  · exact (hset.keeps x fun hbm => hx (.inr hbm)).trans (hst.keeps x hne)
  · rw [hbits.used, hset.used_set]
  · rw [hbits.room, hset.room_set hb hfree]

theorem KernelOk.read_bitmap (h : KernelOk sb s) (hx : sb.IsBitmap x)
    (hacq : (baseView sb).Acquired s x a s1) (hrel : (baseView sb).Released s1 a x s') :
    BitsKept sb s s' ∧ (baseView sb).held s' = (baseView sb).held s ∧
      ∀ y, (baseView sb).Keeps s s' y := by
  have hk : ∀ y, (baseView sb).Keeps s s' y := fun y => by
    obtain rfl | hy := eq_or_ne y x
    · exact (hacq.keeps y).trans (hrel.keepsSynced (hacq.synced (h.bitmap y hx).1))
    · exact (hacq.keeps y).trans (hrel.keeps y hy)
  have hheld := hacq.held_released rfl hrel
  refine ⟨h.sameBits hrel.ok (fun y _ => hk y) fun y hy a' ha' => ?_, hheld, hk⟩
  exact (h.bitmap y hy).2 a' (hheld ▸ ha')

theorem bitmapBlock_lt (hl : sb.Layout) (hb : b < sb.numBlocks) : sb.bitmapBlock b < 2 ^ 64 :=
  calc sb.bitmapBlock b < sb.dataStart := hl.own _ (.inr (isBitmap_bitmapBlock hb))
    _ ≤ sb.numBlocks := sb.dataStart_le
    _ ≤ 2 ^ 32 := hl.size
    _ ≤ 2 ^ 64 := by decide

/-- The loop of `cache_alloc` from the bitmap block `i` on stops if the log is full, or if it finds no
clear bit. -/
theorem post_allocFrom (c : Nat) (hl : sb.Layout) (is : List Nat) :
    ∀ {s : Cache}, KernelOk sb s → (kernelView sb).Holding s →
    (∀ i ∈ is, BIT_PER_BLOCK * i < sb.numBlocks) →
    Post (fun b s' => (kernelView sb).Allocated s b s' ∧ Logged c [sb.bitmapBlock b, b] s s')
      (fun s' => s.LogStop c 1 s' ∨
        (∀ b < sb.numBlocks, b / BIT_PER_BLOCK ∈ is → s.bit sb b = true) ∧
          BitsKept sb s s' ∧ Logged c [] s s')
      ((allocFrom sb c (is.map (BIT_PER_BLOCK * ·))).exec s) := by
  induction is with
  | nil =>
    intro s h _ _
    exact Or.inr ⟨fun b _ hb => absurd hb not_mem_nil, .refl h, (OnlyList.refl s).logged c⟩
  | cons i is ih =>
    intro s h hhold his
    have hi := his i mem_cons_self
    have hbm : usize (sb.bitmapStart + BIT_PER_BLOCK * i / BIT_PER_BLOCK) =
        sb.bitmapBlock (BIT_PER_BLOCK * i) := Nat.mod_eq_of_lt (bitmapBlock_lt hl hi)
    have hbit := isBitmap_bitmapBlock hi
    have hnfree := (h.bitmap _ hbit).2
    obtain ⟨a, s1, hexec, hacq, hrest⟩ := acquire_base h.toSingleOp hnfree
    have hdata : (s1.heap a).data = s.contents (sb.bitmapBlock (BIT_PER_BLOCK * i)) := by
      obtain ⟨hheld, hno⟩ := held_base.mp hacq.held_self
      rw [← contents_of_mem hacq.ok.wf hheld.1, hno]
      exact hacq.view
    rw [map_cons, allocFrom, hbm, exec_bind_ok hexec, exec_bind_ok (exec_get s1), hdata]
    cases hfirst : Bitmap.firstClear (s.contents (sb.bitmapBlock (BIT_PER_BLOCK * i)))
        (min (BIT_PER_BLOCK * i + BIT_PER_BLOCK) sb.numBlocks - BIT_PER_BLOCK * i) with
    | none =>
      obtain ⟨s2, hexec2, hrel, hrest2⟩ := release_base hacq.ok hacq.held_self
      obtain ⟨hbits, hheld, hk⟩ := h.read_bitmap hbit hacq hrel
      have hlog : Logged c [] s s2 := (hrest.trans hrest2).logged c
      have hhold2 : (kernelView sb).Holding s2 := fun a' b' ha' => by
        rw [hbits.used]
        exact hhold a' b' (hheld ▸ ha')
      dsimp only
      rw [hfirst]
      rw [exec_bind_ok hexec2]
      refine (ih hbits.ok hhold2 fun i' hi' => his i' (mem_cons_of_mem _ hi')).imp ?_ ?_
      · rintro b s' ⟨hall, hlog'⟩
        exact ⟨hbits.allocated hheld hk hall, hlog.trans hlog'⟩
      rintro s' (hstop | ⟨hset, hbits', hlog'⟩)
      · exact .inl (hstop.after hlog)
      refine .inr ⟨fun b hb hmem => ?_, hbits.trans hbits', hlog.trans hlog'⟩
      by_cases hbi : b / BIT_PER_BLOCK = i
      · have hbit := Bitmap.firstClear_eq_none hfirst (i := b % BIT_PER_BLOCK) (by
          have := Nat.mod_lt b (show 0 < BIT_PER_BLOCK by decide)
          have := Nat.div_add_mod b BIT_PER_BLOCK
          rw [hbi] at this
          omega)
        rwa [← bitmapBlock_eq hbi] at hbit
      · exact hbits.bit hb (hset b hb ((mem_cons.mp hmem).resolve_left hbi))
    | some j =>
      obtain ⟨hj, hclear⟩ := Bitmap.firstClear_eq_some hfirst
      have hjlt : j < BIT_PER_BLOCK := by omega
      have hb : BIT_PER_BLOCK * i + j < sb.numBlocks := by omega
      have hdiv : (BIT_PER_BLOCK * i + j) / BIT_PER_BLOCK = i := by
        rw [Nat.mul_add_div (by decide), Nat.div_eq_of_lt hjlt, Nat.add_zero]
      have hmod : (BIT_PER_BLOCK * i + j) % BIT_PER_BLOCK = j := by
        rw [Nat.mul_add_mod, Nat.mod_eq_of_lt hjlt]
      have hblock : sb.bitmapBlock (BIT_PER_BLOCK * i + j) = sb.bitmapBlock (BIT_PER_BLOCK * i) :=
        bitmapBlock_eq hdiv
      have hfree : s.bit sb (BIT_PER_BLOCK * i + j) = false := by
        rw [Cache.bit, hblock, hmod]
        exact hclear
      have husize : usize (BIT_PER_BLOCK * i + j) = BIT_PER_BLOCK * i + j :=
        Nat.mod_eq_of_lt (Nat.lt_of_lt_of_le (Nat.lt_of_lt_of_le hb hl.size) (by decide))
      obtain ⟨-, hown⟩ := h.data_of_bit hl hfree
      dsimp only
      rw [hfirst]
      dsimp only
      rw [husize]
      refine store_base (f := (Bitmap.setBit · j)) hnfree hacq hrest (hl.apart _ hbit)
        (fun s4 hst hlog => ?_) fun s' hstop _ => .inl (hstop.mono (Nat.zero_le 1))
      rw [← hblock] at hst hlog
      have hset := h.bitSet hb (fun _ => rfl) hst fun k => by
          rw [Bitmap.bit_setBit _ hjlt, hmod]
          split
          next hk => simp [hk]
          next hk => simp [hk]
      have hfree4 : ∀ a, (baseView sb).held s4 a ≠ some (BIT_PER_BLOCK * i + j) := fun a ha =>
        free_of_bit hhold hb hfree a (hset.held ▸ ha)
      obtain ⟨a4, s5, hexec5, hacq5, hrest5⟩ := acquire_base hset.ok.toSingleOp hfree4
      rw [exec_bind_ok hexec5]
      refine store_base (f := fun _ => Bytes.zero) hfree4 hacq5 hrest5 (fun ha => hown (.inl ha))
        (fun s8 hst8 hlog8 => ?_) fun s' hstop _ => .inl (hstop.after hlog)
      exact ⟨BitSet.allocated h hl hb hfree hset hst8 fun _ => rfl, hlog.trans hlog8⟩

section

variable (c) (hl : sb.Layout) (h : KernelOk sb s)

include hl h

theorem post_cacheAlloc (hhold : (kernelView sb).Holding s) :
    Post (fun b s' => (kernelView sb).Allocated s b s' ∧ Logged c [sb.bitmapBlock b, b] s s')
      (fun s' => s.LogStop c 1 s' ∨
        (kernelView sb).room s = 0 ∧ (kernelView sb).room s' = 0 ∧ Logged c [] s s')
      ((cacheAlloc sb (some c)).exec s) := by
  have hpos : 0 < BIT_PER_BLOCK := by decide
  refine (post_allocFrom c hl _ h hhold fun i hi => ?_).imp (fun _ _ hr => hr) ?_
  · rw [mem_range, Nat.lt_div_iff_mul_lt hpos] at hi
    rw [Nat.mul_comm]
    omega
  rintro s' (hstop | ⟨hset, hbits, hlog⟩)
  · exact .inl hstop
  have hnone : s.freeBlocks sb = ∅ := by
    refine Finset.eq_empty_of_forall_notMem fun b hb => ?_
    obtain ⟨hlt, hfree⟩ := mem_freeBlocks.mp hb
    have hmem : b / BIT_PER_BLOCK ∈
        List.range ((sb.numBlocks + (BIT_PER_BLOCK - 1)) / BIT_PER_BLOCK) := by
      rw [mem_range, Nat.lt_div_iff_mul_lt hpos]
      have := Nat.div_mul_le_self b BIT_PER_BLOCK
      omega
    rw [hset b hlt hmem] at hfree
    cases hfree
  have hroom := Finset.card_eq_zero.mpr hnone
  exact .inr ⟨hroom, hbits.room.trans hroom, hlog⟩

omit hl h in
/-- `cache_free` on a number whose bit is in a block outside the log: the panic is that of a
`cache_sync` without room. -/
theorem stored_cacheFree (h : SingleOp sb s) (hlt : sb.bitmapBlock b < 2 ^ 64)
    (hfree : ∀ a, (baseView sb).held s a ≠ some (sb.bitmapBlock b))
    (hout : ¬ (logLayout sb).Area OP_MAX_NUM_BLOCKS (sb.bitmapBlock b)) :
    Post (fun _ s' => BlockStored sb s (sb.bitmapBlock b) (Bitmap.clearBit · (b % BIT_PER_BLOCK)) s' ∧
        Logged c [sb.bitmapBlock b] s s')
      (fun s' => s.LogStop c 0 s' ∧ syncLog s.header (s.ctxs c) (sb.bitmapBlock b) = none)
      ((cacheFree sb (some c) b).exec s) := by
  have hmap : usize (sb.bitmapStart + b / BIT_PER_BLOCK) = sb.bitmapBlock b := Nat.mod_eq_of_lt hlt
  obtain ⟨a, s1, hexec, hacq, hrest⟩ := acquire_base h hfree
  unfold cacheFree
  rw [hmap, exec_bind_ok hexec, ← bind_pure_unit (x := cacheRelease a)]
  exact store_base (f := (Bitmap.clearBit · (b % BIT_PER_BLOCK))) hfree hacq hrest hout
    (fun s' hst hlog => ⟨hst, hlog⟩) fun s' hstop hfull => ⟨hstop, hfull⟩

theorem post_cacheFree (hused : (kernelView sb).used s b) (hfix : ¬ (kernelView sb).fixed b) :
    Post (fun _ s' => (kernelView sb).Freed s b s' ∧ Logged c [sb.bitmapBlock b] s s')
      (s.LogStop c 0) ((cacheFree sb (some c) b).exec s) := by
  have hb : sb.dataStart ≤ b ∧ b < sb.numBlocks := by
    simp only [kernelView, not_or, Nat.not_lt, Nat.not_le] at hfix
    exact hfix
  have hbit : s.bit sb b = true := hused.resolve_left (Nat.not_le.mpr hb.2)
  have hbm := isBitmap_bitmapBlock hb.2
  refine (stored_cacheFree c h.toSingleOp (bitmapBlock_lt hl hb.2) (h.bitmap _ hbm).2
    (hl.apart _ hbm)).imp ?_ fun _ hstop => hstop.1
  rintro _ s' ⟨hst, hlog⟩
  have hset : BitSet sb s b false s' := h.bitSet hb.2 (fun hlt => absurd hlt (Nat.not_lt.mpr hb.1))
    hst fun k => by
      rw [Bitmap.bit_clearBit _ (Nat.mod_lt _ (by decide))]
      split
      next hk => simp [hk]
      next hk => simp [hk]
  exact ⟨⟨hset.ok, hset.held, fun x hx => hset.keeps x fun hbx => hx (.inr hbx), hset.used_clear hb.2,
    hset.room_clear hb.2 hbit⟩, hlog⟩

end

/-! ## The laws -/

theorem kernel_syncsDirect (sb : SuperBlock) : SyncsDirect (bcache sb) (kernelView sb) := by
  intro s a b h ha hown
  obtain ⟨s', hexec, hs, -⟩ := syncNull_base (c := stackCtx) h.toSingleOp ha
  exact ⟨s', hexec, h.synced hown hs⟩

theorem kernelLaws (hl : sb.Layout) : StoreLaws (bcache sb) (kernelView sb) where
  fixed_of_own := fun ho => .inl (hl.own _ ho)
  used_of_fixed := fun {s b} h hf => by
    rcases hf with hlt | hle
    · exact .inr (h.metadata b hlt)
    · exact .inl hle
  acquire := fun {s b} h _ hown hfree => by
    obtain ⟨a, s', hexec, hacq, -⟩ := acquire_base h.toSingleOp hfree
    exact ⟨a, s', hexec, h.acquired hown hacq⟩
  data := fun h ha => data_base h.toSingleOp ha
  setData := fun {s a b} f h ha hown => by
    obtain ⟨s', hexec, hch, -⟩ := setData_base h.toSingleOp ha f
    exact ⟨s', hexec, h.changed hown hch⟩
  sync := fun {s a b} ctx h ha hown => by
    cases ctx with
    | none =>
      obtain ⟨s', hexec, hs⟩ := kernel_syncsDirect sb h ha hown
      exact .of_ok (Q := fun _ => (kernelView sb).Synced s b) hexec hs
    | some c =>
      exact (sync_base c h.toSingleOp ha fun harea => hown (.inl harea)).imp
        (fun _ _ hs => h.synced hown hs.1) fun _ _ => trivial
  release := fun {s a b} h ha hown => by
    obtain ⟨s', hexec, hr, -⟩ := release_base h.toSingleOp ha
    exact ⟨s', hexec, h.released hown hr⟩
  alloc := fun c h hhold =>
    (post_cacheAlloc c hl h hhold).imp (fun _ _ hr => hr.1) fun _ _ => .inl trivial
  free := fun c h _ hused hfix =>
    (post_cacheFree c hl h hused hfix).imp (fun _ _ hr => hr.1) fun _ _ => trivial

theorem kernelBlocks (hl : sb.Layout) : InodeBlocks (kernelView sb) sb where
  fixed := fun no hno => .inl (hl.inode no hno).1
  own := fun no hno => (hl.inode no hno).2
  lt := fun no hno =>
    calc sb.toBlockNo no < sb.dataStart := (hl.inode no hno).1
      _ ≤ sb.numBlocks := sb.dataStart_le
      _ ≤ 2 ^ 32 := hl.size
      _ ≤ 2 ^ 64 := by decide

end

end OsKernel
