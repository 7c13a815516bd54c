import OsKernel.Lib.RedoLog
import OsKernel.Fs.CacheOps

/-!
# `do_checkpoint` and `init_bcache` as a redo log

The log of the cache is an instance of the redo log of the library: the header
block, the slots after it, and the block numbers a header names.  A checkpoint
issues the writes of a commit, and recovery those of a replay.
-/

namespace OsKernel

open Prog Cache Function

variable {x : Nat}

/-! ## Copying a block -/

/-- What copying block `src` over block `dst` has done. -/
structure Copied (s : Cache) (pins : List Nat) (src dst : Nat) (s' : Cache) : Prop where
  wf : s'.WF pins
  header : s'.header = s.header
  log : s'.log = s.log
  ctxs : s'.ctxs = s.ctxs
  commits : s'.commits = s.commits
  syncs : s'.syncs = s.syncs
  disk : s'.disk = update s.disk dst (s.contents src)
  writes : s'.writes = s.writes ++ [(dst, s.contents src)]
  keeps : ∀ x, x ≠ dst → s.Stable x → Keeps s s' x
  target : s'.Stable dst ∧ s'.contents dst = s.contents src
  held : SameHeld s s'
  cached : ∀ x, s'.Cached x → x = src ∨ x = dst ∨ s.Cached x

/-- What the calls that stop have written: nothing. -/
structure NoWrite (s s' : Cache) : Prop where
  disk : s'.disk = s.disk
  writes : s'.writes = s.writes
  commits : s'.commits = s.commits
  syncs : s'.syncs = s.syncs

theorem Cache.OnlyList.noWrite {s s' : Cache} (h : OnlyList s s') : NoWrite s s' :=
  ⟨h.disk, h.writes, h.commits, h.syncs⟩

section

variable {s s₁ s₂ : Cache} {pins : List Nat} {src dst a a' : Nat}

theorem exec_cacheSync_none (s : Cache) (a : Nat) : (cacheSync none a).exec s = (.ok (), s.syncNull a) :=
  rfl

/-- The state after the two acquires of `copyBlock`, the copy and the write. -/
def copied (s₂ : Cache) (a a' : Nat) : Cache := (s₂.setData a' (s₂.heap a).data).syncNull a'

theorem src_ne_dst (hsrc : Acquired s pins src a s₁) (hdst : Acquired s₁ pins dst a' s₂) :
    a ≠ a' := by
  rintro rfl
  exact hdst.new hsrc.held

theorem copied_wf (hdst : Acquired s₁ pins dst a' s₂) : (copied s₂ a a').WF pins :=
  hdst.wf.setData hdst.held.1 _

theorem held_copied : (copied s₂ a a').Held x ↔ s₂.Held x := held_setData

variable (hsrc : Acquired s pins src a s₁) (hdst : Acquired s₁ pins dst a' s₂)

include hsrc hdst

theorem copied_heap_src : (copied s₂ a a').heap a = s₁.heap a := by
  rw [copied, heap_syncNull, heap_setData_of_ne _ _ (src_ne_dst hsrc hdst),
    hdst.heap_of_held hsrc.held]

theorem copied_heap_dst : (copied s₂ a a').heap a' = { s₂.heap a' with data := s.contents src } := by
  rw [copied, heap_syncNull, heap_setData_self, hdst.heap_of_held hsrc.held, hsrc.data]

theorem copied_disk : (copied s₂ a a').disk = update s.disk dst (s.contents src) := by
  have hd := copied_heap_dst hsrc hdst
  show update s₂.disk ((copied s₂ a a').heap a').blockNo ((copied s₂ a a').heap a').data = _
  rw [hd, hdst.no, hdst.rest.disk, hsrc.rest.disk]

theorem copied_writes : (copied s₂ a a').writes = s.writes ++ [(dst, s.contents src)] := by
  have hd := copied_heap_dst hsrc hdst
  show s₂.writes ++ [(((copied s₂ a a').heap a').blockNo, ((copied s₂ a a').heap a').data)] = _
  rw [hd, hdst.no, hdst.rest.writes, hsrc.rest.writes]

theorem held_src : (copied s₂ a a').Held a := held_copied.mpr (hdst.held_iff.mpr (.inr hsrc.held))

theorem held_dst : ((copied s₂ a a').released a).Held a' :=
  held_released.mpr ⟨(src_ne_dst hsrc hdst).symm, held_copied.mpr hdst.held⟩

theorem exec_copyBlock (h1 : (cacheAcquire src).exec s = (.ok a, s₁))
    (h2 : (cacheAcquire dst).exec s₁ = (.ok a', s₂)) :
    (copyBlock src dst).exec s = (.ok (), ((copied s₂ a a').released a).released a') := by
  have ha := held_src hsrc hdst
  have hwf := copied_wf (a := a) hdst
  unfold copyBlock
  rw [exec_bind_ok h1, exec_bind_ok h2, exec_bind_ok (exec_get _), exec_bind_ok (exec_withBlock _ _ _),
    exec_bind_ok (exec_cacheSync_none _ _)]
  show (do cacheRelease a; cacheRelease a' : CacheM Unit).exec (copied s₂ a a') = _
  rw [exec_bind_ok (exec_cacheRelease hwf ha),
    exec_cacheRelease (hwf.release ha.1) (held_dst hsrc hdst)]

theorem copied_keeps (h : s.WF pins) (hx : x ≠ dst) (hs : s.Stable x) :
    Keeps s (copied s₂ a a') x := by
  have k1 := hsrc.keeps h hs
  have k2 := hdst.keeps hsrc.wf k1.stable
  have k3 := Keeps.setData (a := a') (by rwa [hdst.no]) k2.stable (s₂.heap a).data
  have k4 := Keeps.syncNull (hdst.wf.setData hdst.held.1 _) hdst.held.1 (.inl k3.stable)
  exact ((k1.trans k2).trans k3).trans k4

theorem copied_dst : (copied s₂ a a').Stable dst ∧ (copied s₂ a a').contents dst = s.contents src := by
  have hwf := copied_wf (a := a) hdst
  have hno : ((copied s₂ a a').heap a').blockNo = dst := by
    rw [copied_heap_dst hsrc hdst]
    exact hdst.no
  refine ⟨fun x hx hxno => .inr (.inr ?_), ?_⟩
  · rw [BlockList.WF.eq_of_blockNo hwf hx hdst.held.1 (hxno.trans hno.symm),
      copied_heap_dst hsrc hdst, copied_disk hsrc hdst, update_self]
  · rw [← hno, contents_of_mem hwf hdst.held.1, copied_heap_dst hsrc hdst]

theorem released_keeps (h : s.WF pins) (hfree : s.Free src) (hst : s.Stable src) (hne : src ≠ dst)
    (hx : (copied s₂ a a').Stable x) :
    Keeps (copied s₂ a a') (((copied s₂ a a').released a).released a') x := by
  have hwf := copied_wf (a := a) hdst
  have ha := held_src hsrc hdst
  have k1 : Keeps (copied s₂ a a') ((copied s₂ a a').released a) x := by
    refine .released hwf ha.1 hx fun _ => ?_
    rw [copied_heap_src hsrc hdst, hsrc.no, copied_disk hsrc hdst, update_of_ne hne]
    exact hsrc.settled h hfree hst
  refine k1.trans (Keeps.released (hwf.release ha.1) (held_dst hsrc hdst).1 k1.stable fun _ => ?_)
  right
  rw [heap_released_of_ne _ (src_ne_dst hsrc hdst).symm, copied_heap_dst hsrc hdst]
  show s.contents src = (copied s₂ a a').disk (s₂.heap a').blockNo
  rw [hdst.no, copied_disk hsrc hdst, update_self]

theorem copied_sameHeld : SameHeld s (((copied s₂ a a').released a).released a') := by
  intro x
  have hiff : (((copied s₂ a a').released a).released a').Held x ↔ s.Held x := by
    rw [held_released, held_released, held_copied, hdst.held_iff, hsrc.held_iff]
    constructor
    · rintro ⟨h1, h2, rfl | rfl | h3⟩
      · exact absurd rfl h1
      · exact absurd rfl h2
      · exact h3
    intro hx
    refine ⟨?_, ?_, .inr (.inr hx)⟩
    · rintro rfl
      exact hdst.new (hsrc.held_iff.mpr (.inr hx))
    · rintro rfl
      exact hsrc.new hx
  refine ⟨hiff, fun hx => ?_⟩
  obtain ⟨h1, h2⟩ : x ≠ a' ∧ x ≠ a := by
    have := hiff.mpr hx
    rw [held_released, held_released] at this
    exact ⟨this.1, this.2.1⟩
  rw [heap_released_of_ne _ h1, heap_released_of_ne _ h2, copied, heap_syncNull,
    heap_setData_of_ne _ _ h1, hdst.heap_of_held (hsrc.held_iff.mpr (.inr hx)),
    hsrc.heap_of_held hx]

theorem copyBlock_copied (h : s.WF pins) (hfree : s.Free src) (hst : s.Stable src) (hne : src ≠ dst) :
    Copied s pins src dst (((copied s₂ a a').released a).released a') := by
  have hrel : ∀ {x}, (copied s₂ a a').Stable x → Keeps (copied s₂ a a') _ x :=
    fun hx => released_keeps hsrc hdst h hfree hst hne hx
  obtain ⟨hdst1, hdst2⟩ := copied_dst hsrc hdst
  refine ⟨?_, hdst.rest.header.trans hsrc.rest.header, hdst.rest.log.trans hsrc.rest.log,
    hdst.rest.ctxs.trans hsrc.rest.ctxs, hdst.rest.commits.trans hsrc.rest.commits,
    hdst.rest.syncs.trans hsrc.rest.syncs,
    copied_disk hsrc hdst, copied_writes hsrc hdst, fun x hx hs => ?_,
    ⟨(hrel hdst1).stable, (hrel hdst1).contents.trans hdst2⟩, copied_sameHeld hsrc hdst,
    fun x hx => ?_⟩
  · exact WF.release (WF.release (copied_wf hdst) (held_src hsrc hdst).1) (held_dst hsrc hdst).1
  · have hk := copied_keeps hsrc hdst h hx hs
    exact hk.trans (hrel hk.stable)
  have hx' : (copied s₂ a a').Cached x := cached_released (cached_released hx)
  have hx2 : s₂.Cached x := cached_setData hx'
  rcases hdst.cached hx2 with hx | hx1
  · exact .inr (.inl hx)
  · rcases hsrc.cached hx1 with hx | hx
    · exact .inl hx
    · exact .inr (.inr hx)

end

theorem copyBlock_spec {s : Cache} {pins : List Nat} {src dst : Nat} (h : s.WF pins)
    (hst : s.Stable src) (hne : src ≠ dst) :
    (∃ s', s.Free src ∧ s.Free dst ∧ (copyBlock src dst).exec s = (.ok (), s') ∧
      Copied s pins src dst s') ∨
    (∃ s' e, ¬ (s.Free src ∧ s.Free dst) ∧ (copyBlock src dst).exec s = (.error e, s') ∧
      NoWrite s s') := by
  by_cases hsrc : s.Free src
  · obtain ⟨a, s₁, h1, hacq1⟩ := cacheAcquire_free h hsrc
    have hdst_iff := hacq1.free_iff hne.symm
    by_cases hdst : s.Free dst
    · obtain ⟨a', s₂, h2, hacq2⟩ := cacheAcquire_free hacq1.wf (hdst_iff.mpr hdst)
      exact .inl ⟨_, hsrc, hdst, exec_copyBlock hacq1 hacq2 h1 h2,
        copyBlock_copied hacq1 hacq2 h hsrc hst hne⟩
    · obtain ⟨s₂, h2, hrest⟩ := cacheAcquire_held hacq1.wf (mt hdst_iff.mp hdst)
      refine .inr ⟨s₂, .blocked, fun hh => hdst hh.2, ?_, (hacq1.rest.trans hrest).noWrite⟩
      unfold copyBlock
      rw [exec_bind_ok h1, exec_bind_error h2]
  · obtain ⟨s₁, h1, hrest⟩ := cacheAcquire_held h hsrc
    refine .inr ⟨s₁, .blocked, fun hh => hsrc hh.1, ?_, hrest.noWrite⟩
    unfold copyBlock
    rw [exec_bind_error h1]

/-! ## Installing a block -/

/-- What a turn of the second loop of `do_checkpoint` has done for block `b`. -/
structure Installed (s : Cache) (pins' : List Nat) (b : Nat) (s' : Cache) : Prop where
  wf : s'.WF pins'
  header : s'.header = s.header
  log : s'.log = s.log
  ctxs : s'.ctxs = s.ctxs
  commits : s'.commits = s.commits
  syncs : s'.syncs = s.syncs
  disk : s'.disk = update s.disk b (s.contents b)
  writes : s'.writes = s.writes ++ [(b, s.contents b)]
  keeps : ∀ x, s.Stable x → Keeps s s' x
  held : SameHeld s s'
  cached : ∀ x, s'.Cached x → x = b ∨ s.Cached x

section

variable {s s₁ : Cache} {pins pins' : List Nat} {b a : Nat}

/-- The state after the acquire of `ckptHome`, the write and the unpinning. -/
def installed (s₁ : Cache) (a : Nat) : Cache :=
  (s₁.syncNull a).onBlock a fun blk => { blk with pinned := false }

theorem held_installed : (installed s₁ a).Held x ↔ s₁.Held x :=
  held_onBlock (s := s₁.syncNull a) rfl

variable (hacq : Acquired s pins b a s₁) (hpins : ∀ x, x ∈ pins' ↔ x ≠ b ∧ x ∈ pins)

include hacq

theorem installed_disk : (installed s₁ a).disk = update s.disk b (s.contents b) := by
  show update s₁.disk (s₁.heap a).blockNo (s₁.heap a).data = _
  rw [hacq.no, hacq.data, hacq.rest.disk]

theorem installed_keeps (h : s.WF pins) (hx : s.Stable x) :
    Keeps s ((installed s₁ a).released a) x := by
  have k1 := hacq.keeps h hx
  have k2 : Keeps s₁ (s₁.syncNull a) x := Keeps.syncNull hacq.wf hacq.held.1 (.inl k1.stable)
  have hwf : (s₁.syncNull a).WF pins := hacq.wf
  have hdata : (s₁.heap a).data = (s₁.syncNull a).disk (s₁.heap a).blockNo :=
    (disk_deviceWrite_self s₁ _ _).symm
  have k3 : Keeps (s₁.syncNull a) ((installed s₁ a).released a) x := by
    have hone : (installed s₁ a).released a = (s₁.syncNull a).onBlock a fun blk =>
        { blk with pinned := false, acquired := false, lock := ⟨1, []⟩ } :=
      onBlock_onBlock _ _ _ _
    rw [hone]
    refine ⟨contents_onBlock hwf hacq.held.1 rfl rfl x, ?_⟩
    by_cases hxb : x = ((s₁.syncNull a).heap a).blockNo
    · rw [hxb]
      exact stable_onBlock_self hwf hacq.held.1 rfl (.inr (.inr hdata))
    · exact stable_onBlock_of_ne rfl hxb k2.stable
  exact (k1.trans k2).trans k3

theorem installed_sameHeld : SameHeld s ((installed s₁ a).released a) := by
  intro x
  have hiff : ((installed s₁ a).released a).Held x ↔ s.Held x := by
    rw [held_released, held_installed, hacq.held_iff]
    constructor
    · rintro ⟨h1, rfl | h2⟩
      · exact absurd rfl h1
      · exact h2
    · intro hx
      refine ⟨?_, .inr hx⟩
      rintro rfl
      exact hacq.new hx
  refine ⟨hiff, fun hx => ?_⟩
  have hne : x ≠ a := (held_released.mp (hiff.mpr hx)).1
  rw [heap_released_of_ne _ hne, installed, heap_onBlock_of_ne _ _ hne, heap_syncNull,
    hacq.heap_of_held hx]

include hpins

theorem ckptHome_installed (h : s.WF pins) : Installed s pins' b ((installed s₁ a).released a) := by
  have hwf : (installed s₁ a).WF pins' := by
    refine WF.unpin (s := s₁.syncNull a) hacq.wf hacq.held.1 fun x => ?_
    rw [heap_syncNull, hacq.no]
    exact hpins x
  refine ⟨hwf.release hacq.held.1, hacq.rest.header, hacq.rest.log, hacq.rest.ctxs,
    hacq.rest.commits, hacq.rest.syncs, installed_disk hacq, ?_, fun x hx => installed_keeps hacq h hx,
    installed_sameHeld hacq, fun x hx => hacq.cached ?_⟩
  · show s₁.writes ++ [((s₁.heap a).blockNo, (s₁.heap a).data)] = _
    rw [hacq.no, hacq.data, hacq.rest.writes]
  · exact cached_onBlock (s := s₁.syncNull a) rfl (cached_released hx)

end

/-- A turn of the second loop installs the block, or stops without having
written anything. -/
theorem ckptHome_spec {s : Cache} {pins pins' : List Nat} {i : Nat} (h : s.WF pins)
    (hpins : ∀ x, x ∈ pins' ↔ x ≠ s.header.blockNo i ∧ x ∈ pins) :
    (∃ s', s.Free (s.header.blockNo i) ∧ (ckptHome i).exec s = (.ok (), s') ∧
      Installed s pins' (s.header.blockNo i) s') ∨
    (∃ s' e, ¬ s.Free (s.header.blockNo i) ∧ (ckptHome i).exec s = (.error e, s') ∧ NoWrite s s') := by
  by_cases hfree : s.Free (s.header.blockNo i)
  · obtain ⟨a, s₁, h1, hacq⟩ := cacheAcquire_free h hfree
    have hwf : (installed s₁ a).WF pins' := by
      refine WF.unpin (s := s₁.syncNull a) hacq.wf hacq.held.1 fun x => ?_
      rw [heap_syncNull, hacq.no]
      exact hpins x
    refine .inl ⟨_, hfree, ?_, ckptHome_installed hacq hpins h⟩
    unfold ckptHome
    rw [exec_bind_ok (exec_get s), exec_bind_ok h1, exec_bind_ok (exec_cacheSync_none _ _),
      exec_bind_ok (exec_withBlock _ _ _)]
    exact exec_cacheRelease hwf (held_installed.mpr hacq.held)
  · obtain ⟨s₁, h1, hrest⟩ := cacheAcquire_held h hfree
    refine .inr ⟨s₁, .blocked, hfree, ?_, hrest.noWrite⟩
    unfold ckptHome
    rw [exec_bind_ok (exec_get s), exec_bind_error h1]

end OsKernel
