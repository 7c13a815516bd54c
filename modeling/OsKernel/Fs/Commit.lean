import OsKernel.Fs.Checkpoint

/-!
# The writes of a checkpoint and of a recovery

The log of the cache is an instance of the redo log of the library: the header
block, the slots after it, and the block numbers a header names (`logLayout`).
A checkpoint that returns has issued the writes of a commit; one that stops, as
the caller holds a logged block, has issued some of the slot writes
(`doCheckpoint_spec`).  `init_bcache` issues the writes of a replay
(`initBcache_spec`).
-/

namespace OsKernel

open Prog Cache List LogHeader
open RedoLog (apply apply_append apply_singleton)

variable {k : Nat} {sb : SuperBlock} {s : Cache} {b : Nat}

def logLayout (sb : SuperBlock) : RedoLog.Layout Nat Data where
  hdr := sb.logStart
  slot := fun i => sb.logStart + 1 + i
  homes := fun d => (LogHeader.ofData d).logged
  cleared := (⟨0, fun _ => 0⟩ : LogHeader).toData
  homes_cleared := LogHeader.logged_eq_nil (by rw [LogHeader.numBlocks_ofData_toData]; rfl)
  slot_ne_hdr := fun i => by omega
  slot_injective := fun i j hij => by
    dsimp only at hij
    omega

theorem logLayout_homes (sb : SuperBlock) (d : Data) :
    (logLayout sb).homes d = (LogHeader.ofData d).logged := rfl

instance (sb : SuperBlock) (n b : Nat) : Decidable ((logLayout sb).Area n b) :=
  inferInstanceAs (Decidable (b = sb.logStart ∨ ∃ i, i < n ∧ b = sb.logStart + 1 + i))

theorem area_mono {m : Nat} (hmk : m ≤ k) {x : Nat}
    (hx : (logLayout sb).Area m x) : (logLayout sb).Area k x :=
  hx.imp id fun ⟨i, hi, he⟩ => ⟨i, hi.trans_le hmk, he⟩

/-- The caller's view of the writes `ws` issued since `s₀`: they are on the
device, and nothing but the list of blocks has changed otherwise. -/
structure Progress (s₀ : Cache) (pins : List Nat) (ws : List (Nat × Data)) (s : Cache) : Prop where
  wf : s.WF pins
  header : s.header = s₀.header
  log : s.log = s₀.log
  ctxs : s.ctxs = s₀.ctxs
  commits : s.commits = s₀.commits
  syncs : s.syncs = s₀.syncs
  disk : s.disk = apply s₀.disk ws
  writes : s.writes = s₀.writes ++ ws
  held : SameHeld s₀ s

theorem Progress.refl {pins : List Nat} (h : s.WF pins) : Progress s pins [] s :=
  ⟨h, rfl, rfl, rfl, rfl, rfl, rfl, (append_nil _).symm, .refl s⟩

/-- The writes `ws` have been issued since `s₀`, and no checkpoint has ended. -/
structure Issued (s₀ : Cache) (ws : List (Nat × Data)) (s : Cache) : Prop where
  disk : s.disk = apply s₀.disk ws
  writes : s.writes = s₀.writes ++ ws
  commits : s.commits = s₀.commits
  syncs : s.syncs = s₀.syncs

section

variable {s₀ s s' : Cache} {pins pins' : List Nat} {ws : List (Nat × Data)}

section

variable (h : Progress s₀ pins ws s)

include h

theorem Progress.issued (hs : NoWrite s s') : Issued s₀ ws s' :=
  ⟨hs.disk.trans h.disk, hs.writes.trans h.writes, hs.commits.trans h.commits,
    hs.syncs.trans h.syncs⟩

theorem Progress.copied {src dst : Nat} (hc : Copied s pins src dst s') :
    Progress s₀ pins (ws ++ [(dst, s.contents src)]) s' := by
  refine ⟨hc.wf, hc.header.trans h.header, hc.log.trans h.log, hc.ctxs.trans h.ctxs,
    hc.commits.trans h.commits, hc.syncs.trans h.syncs, ?_, ?_, h.held.trans hc.held⟩
  · rw [hc.disk, h.disk, apply_append, apply_singleton]
  · rw [hc.writes, h.writes, append_assoc]

theorem Progress.installed (hc : Installed s pins' b s') :
    Progress s₀ pins' (ws ++ [(b, s.contents b)]) s' := by
  refine ⟨hc.wf, hc.header.trans h.header, hc.log.trans h.log, hc.ctxs.trans h.ctxs,
    hc.commits.trans h.commits, hc.syncs.trans h.syncs, ?_, ?_, h.held.trans hc.held⟩
  · rw [hc.disk, h.disk, apply_append, apply_singleton]
  · rw [hc.writes, h.writes, append_assoc]

end

end

/-- A state in which a checkpoint may start: the pinned blocks are the logged
ones, each is logged once, and none is a log block of this checkpoint. -/
structure Ready (sb : SuperBlock) (s : Cache) : Prop where
  wf : s.WF s.header.logged
  nodup : s.header.logged.Nodup
  outside : ∀ b ∈ s.header.logged, ¬ (logLayout sb).Area s.header.numBlocks b

theorem Ready.ne_slot (h : Ready sb s) {j : Nat}
    (hb : b ∈ s.header.logged) (hj : j < s.header.numBlocks) : b ≠ (logLayout sb).slot j :=
  fun he => h.outside b hb (.inr ⟨j, hj, he⟩)

theorem Ready.ne_hdr (h : Ready sb s)
    (hb : b ∈ s.header.logged) : b ≠ sb.logStart := fun he => h.outside b hb (.inl he)

/-! ## The first loop -/

/-- The first loop of `do_checkpoint`, started in `s₀`, before turn `k`. -/
structure SlotInv (sb : SuperBlock) (s₀ : Cache) (k : Nat) (s : Cache) : Prop where
  progress : Progress s₀ s₀.header.logged
    (((logLayout sb).slotWrites s₀.header.logged s₀.contents).take k) s
  keeps : ∀ x, (∀ j < k, x ≠ (logLayout sb).slot j) → s₀.Stable x → Keeps s₀ s x
  slots : ∀ j < k, s.Stable ((logLayout sb).slot j)
  free : ∀ j < k, s₀.Free (s₀.header.blockNo j)
  cached : ∀ x, s.Cached x → s₀.Cached x ∨ x ∈ s₀.header.logged ∨
    ∃ j < k, x = (logLayout sb).slot j

def SlotStop (sb : SuperBlock) (s₀ : Cache) (s : Cache) : Prop :=
  ∃ ws, ws <+: (logLayout sb).slotWrites s₀.header.logged s₀.contents ∧ Issued s₀ ws s

section

variable {sb : SuperBlock} {s₀ : Cache}

section

variable (hr : Ready sb s₀)

include hr

theorem ckptSlot_triple (hk : k < s₀.header.numBlocks) :
    Triple (SlotInv sb s₀ k) (ckptSlot sb k) (fun _ => SlotInv sb s₀ (k + 1)) (SlotStop sb s₀) := by
  intro s h
  have hlen : k < s₀.header.logged.length := by rwa [length_logged]
  have hmem := blockNo_mem_logged hk
  have hkeep := h.keeps _ (fun j hj => hr.ne_slot hmem (hj.trans hk)) (hr.wf.stable_of_pinned hmem)
  have hne := hr.ne_slot hmem hk
  unfold ckptSlot
  rw [exec_bind_ok (exec_get s), h.progress.header]
  show Post _ _ ((copyBlock _ ((logLayout sb).slot k)).exec s)
  rcases copyBlock_spec h.progress.wf hkeep.stable hne with
    ⟨s', hfs, hfd, hexec, hc⟩ | ⟨s', e, -, hexec, hnw⟩
  · rw [hexec]
    have hdata : s.contents (s₀.header.blockNo k) = s₀.contents s₀.header.logged[k] := by
      rw [hkeep.contents, getElem_logged]
    have hprog := h.progress.copied hc
    rw [hdata, ← RedoLog.Layout.take_slotWrites_succ hlen] at hprog
    refine ⟨hprog, fun x hx hs => ?_, fun j hj => ?_, fun j hj => ?_, fun x hx => ?_⟩
    · have hk1 := h.keeps x (fun j hj => hx j (by omega)) hs
      exact hk1.trans (hc.keeps x (hx k (by omega)) hk1.stable)
    · obtain rfl | hjk := eq_or_ne j k
      · exact hc.target.1
      · have hjlt : j < k := by omega
        exact (hc.keeps _ (fun he => hjk ((logLayout sb).slot_injective he)) (h.slots j hjlt)).stable
    · obtain rfl | hjk := eq_or_ne j k
      · exact h.progress.held.symm.free hfs
      · exact h.free j (by omega)
    rcases hc.cached x hx with rfl | rfl | hx
    · exact .inr (.inl hmem)
    · exact .inr (.inr ⟨k, by omega, rfl⟩)
    · rcases h.cached x hx with h1 | h1 | ⟨j, hj, h1⟩
      · exact .inl h1
      · exact .inr (.inl h1)
      · exact .inr (.inr ⟨j, by omega, h1⟩)
  · rw [hexec]
    exact ⟨_, take_prefix k _, h.progress.issued hnw⟩

theorem SlotInv.refl : SlotInv sb s₀ 0 s₀ :=
  ⟨.refl hr.wf, fun _ _ hs => ⟨rfl, hs⟩, fun j hj => absurd hj (Nat.not_lt_zero j),
    fun j hj => absurd hj (Nat.not_lt_zero j), fun _ hx => .inl hx⟩

theorem slotLoop_triple :
    Triple (fun s => s = s₀) ((List.range s₀.header.numBlocks).forM (ckptSlot sb))
      (fun _ => SlotInv sb s₀ s₀.header.numBlocks) (SlotStop sb s₀) := by
  refine (Triple.forM_range (I := SlotInv sb s₀) fun k hk => ckptSlot_triple hr hk).pre ?_
  rintro s rfl
  exact .refl hr

theorem ckptSlot_idle (hidle : ∀ a, ¬ s₀.Held a) (hk : k < s₀.header.numBlocks) :
    Triple (SlotInv sb s₀ k) (ckptSlot sb k) (fun _ => SlotInv sb s₀ (k + 1)) fun _ => False := by
  intro s h
  have hmem := blockNo_mem_logged hk
  have hkeep := h.keeps _ (fun j hj => hr.ne_slot hmem (hj.trans hk)) (hr.wf.stable_of_pinned hmem)
  have hfree : ∀ b, s.Free b := fun b a ha => absurd ((h.progress.held a).1.mp ha) (hidle a)
  have hpost := ckptSlot_triple hr hk s h
  have hret : ∃ s', (ckptSlot sb k).exec s = (.ok (), s') := by
    unfold ckptSlot
    rw [exec_bind_ok (exec_get s), h.progress.header]
    rcases copyBlock_spec h.progress.wf hkeep.stable (hr.ne_slot hmem hk) with
      ⟨s', -, -, hexec, -⟩ | ⟨s', e, hnf, -, -⟩
    · exact ⟨s', hexec⟩
    · exact absurd ⟨hfree _, hfree _⟩ hnf
  obtain ⟨s', hexec⟩ := hret
  rw [hexec] at hpost ⊢
  exact hpost

theorem slotLoop_idle (hidle : ∀ a, ¬ s₀.Held a) :
    Triple (fun s => s = s₀) ((List.range s₀.header.numBlocks).forM (ckptSlot sb))
      (fun _ => SlotInv sb s₀ s₀.header.numBlocks) fun _ => False := by
  refine (Triple.forM_range (I := SlotInv sb s₀) fun k hk => ckptSlot_idle hr hidle hk).pre ?_
  rintro s rfl
  exact .refl hr

end

end

/-! ## The second loop -/

/-- The second loop of `do_checkpoint`, started in `s₁`, before turn `k`, where
`bs` and `c` are the logged blocks and their contents. -/
structure HomeInv (bs : List Nat) (c : Nat → Data) (s₁ : Cache) (k : Nat) (s : Cache) : Prop where
  progress : Progress s₁ (bs.drop k) ((RedoLog.Layout.homeWrites bs c).take k) s
  keeps : ∀ x, s₁.Stable x → Keeps s₁ s x
  cached : ∀ x, s.Cached x → x ∈ bs ∨ s₁.Cached x

theorem mem_drop_succ {bs : List Nat} (hnd : bs.Nodup) (hk : k < bs.length) (x : Nat) :
    x ∈ bs.drop (k + 1) ↔ x ≠ bs[k] ∧ x ∈ bs.drop k := by
  have hcons := drop_eq_getElem_cons hk
  have hnot : bs[k] ∉ bs.drop (k + 1) := by
    have := hnd.sublist (drop_sublist k bs)
    rw [hcons] at this
    exact (nodup_cons.mp this).1
  rw [hcons, mem_cons]
  constructor
  · intro hx
    exact ⟨fun he => hnot (he ▸ hx), .inr hx⟩
  · rintro ⟨hne, he | hx⟩
    · exact absurd he hne
    · exact hx

section

variable {s₁ : Cache} {c : Nat → Data}

theorem ckptHome_triple (hnd : s₁.header.logged.Nodup) (hwf : s₁.WF s₁.header.logged) (hc : ∀ b ∈ s₁.header.logged, s₁.contents b = c b)
    (hfree : ∀ b ∈ s₁.header.logged, s₁.Free b) (hk : k < s₁.header.numBlocks) :
    Triple (HomeInv s₁.header.logged c s₁ k) (ckptHome k)
      (fun _ => HomeInv s₁.header.logged c s₁ (k + 1)) (fun _ => False) := by
  intro s h
  have hlen : k < s₁.header.logged.length := by rwa [length_logged]
  have hmem := blockNo_mem_logged hk
  have hno := getElem_logged _ hlen
  have hpins : ∀ x, x ∈ s₁.header.logged.drop (k + 1) ↔
      x ≠ s.header.blockNo k ∧ x ∈ s₁.header.logged.drop k := fun x => by
    rw [h.progress.header, ← hno]
    exact mem_drop_succ hnd hlen x
  rcases ckptHome_spec h.progress.wf hpins with ⟨s', -, hexec, hi⟩ | ⟨s', e, hnot, -, -⟩
  · rw [hexec]
    have hdata : s.contents (s.header.blockNo k) = c s₁.header.logged[k] := by
      rw [h.progress.header, (h.keeps _ (hwf.stable_of_pinned hmem)).contents, hc _ hmem, hno]
    have hprog := h.progress.installed hi
    rw [hdata, h.progress.header, ← hno, ← RedoLog.Layout.take_homeWrites_succ hlen] at hprog
    refine ⟨hprog, fun x hx => ?_, fun x hx => ?_⟩
    · have hk1 := h.keeps x hx
      exact hk1.trans (hi.keeps x hk1.stable)
    · rcases hi.cached x hx with rfl | hx
      · rw [h.progress.header]
        exact .inl hmem
      · exact h.cached x hx
  · -- the caller holds what it held when the first loop acquired every logged block
    rw [h.progress.header] at hnot
    exact absurd (h.progress.held.free (hfree _ hmem)) hnot

theorem homeLoop_triple (s₁ : Cache) (c : Nat → Data) (hnd : s₁.header.logged.Nodup)
    (hwf : s₁.WF s₁.header.logged) (hc : ∀ b ∈ s₁.header.logged, s₁.contents b = c b)
    (hfree : ∀ b ∈ s₁.header.logged, s₁.Free b) :
    Triple (fun s => s = s₁) ((List.range s₁.header.numBlocks).forM ckptHome)
      (fun _ => HomeInv s₁.header.logged c s₁ s₁.header.numBlocks) (fun _ => False) := by
  refine (Triple.forM_range (I := HomeInv s₁.header.logged c s₁) fun k hk =>
    ckptHome_triple hnd hwf hc hfree hk).pre ?_
  rintro s rfl
  exact ⟨.refl hwf, fun x hs => ⟨rfl, hs⟩, fun x hx => .inr hx⟩

end

/-! ## The whole checkpoint -/

/-- The writes of a checkpoint that starts in `s`. -/
def checkpointWrites (sb : SuperBlock) (s : Cache) : List (Nat × Data) :=
  (logLayout sb).commitWrites s.header.logged s.contents s.header.toData s.header.clear.toData

/-- What `do_checkpoint`, called in `s`, has done when it returns. -/
structure Checkpointed (sb : SuperBlock) (s s' : Cache) : Prop where
  wf : s'.WF []
  header : s'.header = s.header.clear
  log : s'.log = { s.log with checkpointing := false, opSem := ⟨max s.log.opSem.val 0, []⟩ }
  ctxs : s'.ctxs = s.ctxs
  disk : s'.disk = apply s.disk (checkpointWrites sb s)
  writes : s'.writes = s.writes ++ checkpointWrites sb s
  commits : s'.commits = s.commits ++ [s'.writes.length]
  syncs : s'.syncs = s.syncs
  keeps : ∀ x, ¬ (logLayout sb).Area s.header.numBlocks x → s.Stable x → Keeps s s' x
  slots : ∀ j < s.header.numBlocks, s'.Stable ((logLayout sb).slot j)
  held : SameHeld s s'
  free : ∀ b ∈ s.header.logged, s.Free b
  cached : ∀ x, s'.Cached x → s.Cached x ∨ x ∈ s.header.logged ∨
    ∃ j < s.header.numBlocks, x = (logLayout sb).slot j

theorem keeps_deviceWrite {x : Nat} (hx : x ≠ b) (hs : s.Stable x) (d : Data) :
    Keeps s (s.deviceWrite b d) x := by
  have hdisk := disk_deviceWrite_of_ne s d hx
  refine ⟨?_, fun a ha hno => ?_⟩
  · have hfind : (s.deviceWrite b d).findCachedBlock x = s.findCachedBlock x := rfl
    rw [contents, contents, hfind, hdisk]
    rfl
  · rw [hdisk]
    exact hs a ha hno

section

variable {sb : SuperBlock} {s s₂ : Cache}

theorem exec_writeHeader (sb : SuperBlock) (s : Cache) :
    (writeHeader sb).exec s = (.ok (), s.deviceWrite sb.logStart s.header.toData) := rfl

theorem exec_postAllOps (h : s.log.opSem.WF) : postAllOps.exec s =
      (.ok (), { s with log := { s.log with opSem := ⟨max s.log.opSem.val 0, []⟩ } }) := by
  unfold postAllOps
  rw [exec_bind_ok (exec_get s), Semaphore.postAllSem_eq h]
  rfl

/-- The second loop starts with the logged blocks free and their contents as
they were. -/
theorem homeLoop_of_slots (hr : Ready sb s) (h : SlotInv sb s s.header.numBlocks s₂) :
    ∃ s₄, ((List.range s.header.numBlocks).forM ckptHome).exec
        (s₂.deviceWrite sb.logStart s.header.toData) = (.ok (), s₄) ∧
      HomeInv s.header.logged s.contents (s₂.deviceWrite sb.logStart s.header.toData)
        s.header.numBlocks s₄ := by
  have hh : (s₂.deviceWrite sb.logStart s.header.toData).header = s.header := h.progress.header
  have hkeep : ∀ b ∈ s.header.logged, Keeps s (s₂.deviceWrite sb.logStart s.header.toData) b := by
    intro b hb
    have hk := h.keeps b (fun j hj => hr.ne_slot hb hj) (hr.wf.stable_of_pinned hb)
    exact hk.trans (keeps_deviceWrite (hr.ne_hdr hb) hk.stable _)
  have hfree : ∀ b ∈ s.header.logged, s₂.Free b := by
    intro b hb
    obtain ⟨j, hj, rfl⟩ := mem_logged.mp hb
    exact h.progress.held.free (h.free j hj)
  have hloop := homeLoop_triple (s₂.deviceWrite sb.logStart s.header.toData) s.contents
    (by rw [hh]; exact hr.nodup) (by rw [hh]; exact h.progress.wf) (by rw [hh]; exact fun b hb => (hkeep b hb).contents)
    (by rw [hh]; exact hfree)
  rw [hh] at hloop
  rcases hloop.elim rfl with ⟨_, s₄, hexec, hinv⟩ | ⟨_, _, _, hf⟩
  · exact ⟨s₄, hexec, hinv⟩
  · exact hf.elim

/-- The state in which `do_checkpoint` returns, after the second loop has ended
in `s₄`. -/
def finished (sb : SuperBlock) (s₄ : Cache) (sem : Semaphore) : Cache :=
  let s₅ := { s₄ with header := s₄.header.clear }.deviceWrite sb.logStart s₄.header.clear.toData
  { s₅ with
    log := { s₅.log with checkpointing := false, opSem := sem }
    commits := s₅.commits ++ [s₅.writes.length] }

variable {s₄ : Cache}

section

variable (h : SlotInv sb s s.header.numBlocks s₂)
  (hh : HomeInv s.header.logged s.contents (s₂.deviceWrite sb.logStart s.header.toData) s.header.numBlocks s₄)

include h hh

theorem finished_writes (sem : Semaphore) :
    (finished sb s₄ sem).disk = apply s.disk (checkpointWrites sb s) ∧
      (finished sb s₄ sem).writes = s.writes ++ checkpointWrites sb s := by
  have hslots : ((logLayout sb).slotWrites s.header.logged s.contents).take s.header.numBlocks =
      (logLayout sb).slotWrites s.header.logged s.contents :=
    take_of_length_le (by simp [RedoLog.Layout.slotWrites])
  have hhomes : (RedoLog.Layout.homeWrites s.header.logged s.contents).take s.header.numBlocks =
      RedoLog.Layout.homeWrites s.header.logged s.contents :=
    take_of_length_le (by simp [RedoLog.Layout.homeWrites])
  have hhead := hh.progress.header.trans h.progress.header
  have hd2 := h.progress.disk
  have hw2 := h.progress.writes
  have hd4 := hh.progress.disk
  have hw4 := hh.progress.writes
  rw [hslots] at hd2 hw2
  rw [hhomes] at hd4 hw4
  constructor
  · show Function.update s₄.disk sb.logStart s₄.header.clear.toData = _
    rw [hd4, hhead, checkpointWrites, RedoLog.Layout.commitWrites, apply_append,
      RedoLog.apply_cons, apply_append, apply_singleton, ← hd2]
    rfl
  show s₄.writes ++ [(sb.logStart, s₄.header.clear.toData)] = _
  rw [hw4, hhead]
  show (s₂.writes ++ [(sb.logStart, s.header.toData)] ++ _) ++ _ = _
  rw [hw2, checkpointWrites, RedoLog.Layout.commitWrites]
  simp only [append_assoc, singleton_append]
  rfl

theorem finished_checkpointed : Checkpointed sb s (finished sb s₄ ⟨max s.log.opSem.val 0, []⟩) := by
  obtain ⟨hdisk, hwrites⟩ := finished_writes h hh ⟨max s.log.opSem.val 0, []⟩
  have hlog : s₄.log = s.log := hh.progress.log.trans h.progress.log
  have hwf : s₄.WF [] := by
    have := hh.progress.wf
    rwa [drop_of_length_le (by rw [length_logged])] at this
  refine ⟨hwf, congrArg clear (hh.progress.header.trans h.progress.header), ?_,
    hh.progress.ctxs.trans h.progress.ctxs, hdisk, hwrites, ?_,
    hh.progress.syncs.trans h.progress.syncs, fun x hx hs => ?_, fun j hj => ?_,
    h.progress.held.trans hh.progress.held, fun b hb => ?_, fun x hx => ?_⟩
  · exact congrArg
      (fun l : Log => { l with checkpointing := false, opSem := ⟨max s.log.opSem.val 0, []⟩ }) hlog
  · show s₄.commits ++ _ = _
    rw [hh.progress.commits]
    show s₂.commits ++ _ = _
    rw [h.progress.commits]
    rfl
  · have hxh : x ≠ sb.logStart := fun he => hx (.inl he)
    have k2 := h.keeps x (fun j hj he => hx (.inr ⟨j, hj, he⟩)) hs
    have k3 := keeps_deviceWrite hxh k2.stable s.header.toData
    have k4 := hh.keeps x k3.stable
    have k5 := keeps_deviceWrite hxh k4.stable s₄.header.clear.toData
    exact ((k2.trans k3).trans k4).trans ⟨k5.contents, k5.stable⟩
  · have hxh := (logLayout sb).slot_ne_hdr j
    have k3 := keeps_deviceWrite hxh (h.slots j hj) s.header.toData
    have k4 := hh.keeps _ k3.stable
    exact (keeps_deviceWrite hxh k4.stable s₄.header.clear.toData).stable
  · obtain ⟨j, hj, rfl⟩ := mem_logged.mp hb
    exact h.free j hj
  · rcases hh.cached x hx with hx | hx
    · exact .inr (.inl hx)
    · exact h.cached x hx

end

/-- The state in which the loops of `do_checkpoint` start. -/
def checkpointing (s : Cache) : Cache := { s with log := { s.log with checkpointing := true } }

theorem exec_doCheckpoint (sb : SuperBlock) (s : Cache) : (doCheckpoint sb).exec s = Prog.exec (do
      (List.range (checkpointing s).header.numBlocks).forM (ckptSlot sb)
      writeHeader sb
      let s ← get
      (List.range s.header.numBlocks).forM ckptHome
      modify fun s => { s with header := s.header.clear }
      writeHeader sb
      modify fun s => { s with
        log := { s.log with checkpointing := false }
        commits := s.commits ++ [s.writes.length] }
      postAllOps) (checkpointing s) := rfl

section

variable (hr : Ready sb s) (hsem : s.log.opSem.WF)

include hr hsem

theorem doCheckpoint_of_slots {s₂ : Cache}
    (hloop : ((List.range (checkpointing s).header.numBlocks).forM (ckptSlot sb)).exec
      (checkpointing s) = (.ok ⟨⟩, s₂))
    (hinv : SlotInv sb (checkpointing s) (checkpointing s).header.numBlocks s₂) :
    ∃ s', (doCheckpoint sb).exec s = (.ok (), s') ∧ Checkpointed sb s s' := by
  obtain ⟨s₄, hhome, hhinv⟩ := homeLoop_of_slots (s := checkpointing s) ⟨hr.wf, hr.nodup, hr.outside⟩ hinv
  have hlog := hhinv.progress.log.trans hinv.progress.log
  have hc := finished_checkpointed hinv hhinv
  refine ⟨_, ?_, hc.wf, hc.header, hc.log, hc.ctxs, hc.disk, hc.writes, hc.commits, hc.syncs,
    fun x hx hs => ⟨(hc.keeps x hx hs).contents, (hc.keeps x hx hs).stable⟩, hc.slots, hc.held,
    hc.free, hc.cached⟩
  have hheader : (s₂.deviceWrite sb.logStart (checkpointing s).header.toData).header =
      (checkpointing s).header := hinv.progress.header
  have hsem4 : s₄.log.opSem = s.log.opSem := by rw [hlog, checkpointing]
  rw [exec_doCheckpoint, exec_bind_ok hloop, exec_bind_ok (exec_writeHeader sb s₂),
    exec_bind_ok (exec_get _), hinv.progress.header, hheader, exec_bind_ok hhome,
    exec_bind_ok (exec_modify _ _), exec_bind_ok (exec_writeHeader _ _),
    exec_bind_ok (exec_modify _ _)]
  refine (exec_postAllOps ?_).trans ?_
  · show s₄.log.opSem.WF
    rwa [hsem4]
  · show _ = (Except.ok (), finished sb s₄ ⟨max s.log.opSem.val 0, []⟩)
    rw [← hsem4]
    rfl

theorem doCheckpoint_spec : (∃ s', (doCheckpoint sb).exec s = (.ok (), s') ∧ Checkpointed sb s s') ∨
    (∃ s' e, (doCheckpoint sb).exec s = (.error e, s') ∧ SlotStop sb s s') := by
  have hr0 : Ready sb (checkpointing s) := ⟨hr.wf, hr.nodup, hr.outside⟩
  rcases (slotLoop_triple hr0).elim rfl with ⟨_, s₂, hloop, hinv⟩ | ⟨e, s₂, hloop, hstop⟩
  · exact .inl (doCheckpoint_of_slots hr hsem hloop hinv)
  · obtain ⟨ws, hp, hi⟩ := hstop
    refine .inr ⟨s₂, e, ?_, ws, hp, hi.disk, hi.writes, hi.commits, hi.syncs⟩
    rw [exec_doCheckpoint]
    exact exec_bind_error hloop

theorem doCheckpoint_idle (hidle : ∀ a, ¬ s.Held a) :
    ∃ s', (doCheckpoint sb).exec s = (.ok (), s') ∧ Checkpointed sb s s' := by
  have hr0 : Ready sb (checkpointing s) := ⟨hr.wf, hr.nodup, hr.outside⟩
  obtain ⟨_, s₂, hloop, hinv⟩ := ((slotLoop_idle hr0 hidle) _ rfl).returns fun _ hf => hf
  exact doCheckpoint_of_slots hr hsem hloop hinv

end

end

/-! ## Recovery -/

/-- The writes of the loop of `init_bcache`. -/
def recoverWrites (sb : SuperBlock) (s₀ : Cache) : List (Nat × Data) :=
  s₀.header.logged.zipIdx.map fun bi => (bi.1, s₀.disk ((logLayout sb).slot bi.2))

theorem take_recoverWrites_succ {s₀ : Cache} (hk : k < s₀.header.numBlocks) :
    (recoverWrites sb s₀).take (k + 1) = (recoverWrites sb s₀).take k ++
      [(s₀.header.blockNo k, s₀.disk ((logLayout sb).slot k))] := by
  have hlen : k < (recoverWrites sb s₀).length := by simpa [recoverWrites] using hk
  rw [take_succ_eq_append_getElem hlen]
  simp [recoverWrites, getElem_logged]

/-- The loop of `init_bcache`, started in `s₀`, before turn `k`. -/
structure RecoverInv (sb : SuperBlock) (s₀ : Cache) (k : Nat) (s : Cache) : Prop where
  wf : s.WF []
  header : s.header = s₀.header
  log : s.log = s₀.log
  disk : s.disk = apply s₀.disk ((recoverWrites sb s₀).take k)
  writes : s.writes = s₀.writes ++ (recoverWrites sb s₀).take k
  slots : ∀ j < s₀.header.numBlocks, Keeps s₀ s ((logLayout sb).slot j)
  free : ∀ a, ¬ s.Held a

section

variable {sb : SuperBlock} {s₀ : Cache}

theorem recoverSlot_triple (hempty : s₀.head = [])
    (hout : ∀ b ∈ s₀.header.logged, ¬ (logLayout sb).Area s₀.header.numBlocks b)
    (hk : k < s₀.header.numBlocks) :
    Triple (RecoverInv sb s₀ k) (recoverSlot sb k) (fun _ => RecoverInv sb s₀ (k + 1))
      (fun _ => False) := by
  intro s h
  have hmem := blockNo_mem_logged hk
  have hslot : ∀ j < s₀.header.numBlocks, (logLayout sb).slot j ≠ s₀.header.blockNo k :=
    fun j hj he => hout _ hmem (.inr ⟨j, hj, he.symm⟩)
  have hfree : ∀ b, s.Free b := fun b a ha => absurd ha (h.free a)
  have hdata : s.contents ((logLayout sb).slot k) = s₀.disk ((logLayout sb).slot k) := by
    rw [(h.slots k hk).contents]
    exact contents_of_not_cached fun a ha => by rw [hempty] at ha; cases ha
  unfold recoverSlot
  rw [exec_bind_ok (exec_get s), h.header]
  show Post _ _ ((copyBlock ((logLayout sb).slot k) _).exec s)
  rcases copyBlock_spec h.wf (h.slots k hk).stable (hslot k hk) with
    ⟨s', -, -, hexec, hc⟩ | ⟨s', e, hnot, -, -⟩
  · rw [hexec]
    refine ⟨hc.wf, hc.header.trans h.header, hc.log.trans h.log, ?_, ?_, fun j hj => ?_, fun a ha => ?_⟩
    · rw [hc.disk, h.disk, hdata, take_recoverWrites_succ hk, apply_append, apply_singleton]
    · rw [hc.writes, h.writes, hdata, take_recoverWrites_succ hk, append_assoc]
    · exact (h.slots j hj).trans (hc.keeps _ (hslot j hj) (h.slots j hj).stable)
    · exact h.free a ((hc.held a).1.mp ha)
  · exact absurd ⟨hfree _, hfree _⟩ hnot

theorem exec_initBcache_empty (h : (LogHeader.ofData (s.disk sb.logStart)).numBlocks = 0) :
    (initBcache sb).exec s = (.ok (), rebooted sb s) := by
  have h0 : (rebooted sb s).header.numBlocks = 0 := h
  unfold initBcache
  rw [exec_bind_ok (exec_modify _ _), exec_bind_ok (exec_get _), if_pos h0, exec_pure]

theorem initBcache_spec (sb : SuperBlock) (s : Cache) (hlog : (logLayout sb).LogOutside s.disk) :
    ∃ s', (initBcache sb).exec s = (.ok (), s') ∧
      s'.writes = s.writes ++ (logLayout sb).replayWrites s.disk ∧
      s'.disk = (logLayout sb).recover s.disk := by
  have hwf : (rebooted sb s).WF [] := BlockList.WF.nil _ _
  have hheader : (rebooted sb s).header = .ofData (s.disk sb.logStart) := rfl
  have hnone : ∀ a, ¬ (rebooted sb s).Held a := fun a ha => by cases ha.1
  have hout : ∀ b ∈ (rebooted sb s).header.logged,
      ¬ (logLayout sb).Area (rebooted sb s).header.numBlocks b := by
    rw [← length_logged]
    exact hlog
  by_cases h0 : (rebooted sb s).header.numBlocks = 0
  · have hnil : (logLayout sb).homes (s.disk sb.logStart) = [] := by
      exact logged_eq_nil h0
    refine ⟨rebooted sb s, exec_initBcache_empty h0, ?_, ?_⟩
    · rw [RedoLog.Layout.replayWrites_eq_nil hnil, append_nil]
      rfl
    · rw [RedoLog.Layout.recover, RedoLog.Layout.replayWrites_eq_nil hnil]
      rfl
  · have hne : (logLayout sb).homes (s.disk sb.logStart) ≠ [] := by
      intro hnil
      rw [logLayout_homes] at hnil
      rw [← length_logged, hheader, hnil] at h0
      exact h0 rfl
    have hfull : (recoverWrites sb (rebooted sb s)).take (rebooted sb s).header.numBlocks =
        recoverWrites sb (rebooted sb s) := take_of_length_le (by simp [recoverWrites])
    have hloop := Triple.forM_range (I := RecoverInv sb (rebooted sb s)) fun k hk =>
      recoverSlot_triple rfl hout hk
    rcases hloop.elim ⟨hwf, rfl, rfl, rfl, (append_nil _).symm,
      fun j _ => ⟨rfl, fun a ha => by cases ha⟩, hnone⟩ with ⟨_, s₂, hexec, hinv⟩ | ⟨_, _, _, hf⟩
    · have hd := hinv.disk
      have hw := hinv.writes
      rw [hfull] at hd hw
      refine ⟨{ s₂ with header := ⟨0, fun _ => 0⟩ }.deviceWrite sb.logStart
        (⟨0, fun _ => 0⟩ : LogHeader).toData, ?_, ?_, ?_⟩
      · unfold initBcache
        rw [exec_bind_ok (exec_modify _ _), exec_bind_ok (exec_get _), if_neg h0,
          exec_bind_ok hexec, exec_bind_ok (exec_modify _ _), exec_writeHeader]
      · show s₂.writes ++ _ = _
        rw [hw, RedoLog.Layout.replayWrites_of_ne_nil hne, append_assoc]
        rfl
      · show Function.update s₂.disk _ _ = _
        rw [hd, RedoLog.Layout.recover, RedoLog.Layout.replayWrites_of_ne_nil hne, apply_append,
          apply_singleton]
        rfl
    · exact hf.elim

end

/-- The devices that a crash may leave: the writes `ws` to `d₀` are cut short, and so are
any number of runs of `init_bcache` after it, each started with any memory `m`. -/
inductive DeviceCrash (sb : SuperBlock) (d₀ : Nat → Data) (ws : List (Nat × Data)) :
    (Nat → Data) → Prop where
  | writes {p : List (Nat × Data)} : p <+: ws → DeviceCrash sb d₀ ws (apply d₀ p)
  | initBcache {m m' : Cache} {r : Except Halt Unit} {ws' p : List (Nat × Data)} :
      DeviceCrash sb d₀ ws m.disk → (initBcache sb).exec m = (r, m') →
      m'.writes = m.writes ++ ws' → p <+: ws' → DeviceCrash sb d₀ ws (apply m.disk p)

/-- A crash of the code is a crash of the redo log with the same writes, as long as
`init_bcache` finds no log that would overwrite itself. -/
theorem DeviceCrash.redo {d₀ : Nat → Data} {ws : List (Nat × Data)}
    {d : Nat → Data} (hd : DeviceCrash sb d₀ ws d)
    (hout : ∀ d, (logLayout sb).Crashed d₀ ws d → (logLayout sb).LogOutside d) :
    (logLayout sb).Crashed d₀ ws d := by
  induction hd with
  | writes hp => exact .writes hp
  | @initBcache m _ _ _ _ _ he hw hp ih =>
    obtain ⟨m1, he1, hw1, -⟩ := initBcache_spec sb m (hout _ ih)
    cases he.symm.trans he1
    rw [hw1] at hw
    exact .replay ih (append_cancel_left hw ▸ hp)

end OsKernel
