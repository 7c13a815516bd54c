import OsKernel.Fs.Reservation

/-!
# What is on the device when `cache_end_op` returns

`cache_end_op` of the last running operation checkpoints the header before it
returns.  For any other operation the wait loop is never entered, as no
checkpoint runs while operations do, and the call returns at once with its
blocks in the cache only.  So the blocks of an operation are durable on return
exactly when it was the last one running or they were on the device before
(`end_op_durable`).
-/

namespace OsKernel

open Function List

variable {e : EndOp} {b : Nat} {a : LogAct}

namespace LogState

/-- A committed log on the device has contents `d` for block `b`. -/
def InLog (sb : SuperBlock) (disk : Nat → Data) (b : Nat) (d : Data) : Prop :=
  ∃ i, i < (LogHeader.ofData (disk sb.logStart)).numBlocks ∧
    (LogHeader.ofData (disk sb.logStart)).blockNo i = b ∧ disk (sb.logStart + 1 + i) = d

/-- Every block the operation synced is on the device, in its home block or in a
committed log, with its contents as of the `cache_end_op`. -/
def Durable (sb : SuperBlock) (disk : Nat → Data) (e : EndOp) : Prop :=
  ∀ b ∈ e.synced, disk b = e.blocks b ∨ InLog sb disk b (e.blocks b)

/-- The blocks in the header are neither the header block nor one of the slots
that a checkpoint of this header writes. -/
def Outside (sb : SuperBlock) (h : LogHeader) : Prop :=
  ∀ b ∈ h.logged, b < sb.logStart ∨ sb.logStart + h.numBlocks < b

instance (sb : SuperBlock) (h : LogHeader) : Decidable (Outside sb h) :=
  inferInstanceAs (Decidable (∀ b ∈ h.logged, _))

/-- A checkpoint starts only with blocks outside its part of the log area. -/
def AreaClear (sb : SuperBlock) (s : LogState) (a : LogAct) : Prop :=
  ∀ p c, a = .endOp p c → s.log.runningOps = 1 → Outside sb s.header

variable {sb : SuperBlock}

theorem durable_iff_home {disk : Nat → Data}
    (h : (LogHeader.ofData (disk sb.logStart)).numBlocks = 0) :
    Durable sb disk e ↔ ∀ b ∈ e.synced, disk b = e.blocks b := by
  refine ⟨fun hd b hb => ?_, fun hd b hb => Or.inl (hd b hb)⟩
  rcases hd b hb with hh | ⟨i, hi, -⟩
  · exact hh
  · rw [h] at hi
    exact absurd hi (Nat.not_lt_zero i)

/-! ## The progress of a checkpoint -/

/-- What a checkpoint in phase `ph` has achieved for the operation `e`. -/
def CkptInv (sb : SuperBlock) (h : LogHeader) (blocks disk : Nat → Data) (e : EndOp) :
    CkptPhase → Prop
  | .slots _ | .header =>
    Outside sb h ∧ ∀ b ∈ e.synced, b ∈ h.logged ∧ blocks b = e.blocks b
  | .homes i =>
    (Outside sb h ∧ ∀ b ∈ e.synced, b ∈ h.logged ∧ blocks b = e.blocks b) ∧
      ∀ j < i, disk (h.blockNo j) = blocks (h.blockNo j)
  | .clear => ∀ b ∈ e.synced, b ≠ sb.logStart ∧ disk b = e.blocks b
  | .finish =>
    (LogHeader.ofData (disk sb.logStart)).numBlocks = 0 ∧ ∀ b ∈ e.synced, disk b = e.blocks b

section

variable {sb : SuperBlock} {h : LogHeader} {blocks disk : Nat → Data} {e : EndOp}

theorem Outside.slot_ne (hout : Outside sb h) {idx : Nat} (hidx : idx < h.numBlocks)
    (hb : b ∈ h.logged) : b ≠ sb.logStart + 1 + idx := by
  have := hout b hb
  omega

theorem Outside.ne_logStart (hout : Outside sb h) (hb : b ∈ h.logged) :
    b ≠ sb.logStart := by
  have := hout b hb
  omega

theorem CkptInv.slot {idx : Nat} (hc : CkptInv sb h blocks disk e (.slots idx))
    (hidx : idx < h.numBlocks) (d : Data) (disk' : Nat → Data) :
    CkptInv sb h (update blocks (sb.logStart + 1 + idx) d) disk' e (.slots (idx + 1)) := by
  refine ⟨hc.1, fun b hb => ⟨(hc.2 b hb).1, ?_⟩⟩
  rw [update_of_ne (hc.1.slot_ne hidx (hc.2 b hb).1)]
  exact (hc.2 b hb).2

theorem CkptInv.homesStart (hc : CkptInv sb h blocks disk e .header) (disk' : Nat → Data) :
    CkptInv sb h blocks disk' e (.homes 0) :=
  ⟨hc, fun j hj => absurd hj (Nat.not_lt_zero j)⟩

theorem CkptInv.home {i : Nat} (hc : CkptInv sb h blocks disk e (.homes i)) :
    CkptInv sb h blocks (update disk (h.blockNo i) (blocks (h.blockNo i))) e
      (.homes (i + 1)) := by
  refine ⟨hc.1, fun j hj => ?_⟩
  by_cases hji : h.blockNo j = h.blockNo i
  · rw [hji, update_self]
  · rw [update_of_ne hji]
    have hne : j ≠ i := fun he => hji (by rw [he])
    exact hc.2 j (by omega)

theorem CkptInv.homesDone {i : Nat} (hc : CkptInv sb h blocks disk e (.homes i))
    (hi : h.numBlocks ≤ i) : CkptInv sb h.clear blocks disk e .clear := by
  intro b hb
  obtain ⟨hlog, hdata⟩ := hc.1.2 b hb
  obtain ⟨j, hj, rfl⟩ := LogHeader.mem_logged.mp hlog
  exact ⟨hc.1.1.ne_logStart hlog, (hc.2 j (by omega)).trans hdata⟩

theorem CkptInv.clear (hc : CkptInv sb h blocks disk e .clear) (h0 : h.numBlocks = 0) :
    CkptInv sb h blocks (update disk sb.logStart h.toData) e .finish := by
  refine ⟨?_, fun b hb => ?_⟩
  · rw [update_self, LogHeader.numBlocks_ofData_toData, h0, Nat.zero_mod]
  · rw [update_of_ne (hc b hb).1]
    exact (hc b hb).2

end

/-! ## The invariant -/

structure DurInv (sb : SuperBlock) (s : LogState) : Prop where
  synced : ∀ c ∈ s.running, ∀ b ∈ s.synced c, b ∈ s.header.logged
  empty : s.log.checkpointing = false → (LogHeader.ofData (s.disk sb.logStart)).numBlocks = 0
  ckpt : ∀ p e ph, s.pcs p = .ckpt e ph → e.last = true ∧ CkptInv sb s.header s.blocks s.disk e ph
  ret : ∀ e, s.returned = some e →
    (Durable sb s.disk e ↔ e.last = true ∨ ∀ b ∈ e.synced, e.disk b = e.blocks b)

variable {s s' : LogState} {p c : Nat}

theorem DurInv.of_init (h : s.Init sb) : DurInv sb s := by
  refine ⟨fun c hc => ?_, fun _ => h.disk, fun p e ph hp => ?_, fun e he => ?_⟩
  · rw [h.running] at hc
    cases hc
  · rw [pcs, (h.procs p).1] at hp
    cases hp
  · rw [h.returned] at he
    cases he

/-- A step that leaves the header, the blocks and the device alone and takes the
process nowhere into a checkpoint. -/
theorem DurInv.frame (h : DurInv sb s) {npc : LogPc}
    (hpcs : s'.pcs = update s.pcs p npc) (hnpc : npc.isCkpt = false)
    (hheader : s'.header = s.header) (hblocks : s'.blocks = s.blocks) (hdisk : s'.disk = s.disk)
    (hck : s'.log.checkpointing = s.log.checkpointing)
    (hsynced : ∀ c ∈ s'.running, c ∈ s.running ∧ s'.synced c = s.synced c ∨ s'.synced c = [])
    (hret : ∀ e, s'.returned = some e →
      (Durable sb s'.disk e ↔ e.last = true ∨ ∀ b ∈ e.synced, e.disk b = e.blocks b)) :
    DurInv sb s' := by
  refine ⟨fun c hc b hb => ?_, ?_, fun q e ph hq => ?_, hret⟩
  · rw [hheader]
    rcases hsynced c hc with ⟨hr, he⟩ | he
    · exact h.synced c hr b (he ▸ hb)
    · rw [he] at hb
      cases hb
  · rw [hck, hdisk]
    exact h.empty
  · rw [hheader, hblocks, hdisk]
    rw [hpcs] at hq
    refine h.ckpt q e ph (Runs.of_update id hq fun he => ?_).2
    rw [show npc = _ from he] at hnpc
    cases hnpc

theorem DurInv.inCkpt (hinv : s.Inv) (h : DurInv sb s)
    {ph ph' : CkptPhase} (hpc : (s.procs p).pc = .ckpt e ph)
    (hpcs : s'.pcs = update s.pcs p (.ckpt e ph'))
    (hck : s'.log.checkpointing = s.log.checkpointing) (hrun : s'.running = s.running)
    (hret : s'.returned = none)
    (hc : CkptInv sb s.header s.blocks s.disk e ph → CkptInv sb s'.header s'.blocks s'.disk e ph') :
    DurInv sb s' := by
  have hp : (s.pcs p).isCkpt = true := by rw [pcs, hpc]; rfl
  have hcktrue := hinv.places.ckpt p hp
  refine ⟨fun c hcr => ?_, fun hf => ?_, fun q e' phq hq => ?_, fun e' he' => ?_⟩
  · rw [hrun] at hcr
    rw [hinv.acct.not_ck hcr] at hcktrue
    cases hcktrue
  · rw [hck, hcktrue] at hf
    cases hf
  · rw [hpcs] at hq
    obtain rfl | hqp := eq_or_ne q p
    · rw [update_self] at hq
      cases hq
      obtain ⟨hl, hci⟩ := h.ckpt q e ph hpc
      exact ⟨hl, hc hci⟩
    · rw [update_of_ne hqp] at hq
      exact absurd (hinv.places.ckptUnique q p (by rw [hq]; rfl) hp) hqp
  · rw [hret] at he'
    cases he'

theorem Inv.not_ckpt (h : s.Inv) (hc : c ∈ s.running) {q : Nat}
    {ph : CkptPhase} : s.pcs q ≠ .ckpt e ph := by
  intro hq
  have hck := h.places.ckpt q (by rw [hq]; rfl)
  rw [h.acct.not_ck hc] at hck
  cases hck

theorem DurInv.inOp (hinv : s.Inv) (h : DurInv sb s)
    (hc : c ∈ s.running) (hpcs : s'.pcs = update s.pcs p .idle)
    (hdisk : s'.disk = s.disk) (hret : s'.returned = none)
    (hsynced : ∀ c ∈ s'.running, ∀ b ∈ s'.synced c, b ∈ s'.header.logged) : DurInv sb s' := by
  refine ⟨hsynced, fun _ => ?_, fun q e ph hq => ?_, fun e he => ?_⟩
  · rw [hdisk]
    exact h.empty (hinv.acct.not_ck hc)
  · rw [hpcs] at hq
    exact absurd (Runs.of_update id hq (by rintro ⟨⟩)).2 (hinv.not_ckpt hc)
  · rw [hret] at he
    cases he

theorem mem_logged_of_syncLog {h h' : LogHeader} {ctx ctx' : OpContext}
    (hs : syncLog h ctx b = some (h', ctx')) : b ∈ h'.logged ∧ ∀ x ∈ h.logged, x ∈ h'.logged := by
  rcases syncLog_eq_some hs with ⟨hb, rfl, -⟩ | ⟨-, -, -, rfl, -⟩
  · exact ⟨hb, fun _ hx => hx⟩
  · rw [LogHeader.logged_push]
    exact ⟨mem_append_right _ (mem_singleton_self b), fun x hx => mem_append_left _ hx⟩

section

variable (hinv : s.Inv) (h : DurInv sb s)

include hinv h

theorem DurInv.endLast
    (hc : c ∈ s.running) (hout : Outside sb s.header) (hlast : s.log.runningOps - 1 = 0)
    (hpcs : s'.pcs = update s.pcs p (.ckpt ⟨c, s.synced c, s.blocks, s.disk, true⟩ (.slots 0)))
    (hck : s'.log.checkpointing = true) (hrun : s'.running = s.running.erase c)
    (hheader : s'.header = s.header) (hblocks : s'.blocks = s.blocks) (hret : s'.returned = none) :
    DurInv sb s' := by
  refine ⟨fun c' hc' => ?_, fun hf => ?_, fun q e ph hq => ?_, fun e he => ?_⟩
  · have hlen : (s.running.erase c).length = 0 := by
      rw [length_erase_of_mem hc, ← hinv.acct.count]
      exact hlast
    rw [hrun, eq_nil_of_length_eq_zero hlen] at hc'
    cases hc'
  · rw [hck] at hf
    cases hf
  · rw [hpcs] at hq
    obtain rfl | hqp := eq_or_ne q p
    · rw [update_self] at hq
      cases hq
      rw [hheader, hblocks]
      exact ⟨rfl, hout, fun b hb => ⟨h.synced c hc b hb, rfl⟩⟩
    · rw [update_of_ne hqp] at hq
      exact absurd hq (hinv.not_ckpt hc)
  · rw [hret] at he
    cases he

theorem DurInv.finish (hpc : (s.procs p).pc = .ckpt e .finish)
    (hpcs : s'.pcs = update s.pcs p .idle) (hrun : s'.running = s.running)
    (hdisk : s'.disk = s.disk) (hret : s'.returned = some e) : DurInv sb s' := by
  have hp : (s.pcs p).isCkpt = true := by rw [pcs, hpc]; rfl
  have hcktrue := hinv.places.ckpt p hp
  obtain ⟨hlast, hempty, hhome⟩ := h.ckpt p e .finish hpc
  refine ⟨fun c hc => ?_, fun _ => ?_, fun q e' ph hq => ?_, fun e' he' => ?_⟩
  · rw [hrun] at hc
    rw [hinv.acct.not_ck hc] at hcktrue
    cases hcktrue
  · rw [hdisk]
    exact hempty
  · rw [hpcs] at hq
    obtain ⟨hqp, hq⟩ := Runs.of_update id hq (by rintro ⟨⟩)
    exact absurd (hinv.places.ckptUnique q p (congrArg LogPc.isCkpt hq) hp) hqp
  · rw [hret, Option.some.injEq] at he'
    subst he'
    rw [hdisk]
    exact ⟨fun _ => Or.inl hlast, fun _ => (durable_iff_home hempty).mpr hhome⟩

theorem DurInv.step (hok : AreaClear sb s a) (hstep : LogState.step sb s a = .ok s') :
    DurInv sb s' := by
  cases LogStep.of_step hstep with
  | block he hw =>
    exact h.frame (pcs_goto s _ _) rfl rfl rfl rfl rfl (fun c hc => Or.inl ⟨hc, rfl⟩) nofun
  | @begun _ p c pd he hw =>
    refine h.frame (pcs_goto s _ _) rfl rfl rfl rfl rfl (fun c' hc' => ?_) nofun
    obtain rfl | hcc := eq_or_ne c' c
    · exact Or.inr (update_self _ _ _)
    · exact Or.inl ⟨(mem_cons.mp hc').resolve_left hcc, update_of_ne hcc _ _⟩
  | take | wake | acquire | release =>
    exact h.frame (pcs_goto s _ _) rfl rfl rfl rfl rfl (fun c hc => Or.inl ⟨hc, rfl⟩) nofun
  | sleep =>
    exact h.frame (pcs_update s _ _ _ _) rfl rfl rfl rfl rfl (fun c hc => Or.inl ⟨hc, rfl⟩) nofun
  | modify hpc hc hb => exact h.inOp hinv hc (pcs_goto s _ _) rfl rfl h.synced
  | @sync p c b hd ctx hpc hc hb hs =>
    obtain ⟨hnew, hmono⟩ := mem_logged_of_syncLog hs
    refine h.inOp hinv hc (pcs_goto s _ _) rfl rfl fun c' hc' x hx => ?_
    change x ∈ update s.synced c (b :: s.synced c) c' at hx
    obtain rfl | hcc := eq_or_ne c' c
    · rw [update_self] at hx
      rcases mem_cons.mp hx with rfl | hx
      · exact hnew
      · exact hmono x (h.synced c' hc' x hx)
    · rw [update_of_ne hcc] at hx
      exact hmono x (h.synced c' hc' x hx)
  | @endLast p c hpc hc hck hlast =>
    have hpos := length_pos_of_mem hc
    have hops : s.log.runningOps = 1 := by
      have := hinv.acct.count
      omega
    exact h.endLast hinv hc (hok p c rfl hops) hlast (pcs_goto s _ _) rfl rfl rfl rfl rfl
  | @endOther p c sem w hpc hc hck hlast hw =>
    refine h.frame (pcs_foldl_grant s _ _ _) rfl rfl rfl rfl rfl
      (fun c' hc' => Or.inl ⟨mem_of_mem_erase hc', rfl⟩) fun e he => ?_
    cases he
    refine (durable_iff_home (h.empty hck)).trans ⟨Or.inr, fun hor => ?_⟩
    exact hor.resolve_left Bool.noConfusion
  | slot hpc hidx =>
    exact h.inCkpt hinv hpc (pcs_goto s _ _) rfl rfl rfl fun hc => hc.slot hidx _ _
  | slotsDone hpc => exact h.inCkpt hinv hpc (pcs_goto s _ _) rfl rfl rfl id
  | header hpc => exact h.inCkpt hinv hpc (pcs_goto s _ _) rfl rfl rfl fun hc => hc.homesStart _
  | home hpc => exact h.inCkpt hinv hpc (pcs_goto s _ _) rfl rfl rfl fun hc => hc.home
  | homesDone hpc hi =>
    exact h.inCkpt hinv hpc (pcs_goto s _ _) rfl rfl rfl fun hc => hc.homesDone hi
  | @clear p e hpc =>
    have h0 := hinv.cleared p (by rw [pcs, hpc]; rfl)
    exact h.inCkpt hinv hpc (pcs_goto s _ _) rfl rfl rfl fun hc => hc.clear h0
  | finish hpc hw => exact h.finish hinv hpc (pcs_foldl_grant s _ _ _) rfl rfl rfl

end

/-- When `cache_end_op` returns, the blocks of the operation are durable exactly
when it was the last one running at the call or they all were on the device
before it. -/
theorem end_op_durable (sb : SuperBlock) (s : LogState) (h : ReachWhen sb (AreaClear sb) s)
    (e : EndOp) (he : s.returned = some e) :
    Durable sb s.disk e ↔ e.last = true ∨ ∀ b ∈ e.synced, e.disk b = e.blocks b := by
  have hdur : DurInv sb s :=
    Runs.Reach.invariant_of (fun _ hs => inv_of_reach hs) (fun _ hs => DurInv.of_init hs)
      (fun _ _ _ hJ hI hok hs => hI.step hJ hok hs) h
  exact hdur.ret e he

/-- A test for `AreaClear`. -/
def areaClear (sb : SuperBlock) (s : LogState) : LogAct → Bool
  | .endOp _ _ => decide (s.log.runningOps ≠ 1) || decide (Outside sb s.header)
  | _ => true

theorem AreaClear.of_test (h : areaClear sb s a = true) : AreaClear sb s a := by
  rintro p c rfl hops
  rw [areaClear, Bool.or_eq_true, decide_eq_true_eq, decide_eq_true_eq] at h
  exact h.resolve_left fun hne => hne hops

/-- The calls of an operation that fills block 100 with ones. -/
def fillBlock (p c : Nat) : List LogAct :=
  [.acquire p 100, .modify p c 100 (fun _ => 1), .sync p c 100, .release p 100, .endOp p c]

/-- Of two running operations the first ends: its block is on the device
nowhere. -/
theorem end_op_not_durable :
    ∃ s e, Reachable Mkfs.superBlock s ∧ s.returned = some e ∧ e.synced = [100] ∧
      ¬ Durable Mkfs.superBlock s.disk e := by
  obtain ⟨s, hs, hw⟩ := Runs.Reach.of_execTest boot_mkfs
    (show Runs.execTest (step Mkfs.superBlock) (boot fun _ => Bytes.zero)
      (.beginOp 0 0 :: .beginOp 1 1 :: fillBlock 0 0)
      (fun s => s.returned.any fun e => e.synced = [100] ∧
        (LogHeader.ofData (s.disk Mkfs.superBlock.logStart)).numBlocks = 0 ∧
        (s.disk 100).get 0 ≠ (e.blocks 100).get 0) = true by decide +kernel)
  rw [Option.any_eq_true] at hw
  obtain ⟨e, he, ht⟩ := hw
  obtain ⟨hsync, hempty, hne⟩ := of_decide_eq_true ht
  refine ⟨s, e, hs, he, hsync, fun hd => hne ?_⟩
  rw [(durable_iff_home hempty).mp hd 100 (by simp [hsync])]

/-- A single operation is checkpointed before its `cache_end_op` returns. -/
theorem end_op_durable_single :
    ∃ s e, ReachWhen Mkfs.superBlock (AreaClear Mkfs.superBlock) s ∧ s.returned = some e ∧
      e.synced = [100] ∧ e.disk 100 ≠ e.blocks 100 ∧ Durable Mkfs.superBlock s.disk e := by
  obtain ⟨s, hs, hw⟩ := Runs.Reach.of_execTest boot_mkfs
    (show Runs.execTest (Runs.guarded (step Mkfs.superBlock) (areaClear Mkfs.superBlock) .disabled)
      (boot fun _ => Bytes.zero) (.beginOp 0 0 :: fillBlock 0 0 ++ List.replicate 7 (.ckpt 0))
      (fun s => s.returned.any fun e => e.synced = [100] ∧ e.last = true ∧
        (e.disk 100).get 0 ≠ (e.blocks 100).get 0) = true by decide +kernel)
  have hreach : ReachWhen Mkfs.superBlock (AreaClear Mkfs.superBlock) s :=
    Runs.Reach.of_guarded (fun _ _ => trivial) (fun _ _ _ => AreaClear.of_test) hs
  rw [Option.any_eq_true] at hw
  obtain ⟨e, he, ht⟩ := hw
  obtain ⟨hsync, hlast, hne⟩ := of_decide_eq_true ht
  exact ⟨s, e, hreach, he, hsync, fun heq => hne (by rw [heq]),
    (end_op_durable _ s hreach e he).mpr (Or.inl hlast)⟩

end LogState

end OsKernel
