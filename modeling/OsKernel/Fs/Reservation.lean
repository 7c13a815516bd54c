import OsKernel.Fs.LogSystem
import Mathlib.Algebra.Order.BigOperators.Group.List

/-!
# Log reservations

`cache_begin_op` admits an operation only when the header has room for every
block that this and the other running operations may still add.  The invariant
behind it is that the blocks in the header and the reservations `rm` of the
running contexts together fit the header (`log_reservation`).

The header has room for `LOG_MAX_SIZE` blocks.  The log area that `mkfs` lays
out has `LOG_MAX_SIZE` blocks too, but one of them is the header, so the last
slot of a full log is the first inode block (`log_confined_mkfs_fails`).  The
log copies stay inside the area in every run that never adds a block to a header
with `num_log_blocks - 1` entries (`log_confined`).
-/

namespace OsKernel

open Function List

variable {npc : LogPc} {b c : Nat} {pd running : List Nat} {ctx : OpContext}

/-- The context of the `cache_begin_op` a process is in. -/
def LogPc.begins : LogPc → Option Nat
  | .beginTest c | .beginWait c | .beginSleep c => some c
  | _ => none

/-- Is the process in `do_checkpoint`? -/
def LogPc.isCkpt : LogPc → Bool
  | .ckpt _ _ => true
  | _ => false

/-- Is the process in `do_checkpoint` after `header.num_blocks = 0`? -/
def LogPc.isCleared : LogPc → Bool
  | .ckpt _ .clear | .ckpt _ .finish => true
  | _ => false

theorem LogPc.isCkpt_of_isCleared {pc : LogPc} (h : pc.isCleared = true) : pc.isCkpt = true := by
  cases pc <;> first | rfl | cases h

namespace LogState

def pcs (s : LogState) (p : Nat) : LogPc := (s.procs p).pc

theorem pcs_update (s : LogState) (p : Nat) (proc : Proc) (up : Bool) (pc : LogPc) :
    (fun q => (update s.procs p ⟨proc, up, pc⟩ q).pc) = update s.pcs p pc := by
  funext q
  obtain rfl | hq := eq_or_ne q p
  · simp
  · simp [pcs, hq]

theorem pcs_goto (s : LogState) (p : Nat) (pc : LogPc) : (s.goto p pc).pcs = update s.pcs p pc :=
  pcs_update s p _ _ pc

@[simp] theorem foldl_grant_pc (procs : Nat → LogProc) (ws : List Nat) (q : Nat) :
    (ws.foldl grant procs q).pc = (procs q).pc := by
  induction ws generalizing procs with
  | nil => rfl
  | cons p ws ih =>
    rw [foldl_cons, ih]
    obtain rfl | hq := eq_or_ne q p
    · simp [grant]
    · simp [grant, hq]

/-! ## Contexts and checkpoints belong to one process -/

structure PcInv (pc : Nat → LogPc) (running pending : List Nat) (ck : Bool) : Prop where
  entering : ∀ p c, (pc p).begins = some c → c ∈ pending ∧ c ∉ running
  unique : ∀ p q c, (pc p).begins = some c → (pc q).begins = some c → p = q
  ckpt : ∀ p, (pc p).isCkpt = true → ck = true
  ckptUnique : ∀ p q, (pc p).isCkpt = true → (pc q).isCkpt = true → p = q

namespace PcInv

variable {pc : Nat → LogPc} {running pending : List Nat} {ck : Bool}

variable {p : Nat}

section

variable (h : PcInv pc running pending ck)

include h

theorem move {running' pending' : List Nat} (hc : npc.isCkpt = (pc p).isCkpt)
    (hentering : ∀ q c, (update pc p npc q).begins = some c → c ∈ pending' ∧ c ∉ running')
    (hunique : ∀ q r c, (update pc p npc q).begins = some c → (update pc p npc r).begins = some c →
      q = r) : PcInv (update pc p npc) running' pending' ck := by
  have hck := Runs.proj_update LogPc.isCkpt hc
  refine ⟨hentering, hunique, fun q => ?_, fun q r => ?_⟩
  · rw [hck]
    exact h.ckpt q
  · rw [hck, hck]
    exact h.ckptUnique q r

theorem stay (hb : npc.begins = (pc p).begins) (hc : npc.isCkpt = (pc p).isCkpt) :
    PcInv (update pc p npc) running pending ck := by
  have hbegins := Runs.proj_update LogPc.begins hb
  refine h.move hc (fun q c => ?_) fun q r c => ?_
  · rw [hbegins]
    exact h.entering q c
  · rw [hbegins, hbegins]
    exact h.unique q r c

theorem enter (hpd : (pc p).begins = none ∧ c ∉ running ∧ c ∉ pending ∧ pd = c :: pending ∨
      (pc p).begins = some c ∧ pd = pending)
    (hck : (pc p).isCkpt = false) :
    PcInv (update pc p (.beginWait c)) running pd ck := by
  rcases hpd with ⟨hp, hr, hn, rfl⟩ | ⟨hp, rfl⟩
  · refine h.move hck.symm (fun q c' hq => ?_) fun q r c' hq hr' => ?_
    · obtain rfl | hqp := eq_or_ne q p
      · rw [update_self] at hq
        cases hq
        exact ⟨mem_cons_self, hr⟩
      · rw [update_of_ne hqp] at hq
        obtain ⟨h1, h2⟩ := h.entering q c' hq
        exact ⟨mem_cons_of_mem _ h1, h2⟩
    · by_cases hqp : q = p <;> by_cases hrp : r = p
      · rw [hqp, hrp]
      · subst hqp
        rw [update_self] at hq
        rw [update_of_ne hrp] at hr'
        cases hq
        exact absurd (h.entering r c hr').1 hn
      · subst hrp
        rw [update_self] at hr'
        rw [update_of_ne hqp] at hq
        cases hr'
        exact absurd (h.entering q c hq).1 hn
      · rw [update_of_ne hqp] at hq
        rw [update_of_ne hrp] at hr'
        exact h.unique q r c' hq hr'
  · exact h.stay (by rw [hp]; rfl) (by rw [hck]; rfl)

theorem begun (hp : ∀ q, q ≠ p → (pc q).begins ≠ some c) (hck : (pc p).isCkpt = false) :
    PcInv (update pc p .idle) (c :: running) (pending.erase c) ck := by
  refine h.move hck.symm (fun q c' hq => ?_) fun q r c' hq hr => ?_
  · obtain ⟨hqp, hq⟩ := Runs.of_update LogPc.begins hq nofun
    obtain ⟨h1, h2⟩ := h.entering q c' hq
    have hne : c' ≠ c := fun he => hp q hqp (he ▸ hq)
    exact ⟨(mem_erase_of_ne hne).mpr h1, by simp [hne, h2]⟩
  · obtain ⟨-, hq⟩ := Runs.of_update LogPc.begins hq nofun
    obtain ⟨-, hr⟩ := Runs.of_update LogPc.begins hr nofun
    exact h.unique q r c' hq hr

theorem erase (c : Nat) : PcInv pc (running.erase c) pending ck := by
  refine ⟨fun p c' hp => ?_, h.unique, h.ckpt, h.ckptUnique⟩
  obtain ⟨h1, h2⟩ := h.entering p c' hp
  exact ⟨h1, fun hm => h2 (mem_of_mem_erase hm)⟩

end

theorem startCkpt (h : PcInv pc running pending false) (hp : (pc p).begins = none)
    (e : EndOp) (ph : CkptPhase) : PcInv (update pc p (.ckpt e ph)) running pending true := by
  have hnone : ∀ q, (pc q).isCkpt ≠ true := fun q hq => Bool.noConfusion (h.ckpt q hq)
  have hbegins := Runs.proj_update (f := pc) (i := p) (v := .ckpt e ph) LogPc.begins hp.symm
  have hself : ∀ q, (update pc p (LogPc.ckpt e ph) q).isCkpt = true → q = p := by
    intro q hq
    by_contra hqp
    rw [update_of_ne hqp] at hq
    exact hnone q hq
  refine ⟨fun q c => ?_, fun q r c => ?_, fun _ _ => rfl, fun q r hq hr => ?_⟩
  · rw [hbegins]
    exact h.entering q c
  · rw [hbegins, hbegins]
    exact h.unique q r c
  · rw [hself q hq, hself r hr]

theorem endCkpt (h : PcInv pc running pending ck) (hp : (pc p).isCkpt = true)
    (hb : (pc p).begins = none) : PcInv (update pc p .idle) running pending false := by
  have hbegins := Runs.proj_update (f := pc) (i := p) (v := .idle) LogPc.begins hb.symm
  have hnone : ∀ q, (update pc p LogPc.idle q).isCkpt ≠ true := fun q hq => by
    obtain ⟨hqp, hq⟩ := Runs.of_update LogPc.isCkpt hq nofun
    exact hqp (h.ckptUnique q p hq hp)
  refine ⟨fun q c => ?_, fun q r c => ?_, fun q hq => absurd hq (hnone q),
    fun q r hq => absurd hq (hnone q)⟩
  · rw [hbegins]
    exact h.entering q c
  · rw [hbegins, hbegins]
    exact h.unique q r c

end PcInv

/-! ## The header and the reservations -/

def reserved (ctxs : Nat → OpContext) (running : List Nat) : Nat :=
  (running.map fun c => (ctxs c).rm).sum

structure Acct (header : LogHeader) (ops : Nat) (ck : Bool) (ctxs : Nat → OpContext)
    (running : List Nat) (added : Nat → Nat) : Prop where
  fits : header.numBlocks + reserved ctxs running ≤ LOG_MAX_SIZE
  distinct : header.logged.Nodup
  exclusive : ck = true → ops = 0
  nodup : running.Nodup
  count : ops = running.length
  budget : ∀ c ∈ running, (ctxs c).rm + added c = OP_MAX_NUM_BLOCKS
  quiet : ck = false → ops = 0 → header.numBlocks = 0

theorem reserved_congr {ctxs ctxs' : Nat → OpContext}
    (h : ∀ c ∈ running, ctxs' c = ctxs c) : reserved ctxs' running = reserved ctxs running := by
  rw [reserved, reserved, map_congr_left fun c hc => by rw [h c hc]]

variable {c p : Nat} {sb : SuperBlock} {s s' : LogState} {a : LogAct}

theorem reserved_erase (ctxs : Nat → OpContext) (hc : c ∈ running) :
    (ctxs c).rm + reserved ctxs (running.erase c) = reserved ctxs running :=
  sum_map_erase (fun c => (ctxs c).rm) hc

namespace Acct

variable {header : LogHeader} {ops : Nat} {ck : Bool} {ctxs : Nat → OpContext}
  {running : List Nat} {added : Nat → Nat}

theorem reserved_le (h : Acct header ops ck ctxs running added) :
    reserved ctxs running ≤ ops * OP_MAX_NUM_BLOCKS := by
  have hle := sum_le_card_nsmul (running.map fun c => (ctxs c).rm) OP_MAX_NUM_BLOCKS (by
    intro x hx
    obtain ⟨c, hc, rfl⟩ := mem_map.mp hx
    have := h.budget c hc
    omega)
  rwa [length_map, nsmul_eq_mul, ← h.count, Nat.cast_id] at hle

theorem begun (h : Acct header ops false ctxs running added) {ts : Nat} (hc : c ∉ running)
    (hroom : header.numBlocks + (ops + 1) * OP_MAX_NUM_BLOCKS ≤ LOG_MAX_SIZE) :
    Acct header (ops + 1) false (update ctxs c ⟨OP_MAX_NUM_BLOCKS, ts⟩) (c :: running)
      (update added c 0) := by
  have hne : ∀ c' ∈ running, c' ≠ c := fun c' hc' he => hc (he ▸ hc')
  refine ⟨?_, h.distinct, fun hck => Bool.noConfusion hck, nodup_cons.mpr ⟨hc, h.nodup⟩, ?_,
    fun c' hc' => ?_, fun _ h0 => Nat.noConfusion h0⟩
  · have hrest : reserved (update ctxs c ⟨OP_MAX_NUM_BLOCKS, ts⟩) running =
        reserved ctxs running :=
      reserved_congr fun c' hc' => update_of_ne (hne c' hc') _ _
    have hle := h.reserved_le
    have hcons : reserved (update ctxs c ⟨OP_MAX_NUM_BLOCKS, ts⟩) (c :: running) =
        OP_MAX_NUM_BLOCKS + reserved ctxs running := by
      rw [← hrest, reserved, map_cons, sum_cons, update_self]
      rfl
    rw [Nat.add_mul] at hroom
    omega
  · rw [h.count, length_cons]
  · rcases mem_cons.mp hc' with rfl | hc'
    · simp
    · rw [update_of_ne (hne c' hc'), update_of_ne (hne c' hc')]
      exact h.budget c' hc'

theorem push (h : Acct header ops ck ctxs running added)
    (hc : c ∈ running) (hb : b ∉ header.logged) (hrm : ctx.rm + 1 = (ctxs c).rm) :
    Acct (header.push b) ops ck (update ctxs c ctx) running
      (update added c (added c + 1)) := by
  refine ⟨?_, ?_, h.exclusive, h.nodup, h.count, fun c' hc' => ?_, fun _ h0 => ?_⟩
  · have herase : reserved (update ctxs c ctx) (running.erase c) =
        reserved ctxs (running.erase c) :=
      reserved_congr fun c' hc' =>
        update_of_ne (h.nodup.mem_erase_iff.mp hc').1 _ _
    have h1 := reserved_erase (update ctxs c ctx) hc
    have h2 := reserved_erase ctxs hc
    have hfits := h.fits
    rw [update_self, herase] at h1
    rw [LogHeader.numBlocks_push]
    omega
  · rw [LogHeader.logged_push]
    exact List.Nodup.append h.distinct (nodup_singleton b) (by simpa using hb)
  · have hbud := h.budget c' hc'
    obtain rfl | hcc := eq_or_ne c' c
    · rw [update_self, update_self]
      omega
    · rwa [update_of_ne hcc, update_of_ne hcc]
  · have := length_pos_of_mem hc
    have := h.count
    omega

theorem sync (h : Acct header ops ck ctxs running added) {hd : LogHeader}
    (hc : c ∈ running) (hs : syncLog header (ctxs c) b = some (hd, ctx)) :
    Acct hd ops ck (update ctxs c ctx) running
      (update added c (added c + (hd.numBlocks - header.numBlocks))) := by
  rcases syncLog_eq_some hs with ⟨-, rfl, rfl⟩ | ⟨hb, hrm, -, rfl, rfl⟩
  · rwa [Nat.sub_self, Nat.add_zero, update_eq_self, update_eq_self]
  · rw [LogHeader.numBlocks_push, Nat.add_sub_cancel_left]
    exact h.push hc hb (Nat.sub_add_cancel hrm)

theorem endOp (h : Acct header ops false ctxs running added) (hc : c ∈ running) {ck' : Bool}
    (hck : ck' = true ↔ ops - 1 = 0) :
    Acct header (ops - 1) ck' ctxs (running.erase c) added := by
  refine ⟨?_, h.distinct, hck.mp, h.nodup.erase c, ?_,
    fun c' hc' => h.budget c' (mem_of_mem_erase hc'), fun hck' h0 => ?_⟩
  · have := reserved_erase ctxs hc
    have := h.fits
    omega
  · rw [length_erase_of_mem hc, h.count]
  · rw [hck.mpr h0] at hck'
    cases hck'

theorem clear (h : Acct header ops true ctxs running added) :
    Acct header.clear ops true ctxs running added := by
  have hnil : header.clear.logged = [] := LogHeader.logged_eq_nil rfl
  refine ⟨?_, ?_, h.exclusive, h.nodup, h.count, h.budget, fun _ _ => rfl⟩
  · have := h.fits
    simp only [LogHeader.clear]
    omega
  · rw [hnil]
    exact nodup_nil

theorem finish (h : Acct header ops ck ctxs running added) (h0 : header.numBlocks = 0) :
    Acct header ops false ctxs running added :=
  ⟨h.fits, h.distinct, fun hck => Bool.noConfusion hck, h.nodup, h.count, h.budget, fun _ _ => h0⟩

theorem not_ck (h : Acct header ops ck ctxs running added) (hc : c ∈ running) :
    ck = false := by
  have hpos := length_pos_of_mem hc
  have hcount := h.count
  cases hck : ck with
  | false => rfl
  | true =>
    have := h.exclusive hck
    omega

end Acct

/-! ## Every run keeps them -/

structure Inv (s : LogState) : Prop where
  places : PcInv s.pcs s.running s.pending s.log.checkpointing
  sem : s.log.opSem.WF
  acct : Acct s.header s.log.runningOps s.log.checkpointing s.ctxs s.running s.added
  cleared : ∀ p, (s.pcs p).isCleared = true → s.header.numBlocks = 0

theorem Inv.of_init (h : s.Init sb) : s.Inv := by
  have hpc : ∀ p, s.pcs p = .idle := fun p => (h.procs p).1
  refine ⟨⟨fun p c hp => ?_, fun p q c hp => ?_, fun p hp => ?_, fun p q hp => ?_⟩, ?_,
    ⟨?_, ?_, ?_, ?_, ?_, ?_, fun _ _ => h.header⟩, fun _ _ => h.header⟩
  · rw [hpc] at hp
    cases hp
  · rw [hpc] at hp
    cases hp
  · rw [hpc] at hp
    cases hp
  · rw [hpc] at hp
    cases hp
  · rw [h.log]
    exact .init (Int.le_refl 0)
  · simp [reserved, h.running, h.header]
  · rw [LogHeader.logged_eq_nil h.header]
    exact nodup_nil
  · simp [h.log, Log.init]
  · simp [h.running]
  · simp [h.log, Log.init, h.running]
  · simp [h.running]

theorem Inv.entering (h : s.Inv) (he : s.Entering a p c pd) :
    c ∉ s.running ∧ (∀ q, q ≠ p → (s.pcs q).begins ≠ some c) ∧ (s.pcs p).isCkpt = false ∧
      PcInv (update s.pcs p (.beginWait c)) s.running pd s.log.checkpointing := by
  rcases he with ⟨-, hpc, hr, hn, rfl⟩ | ⟨-, hpc, rfl⟩
  · have hck : (s.pcs p).isCkpt = false := by rw [pcs, hpc]; rfl
    have hb : (s.pcs p).begins = none := by rw [pcs, hpc]; rfl
    exact ⟨hr, fun q _ hq => hn (h.places.entering q c hq).1, hck,
      h.places.enter (Or.inl ⟨hb, hr, hn, rfl⟩) hck⟩
  · have hck : (s.pcs p).isCkpt = false := by rw [pcs, hpc]; rfl
    have hb : (s.pcs p).begins = some c := by rw [pcs, hpc]; rfl
    exact ⟨(h.places.entering p c hb).2, fun q hq hqb => hq (h.places.unique q p c hqb hb), hck,
      h.places.enter (Or.inr ⟨hb, rfl⟩) hck⟩

theorem Inv.move (hpcs : s'.pcs = update s.pcs p npc)
    (hplaces : PcInv (update s.pcs p npc) s'.running s'.pending s'.log.checkpointing)
    (hsem : s'.log.opSem.WF)
    (hacct : Acct s'.header s'.log.runningOps s'.log.checkpointing s'.ctxs s'.running s'.added)
    (hp : npc.isCleared = true → s'.header.numBlocks = 0)
    (hother : ∀ q, (s.pcs q).isCleared = true → s'.header.numBlocks = 0) : s'.Inv := by
  refine ⟨by rwa [hpcs], hsem, hacct, fun q hq => ?_⟩
  rw [hpcs] at hq
  obtain rfl | hqp := eq_or_ne q p
  · rw [update_self] at hq
    exact hp hq
  · rw [update_of_ne hqp] at hq
    exact hother q hq

theorem Inv.not_cleared (h : s.Inv) (hc : c ∈ s.running) (q : Nat) :
    (s.pcs q).isCleared ≠ true := by
  intro hq
  have hck := h.places.ckpt q (LogPc.isCkpt_of_isCleared hq)
  rw [h.acct.not_ck hc] at hck
  cases hck

theorem pcs_foldl_grant (s : LogState) (p : Nat) (pc : LogPc) (ws : List Nat) :
    (fun q => (ws.foldl grant (s.goto p pc).procs q).pc) = update s.pcs p pc := by
  funext q
  rw [foldl_grant_pc, ← pcs_goto]
  rfl

theorem Inv.step (h : s.Inv) (hstep : LogState.step sb s a = .ok s') : s'.Inv := by
  have begins_idle : ∀ {p}, (s.procs p).pc = .idle → (s.pcs p).begins = none := by
    intro p hpc
    rw [pcs, hpc]
    rfl
  -- a step of `do_checkpoint` that keeps the header
  have inCkpt : ∀ {p e ph ph'}, (s.procs p).pc = .ckpt e ph →
      PcInv (update s.pcs p (.ckpt e ph')) s.running s.pending s.log.checkpointing :=
    fun hpc => h.places.stay (by rw [pcs, hpc]; rfl) (by rw [pcs, hpc]; rfl)
  -- a step of an idle process that keeps the header
  have inIdle : ∀ {p}, (s.procs p).pc = .idle →
      PcInv (update s.pcs p .idle) s.running s.pending s.log.checkpointing :=
    fun hpc => h.places.stay (by rw [pcs, hpc]) (by rw [pcs, hpc])
  cases LogStep.of_step hstep with
  | block he hw =>
    exact .move (pcs_goto s _ _) (h.entering he).2.2.2 h.sem h.acct Bool.noConfusion h.cleared
  | @begun _ p c pd he hw =>
    obtain ⟨hck, hroom⟩ := Log.mustWait_eq_false hw
    obtain ⟨hr, hother, hp, hplaces⟩ := h.entering he
    have hplaces' := hplaces.begun (p := p) (c := c)
      (fun q hq => by rw [update_of_ne hq]; exact hother q hq)
      (by rw [update_self]; rfl)
    rw [update_idem] at hplaces'
    have hacct := h.acct
    rw [hck] at hacct
    refine .move (pcs_goto s _ _) hplaces' h.sem ?_ Bool.noConfusion h.cleared
    simp only [Log.beginOp, hck]
    exact hacct.begun hr hroom
  | @take p c sem hpc hw =>
    refine .move (pcs_goto s _ _) (h.places.stay ?_ ?_) ?_ h.acct Bool.noConfusion h.cleared
    · rw [pcs, hpc]
      rfl
    · rw [pcs, hpc]
      rfl
    · have := h.sem.waitSem p
      rwa [hw] at this
  | @sleep p c sem hpc hw =>
    refine .move (pcs_update s p _ _ _) (h.places.stay ?_ ?_) ?_ h.acct Bool.noConfusion h.cleared
    · rw [pcs, hpc]
      rfl
    · rw [pcs, hpc]
      rfl
    · have := h.sem.waitSem p
      rwa [hw] at this
  | wake hpc hawake hup hw =>
    rw [Semaphore.wakeSem, if_pos rfl, Option.some.injEq] at hw
    refine .move (pcs_goto s _ _) (h.places.stay ?_ ?_) (hw ▸ h.sem) h.acct Bool.noConfusion
      h.cleared
    · rw [pcs, hpc]
      rfl
    · rw [pcs, hpc]
      rfl
  | acquire hpc hb =>
    exact .move (pcs_goto s _ _) (inIdle hpc) h.sem h.acct Bool.noConfusion h.cleared
  | modify hpc hc hb =>
    exact .move (pcs_goto s _ _) (inIdle hpc) h.sem h.acct Bool.noConfusion h.cleared
  | sync hpc hc hb hs =>
    exact .move (pcs_goto s _ _) (inIdle hpc) h.sem (h.acct.sync hc hs) Bool.noConfusion
      fun q hq => absurd hq (h.not_cleared hc q)
  | release hpc hb =>
    exact .move (pcs_goto s _ _) (inIdle hpc) h.sem h.acct Bool.noConfusion h.cleared
  | endLast hpc hc hck hlast =>
    have hplaces := h.places
    have hacct := h.acct
    rw [hck] at hplaces hacct
    exact .move (pcs_goto s _ _) ((hplaces.erase _).startCkpt (begins_idle hpc) _ _) h.sem
      (hacct.endOp hc ⟨fun _ => hlast, fun _ => rfl⟩) Bool.noConfusion h.cleared
  | endOther hpc hc hck hlast hw =>
    have hacct := h.acct
    rw [hck] at hacct
    refine .move (pcs_foldl_grant s _ _ _) ((inIdle hpc).erase _) ?_ ?_ Bool.noConfusion h.cleared
    · exact Semaphore.WF.postSem (s := s.log.opSem) h.sem hw
    · simp only [hck]
      exact hacct.endOp hc ⟨Bool.noConfusion, fun h0 => absurd h0 hlast⟩
  | slot hpc =>
    exact .move (pcs_goto s _ _) (inCkpt hpc) h.sem h.acct Bool.noConfusion h.cleared
  | slotsDone hpc =>
    exact .move (pcs_goto s _ _) (inCkpt hpc) h.sem h.acct Bool.noConfusion h.cleared
  | header hpc =>
    exact .move (pcs_goto s _ _) (inCkpt hpc) h.sem h.acct Bool.noConfusion h.cleared
  | home hpc =>
    exact .move (pcs_goto s _ _) (inCkpt hpc) h.sem h.acct Bool.noConfusion h.cleared
  | @homesDone p i e hpc =>
    have hck := h.places.ckpt p (by rw [pcs, hpc]; rfl)
    have hacct := h.acct
    rw [hck] at hacct
    refine .move (pcs_goto s _ _) (inCkpt hpc) h.sem ?_ (fun _ => rfl) (fun _ _ => rfl)
    simp only [goto, hck]
    exact hacct.clear
  | @clear p e hpc =>
    have h0 := h.cleared p (by rw [pcs, hpc]; rfl)
    exact .move (pcs_goto s _ _) (inCkpt hpc) h.sem h.acct (fun _ => h0) h.cleared
  | @finish p e sem ret woken hpc hw =>
    have h0 := h.cleared p (by rw [pcs, hpc]; rfl)
    refine .move (pcs_foldl_grant s _ _ _)
      (h.places.endCkpt (by rw [pcs, hpc]; rfl) (by rw [pcs, hpc]; rfl)) ?_
      (h.acct.finish h0) Bool.noConfusion h.cleared
    rw [Semaphore.postAllSem_eq h.sem, Option.some.injEq, Prod.mk.injEq] at hw
    exact hw.1 ▸ Semaphore.WF.postAllSem

theorem inv_of_reach {ok : LogState → LogAct → Prop} (h : ReachWhen sb ok s) : s.Inv :=
  Runs.Reach.invariant (fun _ hs => Inv.of_init hs) (fun _ _ _ hI _ hs => hI.step hs) h

theorem Inv.endOp_ne_panic (h : s.Inv) (hc : c ∈ s.running) : s.endOp p c ≠ .error .panic := by
  have hck := h.acct.not_ck hc
  unfold endOp
  simp only [hck, Bool.false_eq_true, if_false]
  split
  · exact fun he => nomatch he
  · rcases Semaphore.postSem_cases h.sem with ⟨-, -, he⟩ | ⟨_, _, -, -, he⟩
    · simp only [he]
      exact fun he => nomatch he
    · simp only [he]
      exact fun he => nomatch he

theorem Inv.syncLog_none (h : s.Inv) (hc : c ∈ s.running)
    (hs : syncLog s.header (s.ctxs c) b = none) : b ∉ s.header.logged ∧ (s.ctxs c).rm = 0 := by
  obtain ⟨hb, hrm | hfull⟩ := syncLog_eq_none hs
  · exact ⟨hb, hrm⟩
  · have hres := reserved_erase s.ctxs hc
    have hfits := h.acct.fits
    exact ⟨hb, by omega⟩

theorem step_endOp_panic (hp : step sb s (.endOp p c) = .error .panic) :
    c ∈ s.running ∧ endOp { s with returned := none } p c = .error .panic := by
  unfold step at hp
  split at hp
  · simp only [stepAwake] at hp
    split at hp
    · split at hp
      next hc => exact ⟨hc, hp⟩
      next => cases hp
    · cases hp
  · cases hp

theorem step_sync_panic (hp : step sb s (.sync p c b) = .error .panic) :
    c ∈ s.running ∧ syncLog s.header (s.ctxs c) b = none := by
  unfold step at hp
  split at hp
  · simp only [stepAwake] at hp
    split at hp
    · split at hp
      next hc =>
        split at hp
        next hs => exact ⟨hc.1, hs⟩
        next => cases hp
      next => cases hp
    · cases hp
  · cases hp

/-- The log reservation invariant.  In every state of every run the blocks in
the header and the reservations of the running contexts fit the header, the
header has no block twice, no operation runs during a checkpoint, and
`running_ops` counts the contexts begun and not ended.  So a context with
something left never meets a full header, `cache_end_op` never panics, and
`cache_sync` panics only on a new block for a context that has added
`OP_MAX_NUM_BLOCKS`. -/
theorem log_reservation (sb : SuperBlock) (s : LogState) (h : Reachable sb s) :
    s.header.numBlocks + (s.running.map fun c => (s.ctxs c).rm).sum ≤ LOG_MAX_SIZE ∧
    s.header.logged.Nodup ∧
    (s.log.checkpointing = true → s.log.runningOps = 0) ∧
    (s.running.Nodup ∧ s.log.runningOps = s.running.length) ∧
    (∀ c ∈ s.running, 0 < (s.ctxs c).rm → s.header.numBlocks < LOG_MAX_SIZE) ∧
    (∀ p c, step sb s (.endOp p c) ≠ .error .panic) ∧
    (∀ p c b, step sb s (.sync p c b) = .error .panic →
      b ∉ s.header.logged ∧ s.added c = OP_MAX_NUM_BLOCKS) := by
  have hinv := inv_of_reach h
  refine ⟨hinv.acct.fits, hinv.acct.distinct, hinv.acct.exclusive,
    ⟨hinv.acct.nodup, hinv.acct.count⟩, fun c hc hrm => ?_, fun p c hp => ?_, fun p c b hp => ?_⟩
  · have hres := reserved_erase s.ctxs hc
    have hfits := hinv.acct.fits
    omega
  · obtain ⟨hc, hp⟩ := step_endOp_panic hp
    have hinv' : Inv { s with returned := none } := ⟨hinv.places, hinv.sem, hinv.acct, hinv.cleared⟩
    exact hinv'.endOp_ne_panic hc hp
  · obtain ⟨hc, hs⟩ := step_sync_panic hp
    obtain ⟨hb, hrm⟩ := hinv.syncLog_none hc hs
    have hbud := hinv.acct.budget c hc
    exact ⟨hb, by omega⟩

/-- Two operations run, and one of them has logged a block twice. -/
theorem log_reservation_two_ops :
    ∃ s, Reachable Mkfs.superBlock s ∧ s.running = [1, 0] ∧ s.header.logged = [100] ∧
      s.header.numBlocks + (s.running.map fun c => (s.ctxs c).rm).sum ≤ LOG_MAX_SIZE := by
  obtain ⟨s, hs, hw⟩ := Runs.Reach.of_execTest boot_mkfs
    (show Runs.execTest (step Mkfs.superBlock) (boot fun _ => Bytes.zero)
      [.beginOp 0 0, .beginOp 1 1, .acquire 0 100, .sync 0 0 100, .sync 0 0 100]
      (fun s => s.running = [1, 0] ∧ s.header.logged = [100]) = true by decide +kernel)
  obtain ⟨hr, hl⟩ := of_decide_eq_true hw
  exact ⟨s, hs, hr, hl, (log_reservation _ s hs).1⟩

/-! ## The log copies and the log area -/

/-- `cache_sync` adds no block to a header with `num_log_blocks - 1` entries. -/
def RoomLeft (sb : SuperBlock) (s : LogState) (a : LogAct) : Prop :=
  ∀ p c b, a = .sync p c b → b ∉ s.header.logged → s.header.numBlocks + 1 < sb.numLogBlocks

structure Confined (sb : SuperBlock) (s : LogState) : Prop where
  room : s.header.numBlocks = 0 ∨ s.header.numBlocks < sb.numLogBlocks
  inside : ∀ b ∈ s.slotWrites, sb.logStart ≤ b ∧ b < sb.logStart + sb.numLogBlocks

theorem Confined.step (h : Confined sb s)
    (hok : RoomLeft sb s a) (hstep : LogState.step sb s a = .ok s') : Confined sb s' := by
  cases LogStep.of_step hstep with
  | @sync p c b hd ctx hpc hc hb hs =>
    rcases syncLog_eq_some hs with ⟨-, rfl, -⟩ | ⟨hnew, -, -, rfl, -⟩
    · exact ⟨h.room, h.inside⟩
    · exact ⟨Or.inr (hok p c b rfl hnew), h.inside⟩
  | slot hpc hidx =>
    refine ⟨h.room, fun b hb => ?_⟩
    rcases mem_append.mp hb with hb | hb
    · exact h.inside b hb
    · have := h.room
      rw [mem_singleton] at hb
      omega
  | homesDone => exact ⟨Or.inl rfl, h.inside⟩
  | _ => exact ⟨h.room, h.inside⟩

/-- Log confinement.  In every run in which no `cache_sync` adds a block to a
header that already has `num_log_blocks - 1` entries, every log copy goes to the
log area, and so to no inode block. -/
theorem log_confined (sb : SuperBlock) (s : LogState) (h : ReachWhen sb (RoomLeft sb) s) :
    ∀ b ∈ s.slotWrites, sb.logStart ≤ b ∧ b < sb.logStart + sb.numLogBlocks ∧
      (sb.inodeStart = sb.logStart + sb.numLogBlocks → b < sb.inodeStart) := by
  have hconf : Confined sb s := Runs.Reach.invariant
      (fun s hs => ⟨Or.inl hs.header, fun b hb => by rw [hs.slotWrites] at hb; cases hb⟩)
      (fun _ _ _ hI hok hs => hI.step hok hs) h
  intro b hb
  obtain ⟨hlo, hhi⟩ := hconf.inside b hb
  exact ⟨hlo, hhi, fun hin => hin ▸ hhi⟩

/-- The calls that log the blocks `first .. first + n - 1` under context `c`. -/
def logBlocks (p c first n : Nat) : List LogAct :=
  (List.range n).flatMap fun i =>
    [.acquire p (first + i), .sync p c (first + i), .release p (first + i)]

def oneOp (p c first n : Nat) : List LogAct :=
  .beginOp p c :: logBlocks p c first n ++ [.endOp p c]

/-- Process 0 keeps an operation open while process 1 fills the header with the
blocks of six operations; process 0 then adds its own ten and ends. -/
def fillLog : List LogAct :=
  .beginOp 0 0 :: oneOp 1 1 100 10 ++ oneOp 1 2 110 10 ++ oneOp 1 3 120 10 ++
    oneOp 1 4 130 10 ++ oneOp 1 5 140 3 ++ oneOp 1 6 150 10 ++ logBlocks 0 0 160 10 ++
    [.endOp 0 0] ++ List.replicate 63 (.ckpt 0)

/-- A test for `RoomLeft`. -/
def roomLeft (sb : SuperBlock) (s : LogState) : LogAct → Bool
  | .sync _ _ b => decide (b ∈ s.header.logged) || decide (s.header.numBlocks + 1 < sb.numLogBlocks)
  | _ => true

theorem RoomLeft.of_test (h : roomLeft sb s a = true) : RoomLeft sb s a := by
  rintro p c b rfl hb
  rw [roomLeft, Bool.or_eq_true, decide_eq_true_eq, decide_eq_true_eq] at h
  exact h.resolve_left hb

/-- An operation that logs ten blocks is checkpointed within the area. -/
theorem log_confined_one_op :
    ∃ s, ReachWhen Mkfs.superBlock (RoomLeft Mkfs.superBlock) s ∧ s.slotWrites.length = 10 ∧
      ∀ b ∈ s.slotWrites, b < Mkfs.superBlock.inodeStart := by
  obtain ⟨s, hs, hw⟩ := Runs.Reach.of_execTest boot_mkfs
    (show Runs.execTest (Runs.guarded (step Mkfs.superBlock) (roomLeft Mkfs.superBlock) .disabled)
      (boot fun _ => Bytes.zero) (oneOp 0 0 100 10 ++ List.replicate 10 (.ckpt 0))
      (fun s => s.slotWrites.length = 10) = true by decide +kernel)
  have hreach : ReachWhen Mkfs.superBlock (RoomLeft Mkfs.superBlock) s :=
    Runs.Reach.of_guarded (fun _ _ => trivial) (fun _ _ _ => RoomLeft.of_test) hs
  exact ⟨s, hreach, of_decide_eq_true hw, fun b hb => (log_confined _ s hreach b hb).2.2 (by decide)⟩

/-- On the layout of `mkfs` a checkpoint of a full header writes its last log
copy to the first inode block. -/
theorem log_confined_mkfs_fails :
    ∃ s, Reachable Mkfs.superBlock s ∧ Mkfs.superBlock.inodeStart ∈ s.slotWrites ∧
      Mkfs.superBlock.inodeStart =
        Mkfs.superBlock.logStart + Mkfs.superBlock.numLogBlocks := by
  obtain ⟨s, hs, hw⟩ := Runs.Reach.of_execTest boot_mkfs
    (show Runs.execTest (step Mkfs.superBlock) (boot fun _ => Bytes.zero) fillLog
      (fun s => Mkfs.superBlock.inodeStart ∈ s.slotWrites) = true by decide +kernel)
  exact ⟨s, hs, of_decide_eq_true hw, by decide⟩

end LogState

end OsKernel
