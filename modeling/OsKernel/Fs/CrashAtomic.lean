import OsKernel.Fs.CacheRuns

/-!
# Crash atomicity of a group of operations

The operations that run together are checkpointed together, by the last
`cache_end_op` of the group.  The machine may stop at any device write of that
checkpoint, and again at any device write of a later `init_bcache`.  The writes
are those of a redo log (`doCheckpoint_spec`, `initBcache_spec`), so that the next
complete `init_bcache` finds the group done or not done.

The operations may belong to several processes, and a process may call
`cache_acquire` for a block that another one holds.  It then has looked up the
`Block` and waits for its lock.  When the holder releases the `Block`, it may be
evicted before the waiter has returned, and what the waiter writes is lost.
-/

namespace OsKernel

open Prog Cache List LogHeader
open RedoLog (apply)

variable {d : Nat → Data}

namespace Client

/-- The devices that a crash may leave: the last `cache_end_op` of the group is cut
short, and so are any number of runs of `init_bcache` after it, each started with
any memory `m`. -/
inductive Crashed (sb : SuperBlock) (st : Client) : (Nat → Data) → Prop where
  | endOp {r : Except Halt Unit} {s : Cache} {ws p : List (Nat × Data)} :
      (cacheEndOp sb).exec st.cache = (r, s) → s.writes = st.cache.writes ++ ws → p <+: ws →
      Crashed sb st (apply st.cache.disk p)
  | initBcache {m m' : Cache} {r : Except Halt Unit} {ws p : List (Nat × Data)} :
      Crashed sb st m.disk → (initBcache sb).exec m = (r, m') → m'.writes = m.writes ++ ws →
      p <+: ws → Crashed sb st (apply m.disk p)

/-- The calls of a group of operations: every `cache_sync` has a context, and the
blocks that the checkpoint logs lie outside its header block and slots. -/
def GroupCall (sb : SuperBlock) (st : Client) (call : Call) : Prop :=
  (∀ b, call ≠ .sync none b) ∧ LastOutside sb st call

/-- Until its checkpoint a group leaves the device alone, with an empty log. -/
structure Grouped (sb : SuperBlock) (st : Client) : Prop where
  empty : (LogHeader.ofData (st.cache.disk sb.logStart)).numBlocks = 0
  disk : st.running ≠ [] → st.cache.disk = st.groupDisk

section

variable {sb : SuperBlock} {st : Client}

theorem Grouped.of_init (h : Init sb st) : Grouped sb st := by
  obtain ⟨d, s, h0, hexec, rfl⟩ := h
  rw [exec_initBcache_empty (s := powerOn d) h0] at hexec
  cases hexec
  exact ⟨h0, fun h => absurd rfl h⟩

theorem Grouped.endLast {c : Nat} {s : Cache} (h : st.Inv) (hc : c ∈ st.running)
    (hlast : st.cache.log.runningOps = 1) (hck : Checkpointed sb (lastEnded st.cache) s) :
    Grouped sb { st with cache := s, running := st.running.erase c, returned := none } := by
  constructor
  · have hdr : s.disk sb.logStart = st.cache.header.clear.toData := by
      rw [hck.disk]
      exact RedoLog.Layout.apply_commitWrites_hdr (L := logLayout sb) _ _ _ _ _
    rw [hdr]
    exact numBlocks_ofData_clear _
  · intro hne
    refine absurd (length_eq_zero_iff.mp ?_) hne
    rw [length_erase_of_mem hc, ← h.count, hlast]

theorem Grouped.step (hg : Grouped sb st) (h : st.Inv) {call : Call} {st' : Client}
    (hs : ClientStep sb st call st') (hok : GroupCall sb st call) : Grouped sb st' := by
  cases hs with
  | acquire hb _ hexec =>
    obtain ⟨a, s, he, hacq⟩ := cacheAcquire_free h.wf (h.free_of_holds hb)
    cases hexec.symm.trans he
    have hdisk := hacq.rest.disk
    constructor <;> dsimp only <;> rw [hdisk]
    · exact hg.empty
    · exact hg.disk
  | modify => exact ⟨hg.empty, hg.disk⟩
  | syncCtx _ _ hexec =>
    obtain ⟨hd, ctx, -, rfl⟩ := cacheSync_some hexec
    exact ⟨hg.empty, hg.disk⟩
  | syncNull => exact absurd rfl (hok.1 _)
  | release hb _ hexec =>
    cases hexec.symm.trans (exec_cacheRelease h.wf (h.held_of_holds hb))
    exact ⟨hg.empty, hg.disk⟩
  | beginOp _ hexec =>
    obtain ⟨-, rfl⟩ := cacheBeginOp_ok hexec
    refine ⟨hg.empty, fun _ => ?_⟩
    split
    next => rfl
    next hne => exact hg.disk hne
  | endOp hc hexec =>
    rcases h.endOp_cases hc (hok.2 _ rfl) hexec with ⟨sem, -, -, rfl⟩ | ⟨hlast, hck⟩
    · exact ⟨hg.empty, fun _ => hg.disk (ne_nil_of_mem hc)⟩
    · exact .endLast h hc hlast hck

/-! ## The writes of the code and those of a redo log -/

theorem Crashed.device (hd : Crashed sb st d) {r : Except Halt Unit} {s : Cache}
    {ws : List (Nat × Data)} (hexec : (cacheEndOp sb).exec st.cache = (r, s))
    (hws : s.writes = st.cache.writes ++ ws) : DeviceCrash sb st.cache.disk ws d := by
  induction hd with
  | endOp he hw hp =>
    cases he.symm.trans hexec
    rw [hws] at hw
    exact .writes (append_cancel_left hw ▸ hp)
  | initBcache _ he hw hp ih => exact .initBcache ih he hw hp

/-- What a crashed group and a complete `init_bcache` leave. -/
structure Recovered (sb : SuperBlock) (st : Client) (d : Nat → Data) : Prop where
  homes : (∀ b ∈ st.cache.header.logged, d b = st.groupDisk b) ∨
    (∀ b ∈ st.cache.header.logged, d b = st.synced b)
  rest : ∀ b, ¬ (logLayout sb).Area st.cache.header.numBlocks b →
    b ∉ st.cache.header.logged → d b = st.groupDisk b
  empty : (LogHeader.ofData (d sb.logStart)).numBlocks = 0

theorem numBlocks_of_homes {d : Data} (h : (logLayout sb).homes d = []) :
    (LogHeader.ofData d).numBlocks = 0 := by
  rw [← length_logged, ← logLayout_homes sb, h]
  rfl

theorem Recovered.of_before (hdisk : st.cache.disk = st.groupDisk)
    (hout : ∀ b ∈ st.cache.header.logged, ¬ (logLayout sb).Area st.cache.header.numBlocks b)
    (hd : (logLayout sb).Before st.cache.disk st.cache.header.logged d) : Recovered sb st d := by
  obtain ⟨hempty, hsame⟩ := hd
  rw [length_logged, hdisk] at hsame
  exact ⟨Or.inl fun b hb => hsame b (hout b hb), fun b hb _ => hsame b hb, numBlocks_of_homes hempty⟩

theorem Recovered.of_after (hdisk : st.cache.disk = st.groupDisk)
    (hnew : ∀ b ∈ st.cache.header.logged, st.cache.contents b = st.synced b)
    (hd : (logLayout sb).After st.cache.disk st.cache.header.logged st.cache.contents d) :
    Recovered sb st d := by
  obtain ⟨hempty, hhomes, hsame⟩ := hd
  rw [length_logged, hdisk] at hsame
  exact ⟨Or.inr fun b hb => (hhomes b hb).trans (hnew b hb), hsame, numBlocks_of_homes hempty⟩

theorem Inv.logged_of_cacheFree (h : st.Inv) {b : Nat} (hb : b ∈ st.cache.header.logged)
    (hfree : st.cache.Free b) : st.cache.contents b = st.synced b := by
  refine h.logged_of_free ?_ hb
  cases hholds : st.holds b with
  | none => rfl
  | some a => exact absurd (h.blockNo_of_holds hholds) (hfree a (h.held_of_holds hholds))

end

end Client

/-! ## Processes that wait for a block -/

/-- The callers of the cache and those that wait: `waiting` has the address of the `Block` for each
process that has looked it up in `cache_acquire` and does not own its lock yet, whether it sleeps
in `wait_sem` or has not got there. -/
structure Shared where
  client : Client
  waiting : List Nat

inductive SharedCall where
  | call (call : Call)
  /-- `cache_acquire` up to the lock of a cached `Block` that somebody owns. -/
  | lookup (b : Nat)
  /-- A process that waits gets the lock of the `Block` at `a`, and its `cache_acquire` returns. -/
  | take (a : Nat)

namespace Shared

open Client

def lookup (st : Shared) (b : Nat) : Except Runs.Stop Shared :=
  match st.client.cache.findCachedBlock b with
  | none => .error .disabled
  | some a =>
    if 0 < (st.client.cache.heap a).lock.val then .error .disabled
    else .ok {
      client := { st.client with
        cache := { st.client.cache with toBlockList := st.client.cache.toBlockList.hit a } }
      waiting := a :: st.waiting }

def take (st : Shared) (a : Nat) : Except Runs.Stop Shared :=
  if a ∈ st.waiting then
    match (acquireSleeplock a).exec st.client.cache with
    | (.ok (), s) => .ok {
        client := { st.client with
          cache := s
          holds := Function.update st.client.holds (s.heap a).blockNo (some a)
          returned := some ((s.heap a).blockNo, (s.heap a).data) }
        waiting := st.waiting.erase a }
    | (.error _, _) => .error .disabled
  else .error .disabled

def step (sb : SuperBlock) (st : Shared) : SharedCall → Except Runs.Stop Shared
  | .call call => (Client.step sb st.client call).map fun c => { st with client := c }
  | .lookup b => st.lookup b
  | .take a => st.take a

def GroupCall (sb : SuperBlock) (st : Shared) : SharedCall → Prop
  | .call call => Client.GroupCall sb st.client call
  | _ => True

/-- No process waits for the `Block` that is released. -/
def Unshared (st : Shared) : SharedCall → Prop
  | .call (.release b) => ∀ a, st.client.holds b = some a → a ∉ st.waiting
  | _ => True

def Init (sb : SuperBlock) (st : Shared) : Prop := Client.Init sb st.client ∧ st.waiting = []

/-- Every process that waits does so for a `Block` that somebody holds. -/
structure Inv (sb : SuperBlock) (st : Shared) : Prop where
  client : st.client.Inv
  grouped : Grouped sb st.client
  waiting : ∀ a ∈ st.waiting, ∃ b, st.client.holds b = some a

variable {sb : SuperBlock} {st st' : Shared} {a b : Nat}

theorem hit_of_acquired {l : BlockList} (h : (l.heap a).acquired = true) :
    l.hit a = { l with head := a :: l.head.erase a } := by
  have heap : Function.update l.heap a { l.heap a with acquired := true } = l.heap := by
    rw [← h, Function.update_eq_self]
  rw [BlockList.hit, BlockList.update]
  dsimp only
  rw [heap]

/-- A look-up of a held `Block` only moves it to the front of the list. -/
theorem Inv.hit (h : Inv sb st) (ha : st.client.cache.Held a) :
    Inv sb { st with client := { st.client with
      cache := { st.client.cache with toBlockList := st.client.cache.toBlockList.hit a } } } := by
  have hp : (a :: st.client.cache.head.erase a).Perm st.client.cache.head :=
    (perm_cons_erase ha.1).symm
  have hwf := BlockList.WF.perm h.client.wf hp
  rw [hit_of_acquired ha.2]
  refine ⟨⟨hwf, h.client.nodup, h.client.small, h.client.room, h.client.sem, h.client.idle,
    h.client.count, fun b' a' => ?_, h.client.held, h.client.dirty, fun b' hb' => ?_⟩,
    ⟨h.grouped.empty, h.grouped.disk⟩, h.waiting⟩
  · rw [h.client.holds]
    exact and_congr_left' (and_congr_left' hp.mem_iff.symm)
  · refine (h.client.logged b' hb').imp id fun hc => Eq.trans ?_ hc
    -- a logged block is cached, at one address
    obtain ⟨a', ha', rfl⟩ := BlockList.WF.cached h.client.wf b' hb'
    exact (contents_of_mem (s := { st.client.cache with head := _ }) hwf (hp.mem_iff.mpr ha')).trans
      (contents_of_mem h.client.wf ha').symm

theorem Inv.call (h : Inv sb st) {call : Call} {c : Client} (hs : ClientStep sb st.client call c)
    (hok : Client.GroupCall sb st.client call) (hrel : st.Unshared (.call call)) :
    Inv sb { st with client := c } := by
  refine ⟨h.client.step hs hok.2, h.grouped.step h.client hs hok, fun a ha => ?_⟩
  obtain ⟨b, hb⟩ := h.waiting a ha
  cases hs with
  | @acquire b' a' s hfree =>
    refine ⟨b, ?_⟩
    have hne : b ≠ b' := by
      rintro rfl
      rw [hfree] at hb
      cases hb
    exact (Function.update_of_ne hne _ _).trans hb
  | @release b' a' s hb' =>
    refine ⟨b, ?_⟩
    have hne : b ≠ b' := by
      rintro rfl
      exact hrel a hb ha
    exact (Function.update_of_ne hne _ _).trans hb
  | modify => exact ⟨b, hb⟩
  | syncCtx => exact ⟨b, hb⟩
  | syncNull => exact ⟨b, hb⟩
  | beginOp => exact ⟨b, hb⟩
  | endOp => exact ⟨b, hb⟩

theorem Inv.step (h : Inv sb st) {call : SharedCall} (hok : st.GroupCall sb call)
    (hrel : st.Unshared call) (hs : step sb st call = .ok st') : Inv sb st' := by
  cases call with
  | call call =>
    rw [Shared.step] at hs
    cases hc : Client.step sb st.client call with
    | error e =>
      rw [hc] at hs
      cases hs
    | ok c =>
      rw [hc] at hs
      cases hs
      exact h.call (.of_step hc) hok hrel
  | lookup b =>
    rw [Shared.step, lookup] at hs
    split at hs
    next => cases hs
    next a hf =>
      obtain ⟨hlock, hs⟩ := Runs.not_guard_ok hs
      cases hs
      obtain ⟨ha, -⟩ := BlockList.mem_of_find hf
      have hacq : (st.client.cache.heap a).acquired = true := by
        by_contra hn
        rw [BlockList.WF.lock h.client.wf a ha, if_neg hn] at hlock
        exact hlock Int.one_pos
      have hinv := h.hit ⟨ha, hacq⟩
      refine ⟨hinv.client, hinv.grouped, fun a' ha' => ?_⟩
      rcases mem_cons.mp ha' with rfl | ha'
      · exact ⟨_, (h.client.holds _ _).mpr ⟨⟨ha, hacq⟩, rfl⟩⟩
      · exact h.waiting a' ha'
  | take a =>
    -- whom a process waits for does not release the lock
    obtain ⟨ha, hs⟩ := Runs.guard_ok hs
    obtain ⟨b, hb⟩ := h.waiting a ha
    obtain ⟨hmem, hacq⟩ := h.client.held_of_holds hb
    have hlock := BlockList.WF.lock h.client.wf a hmem
    rw [if_pos hacq] at hlock
    rw [exec_acquireSleeplock_taken hlock] at hs
    cases hs

theorem Inv.of_reach
    (h : Runs.Reach (Shared.step sb) (fun st call => st.GroupCall sb call ∧ st.Unshared call)
      (Init sb) st) : Inv sb st := by
  refine h.invariant (fun s hs => ?_) fun s call s' hinv hok hs => hinv.step hok.1 hok.2 hs
  obtain ⟨hinit, hw⟩ := hs
  refine ⟨.of_init hinit, .of_init hinit, fun a ha => ?_⟩
  rw [hw] at ha
  cases ha

/-- Crash atomicity of the block cache.  Let no `Block` be released while another
process waits for it, and let the last operation of a group be about to end.
Whatever the crashes of its checkpoint and of the runs of `init_bcache` after it leave
on the device, a complete `init_bcache` returns, the logged blocks are all as they
were before the group or all as they were last synced, every other block outside the
header and the slots used is as before the group, and the log is empty. -/
theorem group_crash_atomic {sb : SuperBlock} {st : Shared} {c : Nat} {m : Cache}
    (h : Runs.Reach (step sb) (fun st call => st.GroupCall sb call ∧ st.Unshared call) (Init sb) st)
    (hc : c ∈ st.client.running) (hlast : st.client.cache.log.runningOps = 1)
    (hok : st.GroupCall sb (.call (.endOp c))) (hd : Crashed sb st.client m.disk) :
    ∃ m', (initBcache sb).exec m = (.ok (), m') ∧ Recovered sb st.client m'.disk := by
  obtain ⟨hinv, hg, -⟩ := Inv.of_reach h
  have hout := hok.2 c rfl hlast
  have hout' : ∀ b ∈ st.client.cache.header.logged,
      ¬ (logLayout sb).Area st.client.cache.header.logged.length b := by
    rw [length_logged]
    exact hout
  have hdisk := hg.disk (ne_nil_of_mem hc)
  have h0log := logged_eq_nil hg.empty
  have hend := exec_cacheEndOp_last sb hinv.idle (by rw [hlast])
  rcases doCheckpoint_spec (hinv.ready hout) hinv.sem with ⟨s, he, hck⟩ | ⟨s, e, he, ws, hws, hiss⟩
  · -- the checkpoint runs to its end unless the crash cuts it short
    have hh := logged_ofData_toData _ hinv.room hinv.small
    have hh0 : (logLayout sb).homes st.client.cache.header.clear.toData = [] :=
      logged_eq_nil (numBlocks_ofData_clear _)
    have hphase := fun d (hd : (logLayout sb).Crashed st.client.cache.disk
        (checkpointWrites sb (lastEnded st.client.cache)) d) => hd.phase_of_commit h0log hout' hh hh0
    have hred := (hd.device (hend.trans he) hck.writes).redo fun d hd =>
      .of_homes hout' (hphase d hd).homes
    obtain ⟨m', hexec, -, hm'⟩ := initBcache_spec sb m (.of_homes hout' (hphase _ hred).homes)
    refine ⟨m', hexec, ?_⟩
    rw [hm']
    rcases RedoLog.Layout.crash_atomic h0log hout' hh hh0 hred with hb | ha
    · exact .of_before hdisk hout hb
    · exact .of_after hdisk (fun b hb => hinv.logged_of_cacheFree hb (hck.free b hb)) ha
  · -- the caller still holds a logged block: the checkpoint never writes its header
    have hbefore := fun d (hd : (logLayout sb).Crashed st.client.cache.disk ws d) =>
      hd.before h0log hws
    have hred := (hd.device (hend.trans he) hiss.writes).redo fun d hd => .of_nil (hbefore d hd).1
    obtain ⟨m', hexec, -, hm'⟩ := initBcache_spec sb m (.of_nil (hbefore _ hred).1)
    refine ⟨m', hexec, ?_⟩
    rw [hm', (hbefore _ hred).recover]
    exact .of_before hdisk hout (hbefore _ hred)

/-- The processes before a device of zeros. -/
def boot : Shared :=
  ⟨Client.boot (rebooted Mkfs.superBlock (powerOn fun _ => Bytes.zero)) fun _ => Bytes.zero, []⟩

theorem boot_init : Init Mkfs.superBlock boot :=
  ⟨Client.boot_init Mkfs.superBlock (fun _ => Bytes.zero) numBlocks_ofData_zero, rfl⟩

/-- A test for the calls of a group before its end. -/
def groupCall : SharedCall → Bool
  | .call (.sync none _) | .call (.endOp _) => false
  | _ => true

theorem GroupCall.of_test {call : SharedCall} (h : groupCall call = true) : st.GroupCall sb call := by
  cases call with
  | call call =>
    constructor
    · rintro b rfl
      cases h
    · rintro c rfl
      cases h
  | lookup b => exact trivial
  | take a => exact trivial

theorem GroupCall.endOp {logged : List Nat} (h : st.client.cache.header.logged = logged)
    (hout : ∀ b ∈ logged, ¬ (logLayout sb).Area logged.length b) :
    st.GroupCall sb (.call (.endOp 0)) := by
  constructor
  · intro b hb
    cases hb
  · intro c _ _
    rw [← length_logged, h]
    exact hout

/-- The device after the first `n` writes of the last `cache_end_op`. -/
def cutShort (st : Shared) (n : Nat) : Cache :=
  powerOn (apply st.client.cache.disk
    (((cacheEndOp Mkfs.superBlock).exec st.client.cache).2.writes.take n))

theorem crashed_cutShort (h : st.client.cache.writes.length = 0) (n : Nat) :
    Crashed Mkfs.superBlock st.client (st.cutShort n).disk := by
  refine .endOp (Prod.eta _).symm ?_ (List.take_prefix n _)
  rw [length_eq_zero_iff.mp h, nil_append]

/-- An operation has filled block 100 while another process waits for block 101; the
machine stops after the header of its checkpoint is written. -/
theorem group_crash_atomic_two_writes :
    ∃ st : Shared, st.waiting = [1] ∧ st.client.cache.header.logged = [100] ∧
      (st.client.synced 100).get 0 = 1 ∧
      ∃ m', (initBcache Mkfs.superBlock).exec (st.cutShort 2) = (.ok (), m') ∧
        Recovered Mkfs.superBlock st.client m'.disk := by
  obtain ⟨st, hs, hw⟩ := Runs.Reach.of_execTest boot_init
    (show Runs.execTest (Runs.guarded (step Mkfs.superBlock) (fun st call => groupCall call &&
        (st.waiting.isEmpty || !(call matches .call (.release _)))) .disabled) boot
      (((fillBlock 0).take 5).map .call ++ [.call (.acquire 101), .lookup 101])
      (fun st => st.waiting = [1] ∧ st.client.cache.header.logged = [100] ∧
        (st.client.synced 100).get 0 = 1 ∧ st.client.running = [0] ∧
        st.client.cache.log.runningOps = 1 ∧ st.client.cache.writes.length = 0) = true by
      decide +kernel)
  obtain ⟨hwait, hlogged, hsync, hrun, hops, hwrites⟩ := of_decide_eq_true hw
  refine ⟨st, hwait, hlogged, hsync, group_crash_atomic (c := 0) (hs.of_guarded (J := fun _ => True)
    (fun _ _ => trivial) fun st call _ hq => ?_) ?_ hops (.endOp hlogged (by decide))
    (crashed_cutShort hwrites 2)⟩
  · obtain ⟨hgroup, hrel⟩ := Bool.and_eq_true_iff.mp hq
    refine ⟨.of_test hgroup, ?_⟩
    match call with
    | .call (.release b) =>
      intro a _ ha
      simp [List.isEmpty_iff.mp (by simpa using hrel)] at ha
    | .call (.acquire _) | .call (.modify _ _) | .call (.sync _ _) | .call (.beginOp _)
    | .call (.endOp _) | .lookup _ | .take _ => exact trivial
  · rw [hrun]
    exact mem_singleton_self 0

/-- Process 1 waits for block 100, which process 0 releases.  Block 101 is filled, and then 19 more
blocks are used, so that the `Block` of block 100 is freed before process 1 takes its lock, fills it
and syncs it. -/
def evictingCalls : List SharedCall :=
  [.call (.beginOp 0), .call (.acquire 100), .lookup 100, .call (.release 100),
    .call (.acquire 101), .call (.modify 101 fun _ => 1), .call (.sync (some 0) 101),
    .call (.release 101)] ++
  (List.range 19).flatMap (fun i => [.call (.acquire (102 + i)), .call (.release (102 + i))]) ++
  [.take 0, .call (.modify 100 fun _ => 1), .call (.sync (some 0) 100), .call (.release 100)]

/-- A waiter's block is lost: after the last `cache_end_op` of this group, not cut short, and
`init_bcache`, block 101 has its new contents and block 100 its old ones. -/
theorem group_torn_by_eviction : ∃ (st : Shared) (m' : Cache),
    Runs.Reach (step Mkfs.superBlock) (GroupCall Mkfs.superBlock) (Init Mkfs.superBlock) st ∧
      0 ∈ st.client.running ∧ st.client.cache.log.runningOps = 1 ∧
      st.GroupCall Mkfs.superBlock (.call (.endOp 0)) ∧
      Crashed Mkfs.superBlock st.client (st.cutShort 6).disk ∧
      (initBcache Mkfs.superBlock).exec (st.cutShort 6) = (.ok (), m') ∧
      ¬ Recovered Mkfs.superBlock st.client m'.disk := by
  obtain ⟨st, hs, hw⟩ := Runs.Reach.of_execTest boot_init
    (show Runs.execTest (Runs.guarded (step Mkfs.superBlock) (fun _ => groupCall) .disabled) boot
      evictingCalls
      (fun st =>
        let m := (initBcache Mkfs.superBlock).exec (st.cutShort 6)
        0 ∈ st.client.running ∧ st.client.cache.log.runningOps = 1 ∧
        st.client.cache.header.logged = [101, 100] ∧ st.client.cache.writes.length = 0 ∧
        m.1 = .ok () ∧ (m.2.disk 101).get 0 ≠ (st.client.groupDisk 101).get 0 ∧
        (m.2.disk 100).get 0 ≠ (st.client.synced 100).get 0) = true by
      decide +kernel)
  obtain ⟨hrun, hops, hlogged, hwrites, hok, hnew, hold⟩ := of_decide_eq_true hw
  refine ⟨st, _, hs.of_guarded (J := fun _ => True) (fun _ _ => trivial) fun _ _ _ => .of_test, hrun,
    hops, .endOp hlogged (by decide), crashed_cutShort hwrites 6, Prod.ext hok rfl, fun hrec => ?_⟩
  have hhomes := hrec.homes
  rw [hlogged] at hhomes
  rcases hhomes with hbefore | hafter
  · exact hnew (by rw [hbefore 101 (.head _)])
  · exact hold (by rw [hafter 100 (.tail _ (.head _))])

end Shared

end OsKernel
