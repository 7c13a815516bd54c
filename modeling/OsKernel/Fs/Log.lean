import OsKernel.Common.Sem
import OsKernel.Fs.Defines

/-!
# The log of the block cache

The logging half of the static variables of `fs/cache.c`, and the stretches of
`cache_begin_op` and `cache_sync` that run under `log.glock`.  They are shared
by the sequential cache and by the systems of concurrent processes.
-/

namespace OsKernel

structure OpContext where
  rm : Nat
  ts : Nat
deriving DecidableEq, Repr

/-- `struct log`, without its lock. -/
structure Log where
  runningOps : Nat
  checkpointing : Bool
  opSem : Semaphore
  nextTs : Nat
deriving DecidableEq, Repr

namespace Log

/-- The log after `init_bcache`. -/
def init : Log where
  runningOps := 0
  checkpointing := false
  opSem := .initSem 0
  nextTs := 1

/-- The condition of the loop in `cache_begin_op`. -/
def mustWait (l : Log) (h : LogHeader) : Bool :=
  l.checkpointing ||
    decide (LOG_MAX_SIZE < h.numBlocks + (l.runningOps + 1) * OP_MAX_NUM_BLOCKS)

/-- The rest of `cache_begin_op`, after its loop. -/
def beginOp (l : Log) : Log × OpContext :=
  ({ l with runningOps := l.runningOps + 1, nextTs := l.nextTs + 1 },
    { rm := OP_MAX_NUM_BLOCKS, ts := l.nextTs })

theorem mustWait_eq_false {l : Log} {h : LogHeader} (hw : l.mustWait h = false) :
    l.checkpointing = false ∧
      h.numBlocks + (l.runningOps + 1) * OP_MAX_NUM_BLOCKS ≤ LOG_MAX_SIZE := by
  rw [mustWait, Bool.or_eq_false_iff, decide_eq_false_iff_not, Nat.not_lt] at hw
  exact hw

theorem mustWait_eq_true {l : Log} {h : LogHeader} (hw : l.mustWait h = true) :
    l.checkpointing = true ∨
      LOG_MAX_SIZE < h.numBlocks + (l.runningOps + 1) * OP_MAX_NUM_BLOCKS := by
  rw [mustWait, Bool.or_eq_true, decide_eq_true_eq] at hw
  exact hw

end Log

/-- What `cache_sync(ctx, block)` with a context does to the header and to the
context under `glock`; `none` is its `PANIC`. -/
def syncLog (h : LogHeader) (ctx : OpContext) (b : Nat) : Option (LogHeader × OpContext) :=
  if b ∈ h.logged then some (h, ctx)
  else if ctx.rm = 0 ∨ LOG_MAX_SIZE ≤ h.numBlocks then none
  else some (h.push b, { ctx with rm := ctx.rm - 1 })

theorem syncLog_eq_some {h h' : LogHeader} {ctx ctx' : OpContext} {b : Nat}
    (hs : syncLog h ctx b = some (h', ctx')) :
    (b ∈ h.logged ∧ h' = h ∧ ctx' = ctx) ∨
    (b ∉ h.logged ∧ 0 < ctx.rm ∧ h.numBlocks < LOG_MAX_SIZE ∧ h' = h.push b ∧
      ctx' = { ctx with rm := ctx.rm - 1 }) := by
  unfold syncLog at hs
  split at hs
  next hb =>
    cases hs
    exact Or.inl ⟨hb, rfl, rfl⟩
  next hb =>
    split at hs
    · cases hs
    next hn =>
      rw [not_or, Nat.not_le] at hn
      cases hs
      exact Or.inr ⟨hb, Nat.pos_of_ne_zero hn.1, hn.2, rfl, rfl⟩

theorem syncLog_eq_none {h : LogHeader} {ctx : OpContext} {b : Nat} (hs : syncLog h ctx b = none) :
    b ∉ h.logged ∧ (ctx.rm = 0 ∨ LOG_MAX_SIZE ≤ h.numBlocks) := by
  unfold syncLog at hs
  split at hs
  · cases hs
  next hb =>
    split at hs
    next hn => exact ⟨hb, hn⟩
    next => cases hs

section

variable {hd hd' : LogHeader} {ctx ctx' : OpContext} {b : Nat}

section

variable (hs : syncLog hd ctx b = some (hd', ctx'))

include hs

theorem mem_of_syncLog (x : Nat) : x ∈ hd'.logged ↔ x = b ∨ x ∈ hd.logged := by
  rcases syncLog_eq_some hs with ⟨hmem, rfl, -⟩ | ⟨-, -, -, rfl, -⟩
  · refine ⟨Or.inr, ?_⟩
    rintro (rfl | hx)
    · exact hmem
    · exact hx
  · rw [LogHeader.logged_push, List.mem_append, List.mem_singleton, or_comm]

theorem nodup_of_syncLog (hnd : hd.logged.Nodup) : hd'.logged.Nodup := by
  rcases syncLog_eq_some hs with ⟨-, rfl, -⟩ | ⟨hmem, -, -, rfl, -⟩
  · exact hnd
  · rw [LogHeader.logged_push]
    exact List.nodup_append.mpr ⟨hnd, List.nodup_singleton b, fun x hx y hy he =>
      hmem (List.mem_singleton.mp hy ▸ he ▸ hx)⟩

theorem room_of_syncLog (hroom : hd.numBlocks ≤ LOG_MAX_SIZE) : hd'.numBlocks ≤ LOG_MAX_SIZE := by
  rcases syncLog_eq_some hs with ⟨-, rfl, -⟩ | ⟨-, -, hlt, rfl, -⟩
  · exact hroom
  · exact hlt

theorem credit_of_syncLog : hd'.numBlocks + ctx'.rm = hd.numBlocks + ctx.rm := by
  rcases syncLog_eq_some hs with ⟨-, rfl, rfl⟩ | ⟨-, hpos, -, rfl, rfl⟩
  · rfl
  · rw [LogHeader.numBlocks_push]
    dsimp only
    omega

end

end

end OsKernel
