import OsKernel.Lib.Token
import OsKernel.Common.Sem

/-!
# Sleep locks

A sleep lock is a semaphore with one token: `init_sleeplock` is `init_sem(lock, 1)`,
`acquire_sleeplock` is `wait_sem` and `release_sleeplock` is `post_sem`.  The
processes use it correctly when only those that have the token give it back and
none leaves the sleep list by itself.  `LockUse` relates the semaphore to the
processes that wait and to the tokens they have.
-/

namespace OsKernel

open Function List

structure LockUse (sem : Semaphore) (waits : Nat → Prop) (tokens : Nat → Nat) : Prop where
  wf : sem.WF
  nodup : sem.sleeplist.Nodup
  linked : ∀ p, p ∈ sem.sleeplist ↔ waits p
  one : Token.One sem.val tokens

namespace LockUse

variable {sem sem' : Semaphore} {waits waits' : Nat → Prop} {tokens tokens' : Nat → Nat}

theorem congr (h : LockUse sem waits tokens) (hw : ∀ p, waits' p ↔ waits p)
    (ht : ∀ p, tokens' p = tokens p) : LockUse sem waits' tokens' := by
  have htokens : tokens' = tokens := funext ht
  exact ⟨h.wf, h.nodup, fun p => (h.linked p).trans (hw p).symm, htokens ▸ h.one⟩

theorem init (hw : ∀ p, ¬ waits p) (ht : ∀ p, tokens p = 0) :
    LockUse (.initSem 1) waits tokens := by
  have htokens : tokens = fun _ => 0 := funext ht
  refine ⟨.init (by decide), nodup_nil, fun p => ?_, htokens ▸ .init⟩
  exact ⟨fun hp => absurd hp not_mem_nil, fun hp => absurd hp (hw p)⟩

section

variable (h : LockUse sem waits tokens)

include h

theorem take {p : Nat} (hs : sem.waitSem p = (sem', true)) :
    tokens p = 0 ∧ LockUse sem' waits (update tokens p 1) := by
  have hwf : sem'.WF := by
    have := h.wf.waitSem p
    rwa [hs] at this
  rcases Semaphore.waitSem_cases h.wf p with ⟨hv, hnil, he⟩ | ⟨-, he⟩
  · cases hs.symm.trans he
    obtain ⟨hone, hzero, htake⟩ := h.one.take hv p
    refine ⟨hzero, hwf, nodup_nil, ?_, ?_⟩
    · rw [← hnil]
      exact h.linked
    · rw [hone]
      exact htake
  · cases hs.symm.trans he

theorem sleep {p : Nat} (hs : sem.waitSem p = (sem', false))
    (hp : ¬ waits p) (hw : ∀ q, waits' q ↔ q = p ∨ waits q) : LockUse sem' waits' tokens := by
  have hwf : sem'.WF := by
    have := h.wf.waitSem p
    rwa [hs] at this
  rcases Semaphore.waitSem_cases h.wf p with ⟨-, -, he⟩ | ⟨hv, he⟩
  · cases hs.symm.trans he
  · cases hs.symm.trans he
    refine ⟨hwf, ?_, fun q => ?_, h.one.wait hv⟩
    · exact nodup_cons.mpr ⟨fun hm => hp ((h.linked p).mp hm), h.nodup⟩
    · rw [hw, ← h.linked, mem_cons]

/-- `release_sleeplock` by the process that has the token: it becomes available, or
goes to the process that has slept longest. -/
theorem post {p : Nat} {w : Option Nat} (hp : 0 < tokens p) (hs : sem.postSem = some (sem', w)) :
    (w = none ∧ LockUse sem' waits (update tokens p 0)) ∨
    (∃ q, w = some q ∧ waits q ∧ LockUse sem' (fun r => r ≠ q ∧ waits r)
        (update (update tokens p 0) q 1)) := by
  have hwf := h.wf.postSem hs
  rcases Semaphore.postSem_cases h.wf with ⟨hnil, hv, he⟩ | ⟨rest, q, hl, hv, he⟩
  · cases hs.symm.trans he
    obtain ⟨hzero, hfree⟩ := h.one.free hp hv
    refine Or.inl ⟨rfl, hwf, nodup_nil, ?_, ?_⟩
    · rw [← hnil]
      exact h.linked
    · rw [hzero]
      exact hfree
  · cases hs.symm.trans he
    have hnd := h.nodup
    rw [hl, nodup_append] at hnd
    have hq : q ∈ sem.sleeplist := by simp [hl]
    refine Or.inr ⟨q, rfl, (h.linked q).mp hq, hwf, hnd.1, fun r => ?_, h.one.pass hp hv q⟩
    rw [← h.linked, hl, mem_append, mem_singleton]
    constructor
    · exact fun hr => ⟨fun he => hnd.2.2 r hr q (mem_singleton_self q) he, Or.inl hr⟩
    · rintro ⟨hne, hr | hr⟩
      · exact hr
      · exact absurd hr hne

end

end LockUse

end OsKernel
