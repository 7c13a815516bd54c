import Mathlib.Data.List.Nodup
import Mathlib.Algebra.Order.Ring.Int

/-!
# Semaphores

The functions of `common/sem.c`.  The spin lock of a semaphore makes each
stretch of code between taking and releasing it one step, so a function is
modelled by what it does to the value and the sleep list.  `_wait_sem` has two
such stretches, before and after its call of `sched`: `waitSem` and `wakeSem`.

`val` is a C `int`.  It is an integer here, and the runs of `Common/SemRuns` stop
at a post that would make it larger than `INT_MAX`.  The sleep list holds the processes whose `WaitData` is linked, from
`sleeplist.next` to `sleeplist.prev`: `_insert_into_list` puts a new waiter at
the front and `_post_sem` takes the one at the end.  A function that can fail
an `ASSERT` returns `none` when it does.
-/

namespace OsKernel

open List

structure Semaphore where
  val : Int
  sleeplist : List Nat
deriving DecidableEq, Repr

/-- The largest `int`. -/
def INT_MAX : Int := 2147483647

namespace Semaphore

def initSem (v : Int) : Semaphore := ⟨v, []⟩

def getSem (s : Semaphore) : Semaphore × Bool :=
  if 0 < s.val then ({ s with val := s.val - 1 }, true) else (s, false)

def getAllSem (s : Semaphore) : Semaphore × Int :=
  if 0 < s.val then ({ s with val := 0 }, s.val) else (s, 0)

/-- `_wait_sem` by process `p` up to its call of `sched`.  The result is `true`
when it returns without sleeping. -/
def waitSem (s : Semaphore) (p : Nat) : Semaphore × Bool :=
  if 0 ≤ s.val - 1 then ({ s with val := s.val - 1 }, true)
  else (⟨s.val - 1, p :: s.sleeplist⟩, false)

/-- `_wait_sem` by process `p` from the return of `sched` on, where `up` is the
flag of its `WaitData`. -/
def wakeSem (s : Semaphore) (p : Nat) (up : Bool) : Option Semaphore :=
  if up then some s
  else if s.val + 1 ≤ 0 then some ⟨s.val + 1, s.sleeplist.erase p⟩
  else none

/-- `_post_sem`: the semaphore afterwards and the process it wakes, whose
`WaitData` gets `up = true`. -/
def postSem (s : Semaphore) : Option (Semaphore × Option Nat) :=
  if s.val + 1 ≤ 0 then
    match s.sleeplist.getLast? with
    | none => none
    | some p => some (⟨s.val + 1, s.sleeplist.dropLast⟩, some p)
  else some ({ s with val := s.val + 1 }, none)

/-- The loop of `post_all_sem`: post, count, and stop once the token can be
taken back.  It returns the semaphore, the count and the processes woken, first
to last. -/
def postAllLoop : Nat → Semaphore → Int → List Nat → Option (Semaphore × Int × List Nat)
  | 0, _, _, _ => none
  | fuel + 1, s, ret, woken =>
    match s.postSem with
    | none => none
    | some (s1, w) =>
      match s1.getSem with
      | (s2, true) => some (s2, ret + 1, woken ++ w.toList)
      | (s2, false) => postAllLoop fuel s2 (ret + 1) (woken ++ w.toList)

/-- `post_all_sem`.  Each turn but the last takes a process off the list, which
bounds the number of turns. -/
def postAllSem (s : Semaphore) : Option (Semaphore × Int × List Nat) :=
  postAllLoop (s.sleeplist.length + 1) s (-1) []

/-! ## The list is as long as the value is negative -/

/-- The sleep list has `max(0, -val)` elements. -/
def WF (s : Semaphore) : Prop := (s.sleeplist.length : Int) = max 0 (-s.val)

theorem WF.init {v : Int} (h : 0 ≤ v) : (initSem v).WF := by
  simp [WF, initSem, h]

variable {s s' : Semaphore} {p : Nat}

section

variable (h : s.WF)

include h

theorem WF.nonneg_of_nil (hs : s.sleeplist = []) : 0 ≤ s.val := by
  rw [WF, hs] at h
  simp only [length_nil] at h
  omega

theorem WF.neg_of_ne_nil (hs : s.sleeplist ≠ []) : s.val < 0 := by
  have hlen := length_pos_iff.mpr hs
  rw [WF] at h
  omega

theorem WF.neg_of_mem (hp : p ∈ s.sleeplist) : s.val < 0 :=
  h.neg_of_ne_nil (ne_nil_of_mem hp)

theorem WF.length_of_neg (hs : s.val < 0) : (s.sleeplist.length : Int) = -s.val := by
  rw [WF] at h
  omega

theorem WF.nil_of_nonneg (hs : 0 ≤ s.val) : s.sleeplist = [] := by
  rw [WF] at h
  exact length_eq_zero_iff.mp (by omega)

/-! ## What each function does to a well-formed semaphore -/

theorem waitSem_cases (p : Nat) :
    (0 < s.val ∧ s.sleeplist = [] ∧ s.waitSem p = (⟨s.val - 1, []⟩, true)) ∨
    (s.val ≤ 0 ∧ s.waitSem p = (⟨s.val - 1, p :: s.sleeplist⟩, false)) := by
  by_cases hv : 0 < s.val
  · have hnil := h.nil_of_nonneg (by omega)
    have hv' : 0 ≤ s.val - 1 := by omega
    exact Or.inl ⟨hv, hnil, by rw [Semaphore.waitSem, if_pos hv', hnil]⟩
  · have hv' : ¬ 0 ≤ s.val - 1 := by omega
    exact Or.inr ⟨by omega, by rw [Semaphore.waitSem, if_neg hv']⟩

theorem WF.waitSem (p : Nat) : (s.waitSem p).1.WF := by
  rcases waitSem_cases h p with ⟨hv, hnil, he⟩ | ⟨hv, he⟩
  · rw [he, WF]
    simp only [length_nil]
    omega
  · rw [WF] at h
    rw [he, WF]
    simp only [length_cons]
    omega

end

theorem sleeplist_of_waitSem (h : s.waitSem p = (s', true)) : s'.sleeplist = s.sleeplist := by
  unfold waitSem at h
  split at h <;> cases h
  rfl

theorem sleeplist_of_waitSem_false (h : s.waitSem p = (s', false)) :
    s'.sleeplist = p :: s.sleeplist := by
  unfold waitSem at h
  split at h <;> cases h
  rfl

/-- A waiter that wakes without a token is still on the list, so the assertion
holds and the waiter leaves. -/
theorem wakeSem_of_mem (h : s.WF) (hp : p ∈ s.sleeplist) :
    s.wakeSem p false = some ⟨s.val + 1, s.sleeplist.erase p⟩ := by
  have hneg := h.neg_of_mem hp
  have hle : s.val + 1 ≤ 0 := by omega
  simp [wakeSem, hle]

theorem WF.erase (h : s.WF) (hp : p ∈ s.sleeplist) : WF ⟨s.val + 1, s.sleeplist.erase p⟩ := by
  have hneg := h.neg_of_mem hp
  have hlen := h.length_of_neg hneg
  rw [WF]
  simp only [length_erase_of_mem hp]
  omega

/-- A post makes one more token available, or hands the token to the process at
the end of the list. -/
theorem postSem_cases (h : s.WF) :
    (s.sleeplist = [] ∧ 0 ≤ s.val ∧ s.postSem = some (⟨s.val + 1, []⟩, none)) ∨
    (∃ rest p, s.sleeplist = rest ++ [p] ∧ s.val < 0 ∧
      s.postSem = some (⟨s.val + 1, rest⟩, some p)) := by
  rcases eq_nil_or_concat s.sleeplist with hnil | ⟨rest, p, hl⟩
  · have hv := h.nonneg_of_nil hnil
    have hv' : ¬ s.val + 1 ≤ 0 := by omega
    exact Or.inl ⟨hnil, hv, by simp [postSem, hv', hnil]⟩
  · rw [concat_eq_append] at hl
    have hv := h.neg_of_ne_nil (by simp [hl])
    have hv' : s.val + 1 ≤ 0 := by omega
    exact Or.inr ⟨rest, p, hl, hv, by simp [postSem, hv', hl]⟩

theorem WF.postSem {w : Option Nat} (h : s.WF) (hs : s.postSem = some (s', w)) : s'.WF := by
  rcases postSem_cases h with ⟨hnil, hv, he⟩ | ⟨rest, p, hl, hv, he⟩
  · rw [he] at hs
    cases hs
    rw [WF]
    simp only [length_nil]
    omega
  have hlen := h.length_of_neg hv
  rw [he] at hs
  cases hs
  rw [hl, length_append, length_singleton] at hlen
  rw [WF]
  dsimp only
  omega

theorem waitSem_of_postSem {s1 s2 : Semaphore} {w : Option Nat}
    (hpost : s.postSem = some (s1, w)) (hwait : s1.waitSem p = (s2, true)) : s2 = s := by
  rw [waitSem] at hwait
  split at hwait
  next hv =>
    obtain ⟨rfl, -⟩ := Prod.mk.inj hwait
    rw [postSem] at hpost
    split at hpost
    next hneg =>
      split at hpost
      · cases hpost
      · cases hpost
        simp only at hv
        omega
    next =>
      cases hpost
      simp
  next => cases (Prod.mk.inj hwait).2

/-- The loop of `post_all_sem` wakes the whole list, oldest first, and takes
back the token of its last post. -/
theorem postAllLoop_eq : ∀ (fuel : Nat) (s : Semaphore) (ret : Int) (woken : List Nat),
    s.WF → s.sleeplist.length < fuel →
    postAllLoop fuel s ret woken =
      some (⟨max s.val 0, []⟩, ret + 1 + s.sleeplist.length, woken ++ s.sleeplist.reverse)
  | 0, _, _, _, _, hf => absurd hf (Nat.not_lt_zero _)
  | fuel + 1, s, ret, woken, h, hf => by
    rcases postSem_cases h with ⟨hnil, hv, he⟩ | ⟨rest, p, hl, hv, he⟩
    · have hpos : (0 : Int) < s.val + 1 := by omega
      have hmax : max s.val 0 = s.val := by omega
      simp [postAllLoop, he, getSem, hpos, hnil, hmax]
    have hnpos : ¬ (0 : Int) < s.val + 1 := by omega
    have hmax : max (s.val + 1) 0 = max s.val 0 := by omega
    rw [hl, length_append, length_singleton] at hf
    have ih := postAllLoop_eq fuel ⟨s.val + 1, rest⟩ (ret + 1) (woken ++ [p])
      (h.postSem he) (by simpa using hf)
    simp only [postAllLoop, he, getSem, hnpos, if_false, Option.toList_some, ih, hl, hmax,
      length_append, length_singleton, reverse_append, reverse_singleton,
      append_assoc, Nat.cast_add, Nat.cast_one]
    congr 3
    omega

/-- `post_all_sem` returns the number of sleepers, wakes exactly these, oldest
first, and leaves `val = max(val, 0)`. -/
theorem postAllSem_eq (h : s.WF) :
    s.postAllSem = some (⟨max s.val 0, []⟩, (s.sleeplist.length : Int), s.sleeplist.reverse) := by
  rw [postAllSem, postAllLoop_eq _ s _ _ h (Nat.lt_succ_self _)]
  simp

theorem WF.postAllSem : (⟨max s.val 0, []⟩ : Semaphore).WF := by
  rw [WF]
  simp only [length_nil]
  omega

theorem getSem_cases (s : Semaphore) : (0 < s.val ∧ s.getSem = (⟨s.val - 1, s.sleeplist⟩, true)) ∨
    (s.val ≤ 0 ∧ s.getSem = (s, false)) := by
  by_cases hv : 0 < s.val
  · exact Or.inl ⟨hv, by simp [getSem, hv]⟩
  · exact Or.inr ⟨by omega, by simp [getSem, hv]⟩

theorem WF.getSem (h : s.WF) : s.getSem.1.WF := by
  rcases getSem_cases s with ⟨hv, he⟩ | ⟨hv, he⟩
  · rw [he, WF, h.nil_of_nonneg (by omega)]
    simp only [length_nil]
    omega
  · rw [he]
    exact h

theorem getAllSem_cases (s : Semaphore) : (0 < s.val ∧ s.getAllSem = (⟨0, s.sleeplist⟩, s.val)) ∨
    (s.val ≤ 0 ∧ s.getAllSem = (s, 0)) := by
  by_cases hv : 0 < s.val
  · exact Or.inl ⟨hv, by simp [getAllSem, hv]⟩
  · exact Or.inr ⟨by omega, by simp [getAllSem, hv]⟩

theorem WF.getAllSem (h : s.WF) : s.getAllSem.1.WF := by
  rcases getAllSem_cases s with ⟨hv, he⟩ | ⟨hv, he⟩
  · rw [he, WF, h.nil_of_nonneg (by omega)]
    simp
  · rw [he]
    exact h

end Semaphore

end OsKernel
