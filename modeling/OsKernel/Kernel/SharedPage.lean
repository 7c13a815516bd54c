import Mathlib.Algebra.Order.BigOperators.Group.Finset
import OsKernel.Kernel.PageAlloc

/-!
# Shared pages

Several processes that share a page call `kfree_page` at the same time.  `kfree_page` reads the
count again after it has decremented it, so two calls may both find it zero.

A call is *between* after its decrement and before its read.  If no other call is between when the
count becomes zero, only the call that made it zero reads zero, and it alone frees the page.
-/

namespace OsKernel

open Function

namespace SharedPage

/-- Where a call of `kfree_page` is: before its decrement, between that and its read, at the
decrement of `kalloc_page_cnt`, at the insertion, or done with or without freeing the page. -/
inductive Phase where
  | before
  | between
  | zero
  | counted
  | freed
  | skipped
deriving DecidableEq

namespace Phase

def isBefore : Phase → Int
  | before => 1
  | _ => 0

def isBetween : Phase → Int
  | between => 1
  | _ => 0

def isFreed : Phase → Int
  | freed => 1
  | _ => 0

def isCounted : Phase → Int
  | counted | freed => 1
  | _ => 0

def isLast : Phase → Int
  | zero | counted | freed => 1
  | _ => 0

theorem isBefore_nonneg (g : Phase) : 0 ≤ g.isBefore := by
  cases g <;> decide

theorem isBetween_nonneg (g : Phase) : 0 ≤ g.isBetween := by
  cases g <;> decide

theorem isFreed_le_isCounted (g : Phase) : g.isFreed ≤ g.isCounted := by
  cases g <;> decide

theorem isCounted_le_isLast (g : Phase) : g.isCounted ≤ g.isLast := by
  cases g <;> decide

end Phase

variable {ι : Type} [Fintype ι] (L : MemLayout) (pg : Nat)

abbrev Pages (ι : Type) := Pool ι PageState PageAct PageAct.Result Unit

def step [DecidableEq ι] : Pages ι → Pool.Label ι Empty → Except Runs.Stop (Pages ι) :=
  Pool.step (fun a _ s => PageAct.exec L a s) fun c => nomatch c

/-- Every process of `ι` has a reference, and calls `kfree_page`. -/
def Init (s₀ : PageState) (s : Pages ι) : Prop :=
  s₀.pageRef (L.pageIndex pg) = Fintype.card ι ∧ s = ⟨s₀, fun _ => kfreePage L pg⟩

/-- The last reference is not dropped while another call is between. -/
def Ok (s : Pages ι) (_ : ι) : PageAct → Prop
  | .decRef i => s.shared.pageRef i = 1 → ∀ u, (s.code u).next ≠ some (.readRef i)
  | _ => True

instance (s : Pages ι) (t : ι) : ∀ a, Decidable (Ok s t a)
  | .decRef i =>
    inferInstanceAs (Decidable (s.shared.pageRef i = 1 → ∀ u, (s.code u).next ≠ _))
  | .incCnt | .take | .readRef _ | .decCnt | .insert _ => instDecidableTrue

/-- What the actions of `kfree_page` make of the phase. -/
def spec : (a : PageAct) → Phase → (a.Result → Phase → Prop) → Prop
  | .decRef i, g, Q => i = L.pageIndex pg ∧ g = .before ∧ Q () .between
  | .readRef i, g, Q => i = L.pageIndex pg ∧ g = .between ∧
      ∀ count : Int, Q count (if count = 0 then .zero else .skipped)
  | .decCnt, g, Q => g = .zero ∧ Q () .counted
  | .insert p, g, Q => p = pg ∧ g = .counted ∧ Q () .freed
  | _, _, _ => False

def Done (_ : Unit) (g : Phase) : Prop := g = .freed ∨ g = .skipped

theorem kfreePage_wp (hpg : pg ≠ 0) : (kfreePage L pg).wp (spec L pg) .before Done := by
  simp only [kfreePage, hpg, if_false, Code.wp, spec, true_and]
  intro count
  split
  · simp [Code.wp, spec, Done]
  · simp [Code.wp, Done]

def tally (f : Phase → Int) (G : ι → Phase) : Int := ∑ t, f (G t)

theorem tally_update [DecidableEq ι] (f : Phase → Int) (G : ι → Phase) (t : ι) (g : Phase) :
    tally f (update G t g) = tally f G + (f g - f (G t)) :=
  sum_update (Finset.mem_univ t) f G g

variable {f : Phase → Int} {c : PageM Unit} {g : Phase}

theorem tally_le {f' : Phase → Int} (hf : ∀ g, f g ≤ f' g) (G : ι → Phase) :
    tally f G ≤ tally f' G :=
  Finset.sum_le_sum fun u _ => hf (G u)

theorem tally_nonneg (hf : ∀ g, 0 ≤ f g) (G : ι → Phase) : 0 ≤ tally f G :=
  Finset.sum_nonneg fun u _ => hf (G u)

theorem le_tally (hf : ∀ g, 0 ≤ f g) (G : ι → Phase) (t : ι) : f (G t) ≤ tally f G :=
  Finset.single_le_sum (f := fun u => f (G u)) (fun u _ => hf (G u)) (Finset.mem_univ t)

theorem tally_eq_zero {G : ι → Phase} (h : ∀ u, f (G u) = 0) : tally f G = 0 :=
  Finset.sum_eq_zero fun u _ => h u

structure Inv (s₀ s : PageState) (G : ι → Phase) : Prop where
  ref : s.pageRef (L.pageIndex pg) = tally Phase.isBefore G
  cnt : s.kallocPageCnt = s₀.kallocPageCnt - tally Phase.isCounted G
  list : ∃ n : Nat, (n : Int) = tally Phase.isFreed G ∧
    s.freePagesList = List.replicate n pg ++ s₀.freePagesList
  none : tally Phase.isBefore G ≠ 0 → tally Phase.isLast G = 0
  some : tally Phase.isBefore G = 0 → tally Phase.isLast G + tally Phase.isBetween G = 1

variable {L pg} {s₀ σ σ' : PageState} {G : ι → Phase}

theorem isBetween_eq_zero (h : c.wp (spec L pg) g Done)
    (hc : c.next ≠ .some (.readRef (L.pageIndex pg))) : g.isBetween = 0 := by
  cases g with
  | between =>
    cases c with
    | ret p => simp [Code.wp, Done] at h
    | act a k =>
      cases a <;> simp_all [Code.wp, Code.next, spec]
  | _ => rfl

theorem Inv.act [DecidableEq ι] (a : PageAct) (t : ι) (s : Pages ι) (G : ι → Phase)
    (Q : a.Result → Phase → Prop) (r : a.Result) (σ' : PageState) (hI : Inv L pg s₀ s.shared G)
    (hG : ∀ u, (s.code u).wp (spec L pg) (G u) Done) (hok : Ok s t a)
    (hspec : spec L pg a (G t) Q) (he : PageAct.exec L a s.shared = .ok (r, σ')) :
    ∃ g', Q r g' ∧ Inv L pg s₀ σ' (update G t g') := by
  cases a with
  | incCnt => cases hspec
  | take => cases hspec
  | decRef i =>
    obtain ⟨rfl, hg, hQ⟩ := hspec
    cases he
    refine ⟨.between, hQ, ?_⟩
    have hone := le_tally Phase.isBefore_nonneg G t
    rw [hg, Phase.isBefore] at hone
    have hlast := hI.none (by omega)
    have hzero : tally Phase.isBefore G = 1 → tally Phase.isBetween G = 0 := by
      intro h1
      exact tally_eq_zero fun u => isBetween_eq_zero (hG u) (hok (hI.ref.trans h1) u)
    constructor
    · simp [PageState.addRef, tally_update, hg, Phase.isBefore, hI.ref]
    · simp [PageState.addRef, tally_update, hg, Phase.isCounted, hI.cnt]
    · simp [PageState.addRef, tally_update, hg, Phase.isFreed, hI.list]
    · simp [tally_update, hg, Phase.isLast, hlast]
    · simp only [tally_update, hg, Phase.isBefore, Phase.isLast, Phase.isBetween]
      intro h0
      omega
  | readRef i =>
    obtain ⟨rfl, hg, hQ⟩ := hspec
    cases he
    refine ⟨_, hQ _, ?_⟩
    rw [hI.ref]
    -- the call reads the number of calls before their decrement
    by_cases h0 : tally Phase.isBefore G = 0
    · have hsome := hI.some h0
      simp only [h0, if_true]
      constructor
      · simp [tally_update, hg, Phase.isBefore, hI.ref]
      · simp [tally_update, hg, Phase.isCounted, hI.cnt]
      · simp [tally_update, hg, Phase.isFreed, hI.list]
      · simp [tally_update, hg, Phase.isBefore, h0]
      · simp only [tally_update, hg, Phase.isLast, Phase.isBetween]
        omega
    · have hnone := hI.none h0
      simp only [h0, if_false]
      constructor
      · simp [tally_update, hg, Phase.isBefore, hI.ref]
      · simp [tally_update, hg, Phase.isCounted, hI.cnt]
      · simp [tally_update, hg, Phase.isFreed, hI.list]
      · simp [tally_update, hg, Phase.isLast, hnone]
      · simp [tally_update, hg, Phase.isBefore, h0]
  | decCnt =>
    obtain ⟨hg, hQ⟩ := hspec
    cases he
    refine ⟨.counted, hQ, ?_⟩
    constructor
    · simp [tally_update, hg, Phase.isBefore, hI.ref]
    · simp only [tally_update, hg, Phase.isCounted, hI.cnt]
      omega
    · simp [tally_update, hg, Phase.isFreed, hI.list]
    · simpa [tally_update, hg, Phase.isBefore, Phase.isLast] using hI.none
    · simpa [tally_update, hg, Phase.isBefore, Phase.isLast, Phase.isBetween] using hI.some
  | insert p =>
    obtain ⟨rfl, hg, hQ⟩ := hspec
    cases he
    refine ⟨.freed, hQ, ?_⟩
    obtain ⟨n, hn, hl⟩ := hI.list
    constructor
    · simp [tally_update, hg, Phase.isBefore, hI.ref]
    · simp [tally_update, hg, Phase.isCounted, hI.cnt]
    · exact ⟨n + 1, by simp [tally_update, hg, Phase.isFreed, hn], by simp [hl, List.replicate]⟩
    · simpa [tally_update, hg, Phase.isBefore, Phase.isLast] using hI.none
    · simpa [tally_update, hg, Phase.isBefore, Phase.isLast, Phase.isBetween] using hI.some

theorem Inv.init [Nonempty ι] {s : Pages ι} (hpg : pg ≠ 0) (h : Init L pg s₀ s) :
    Pool.Holds (spec L pg) (Inv L pg s₀) Done s := by
  obtain ⟨hk, rfl⟩ := h
  refine ⟨fun _ => .before, ?_, fun t => kfreePage_wp L pg hpg⟩
  constructor
  · simp [tally, Phase.isBefore, hk]
  · simp [tally, Phase.isCounted]
  · exact ⟨0, by simp [tally, Phase.isFreed], rfl⟩
  · simp [tally, Phase.isLast]
  · intro h0
    simp [tally, Phase.isBefore] at h0

theorem Inv.last_le (hI : Inv L pg s₀ σ G) : tally Phase.isLast G ≤ 1 := by
  have hb := tally_nonneg Phase.isBetween_nonneg G
  by_cases h0 : tally Phase.isBefore G = 0
  · have h := hI.some h0
    omega
  · have h := hI.none h0
    omega

theorem Inv.before_eq_zero (hI : Inv L pg s₀ σ G) (h : tally Phase.isLast G ≠ 0) :
    tally Phase.isBefore G = 0 := by
  by_contra h0
  exact h (hI.none h0)

theorem isBefore_of_next (h : c.wp (spec L pg) g Done)
    (hc : c.next = .some (.decRef (L.pageIndex pg))) : g.isBefore = 1 := by
  cases c with
  | ret p => cases hc
  | act a k =>
    cases hc
    obtain ⟨-, rfl, -⟩ := h
    rfl

theorem done_of_next (h : c.wp (spec L pg) g Done) (hc : c.next = .none) : Done () g := by
  cases c with
  | ret p => exact h
  | act a k => cases hc

theorem Inv.freed_of_done (hI : Inv L pg s₀ σ G) (h : ∀ u, Done () (G u)) :
    tally Phase.isFreed G = 1 := by
  have hbefore : tally Phase.isBefore G = 0 :=
    tally_eq_zero fun u => by obtain hu | hu := h u <;> rw [hu] <;> rfl
  have hbetween : tally Phase.isBetween G = 0 :=
    tally_eq_zero fun u => by obtain hu | hu := h u <;> rw [hu] <;> rfl
  have hlast : tally Phase.isLast G = tally Phase.isFreed G :=
    Finset.sum_congr rfl fun u _ => by obtain hu | hu := h u <;> rw [hu] <;> rfl
  have hsome := hI.some hbefore
  omega

end SharedPage

open SharedPage in
/-- If no other call is between its decrement and its read when the count becomes zero, one
call and no other decrements `kalloc_page_cnt` and inserts the page, and it does so after the
last decrement. -/
theorem kfree_page_once {ι : Type} [Fintype ι] [DecidableEq ι] [Nonempty ι] (L : MemLayout)
    (pg : Nat) (hpg : pg ≠ 0) (s₀ : PageState) (s : Pages ι)
    (h : Runs.Reach (step L) (Pool.Ok Ok) (Init L pg s₀) s) :
    ∃ inserted counted : Nat,
      s.shared.freePagesList = List.replicate inserted pg ++ s₀.freePagesList ∧
      s.shared.kallocPageCnt = s₀.kallocPageCnt - counted ∧
      inserted ≤ counted ∧ counted ≤ 1 ∧
      (counted = 1 → s.shared.pageRef (L.pageIndex pg) = 0 ∧
        ∀ u, (s.code u).next ≠ some (.decRef (L.pageIndex pg))) ∧
      ((∀ u, (s.code u).next = none) → inserted = 1 ∧ counted = 1) := by
  have hinv : Pool.Holds (spec L pg) (Inv L pg s₀) Done s :=
    Pool.holds_of_reach (fun s => Inv.init hpg) (fun c => nomatch c) Inv.act h
  obtain ⟨G, hI, hG⟩ := hinv
  obtain ⟨n, hn, hlist⟩ := hI.list
  have hfc := tally_le Phase.isFreed_le_isCounted G
  have hcl := tally_le Phase.isCounted_le_isLast G
  have hl := hI.last_le
  have hcnt := hI.cnt
  have hlast : (tally Phase.isCounted G).toNat = 1 → tally Phase.isBefore G = 0 := by
    intro h1
    exact hI.before_eq_zero (by omega)
  refine ⟨n, (tally Phase.isCounted G).toNat, hlist, by omega, by omega, by omega, ?_, ?_⟩
  · intro h1
    refine ⟨hI.ref.trans (hlast h1), ?_⟩
    intro u hu
    have hle := le_tally Phase.isBefore_nonneg G u
    rw [isBefore_of_next (hG u) hu, hlast h1] at hle
    omega
  · intro hret
    have hone := hI.freed_of_done fun u => done_of_next (hG u) (hret u)
    omega

namespace SharedPage

abbrev small : MemLayout := PageSys.smallLayout

/-- The third of four pages is shared by two processes. -/
def twoRefs : PageState where
  freePagesList := [small.page 3]
  nextFreeAddr := small.memoryStart
  pageRef := update (update (fun _ => 0) 1 1) 2 2
  kallocPageCnt := 1

def bothFree : Pages Bool := ⟨twoRefs, fun _ => kfreePage small (small.page 2)⟩

theorem init_bothFree : Init small (small.page 2) twoRefs bothFree := ⟨by decide +kernel, rfl⟩

/-- One process frees the page after the other. -/
theorem kfree_page_once_two : ∃ s : Pages Bool,
    Runs.Reach (step small) (Pool.Ok Ok) (Init small (small.page 2) twoRefs) s ∧
    s.shared.freePagesList = [small.page 2, small.page 3] ∧ s.shared.kallocPageCnt = 0 := by
  obtain ⟨s, hs, hret⟩ := Runs.Reach.of_guardedTest init_bothFree
    (by decide +kernel : Runs.execTest (Runs.guarded (step small)
      (fun s l => decide (Pool.Ok Ok s l)) .disabled)
      bothFree [.run false, .run false, .run true, .run true, .run true, .run true]
      (fun s => decide (∀ u, (s.code u).next = none)) = true)
  obtain ⟨inserted, counted, hlist, hcnt, -, -, -, hone⟩ :=
    kfree_page_once small (small.page 2) (by decide +kernel) twoRefs s hs
  obtain ⟨rfl, rfl⟩ := hone (of_decide_eq_true hret)
  exact ⟨s, hs, hlist, hcnt⟩

end SharedPage

open SharedPage in
/-- Both processes decrement the count, both read zero and both free the page. -/
theorem kfree_page_twice : ∃ s : Pages Bool,
    Runs.Reach (step small) (fun _ _ => True) (Init small (small.page 2) twoRefs) s ∧
    s.shared.freePagesList = [small.page 2, small.page 2, small.page 3] ∧
    s.shared.kallocPageCnt = -1 := by
  obtain ⟨s, hs, hq⟩ := Runs.Reach.of_execTest init_bothFree
    (by decide +kernel : Runs.execTest (step small) bothFree
      [.run false, .run true, .run false, .run true, .run false, .run true, .run false, .run true]
      (fun s => decide (s.shared.freePagesList = [small.page 2, small.page 2, small.page 3] ∧
        s.shared.kallocPageCnt = -1)) = true)
  exact ⟨s, hs, of_decide_eq_true hq⟩

end OsKernel
