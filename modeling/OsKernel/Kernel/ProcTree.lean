import OsKernel.Lib.Runs
import OsKernel.Common.List
import OsKernel.Kernel.Sched

/-!
# The process tree

What `kernel/proc.c` does to the tree of processes: `create_proc`,
`set_parent_to_this`, `start_proc`, `wait` and `exit`, each as one step, since
every access to the tree is made under `plock`.  A list node is the `children` or
the `ptnode` field of a process.

Of a process only its place in the tree and whether it is unused, started or a
zombie are kept: a started process has state `RUNNABLE` here, whatever the
scheduler does with it.  The semaphore `childexit` is left out, so `wait` may
look for a zombie at any time.
-/

namespace OsKernel

open Function List

open Runs (Stop)

inductive TreeNode where
  /-- `&p->children`. -/
  | children (p : Nat)
  /-- `&p->ptnode`. -/
  | ptnode (p : Nat)
deriving DecidableEq, Repr

/-- `&root_proc`. -/
def rootProc : Nat := 0

structure ProcTree where
  links : Links TreeNode
  parent : Nat → Option Nat
  state : Nat → ProcState
  /-- The processes whose memory is allocated. -/
  live : List Nat

inductive TreeAct where
  | createProc (p : Nat)
  | setParentToThis (this p : Nat)
  | startProc (p : Nat)
  | wait (p : Nat)
  | exit (p : Nat)
deriving DecidableEq, Repr

namespace ProcTree

open TreeNode

/-- The new child of `q` is linked and knows its parent. -/
def attach (t : ProcTree) (q p : Nat) : ProcTree :=
  { t with
    parent := update t.parent p (some q)
    links := insertIntoList t.links (children q) (ptnode p) }

/-- The first loop of `exit`: every child gets `root_proc` as its parent.  The
process of a node that is not a `ptnode` is not defined. -/
def reparent (t : ProcTree) (list : TreeNode) :
    Nat → TreeNode → (Nat → Option Nat) → Option (Nat → Option Nat)
  | 0, _, _ => none
  | fuel + 1, node, parent =>
    if node = list then some parent
    else
      match node with
      | ptnode c =>
        reparent t list fuel (t.links.next node) (update parent c (some rootProc))
      | children _ => none

/-- The children of `p` are moved to the end of the list of `root_proc`. -/
def transferChildren (l : Links TreeNode) (p : Nat) : Links TreeNode :=
  if emptyList l (children p) then l
  else
    let firstChild := l.next (children p)
    let lastChild := l.prev (children p)
    let l := l.setNext lastChild (children rootProc)
    let l := l.setPrev firstChild (l.prev (children rootProc))
    let l := l.setNext (l.prev (children rootProc)) firstChild
    let l := l.setPrev (children rootProc) lastChild
    (detachFromList l (children p)).1

/-- The search of `wait` for a child that has exited. -/
def findZombie (t : ProcTree) (list : TreeNode) : Nat → TreeNode → Option (Option Nat)
  | 0, _ => none
  | fuel + 1, node =>
    if node = list then some none
    else
      match node with
      | ptnode c =>
        if t.state c = .ZOMBIE then some (some c)
        else findZombie t list fuel (t.links.next node)
      | children _ => none

def fuel (t : ProcTree) : Nat := t.live.length + 1

/-- A loop that does not end leaves its process without a next step. -/
def step (t : ProcTree) : TreeAct → Except Stop ProcTree
  | .createProc p =>
    if p ∈ t.live then .error .disabled
    else
      .ok
        { links := initListNode (initListNode t.links (children p)) (ptnode p)
          parent := update t.parent p none
          state := update t.state p .UNUSED
          live := p :: t.live }
  | .setParentToThis this p =>
    if this ∈ t.live ∧ t.state this = .RUNNABLE ∧ p ∈ t.live ∧ t.state p = .UNUSED ∧
        t.parent p = none then
      .ok (t.attach this p)
    else .error .disabled
  | .startProc p =>
    if p ∈ t.live ∧ t.state p = .UNUSED then
      let t := if t.parent p = none then t.attach rootProc p else t
      .ok { t with state := update t.state p .RUNNABLE }
    else .error .disabled
  | .wait p =>
    if p ∈ t.live ∧ t.state p = .RUNNABLE then
      if emptyList t.links (children p) then .ok t
      else
        match t.findZombie (children p) t.fuel (t.links.next (children p)) with
        | some (some c) =>
          .ok { t with
            links := (detachFromList t.links (ptnode c)).1
            live := t.live.erase c }
        | some none => .ok t
        | none => .error .disabled
    else .error .disabled
  | .exit p =>
    if p ∈ t.live ∧ t.state p = .RUNNABLE then
      if p = rootProc then .error .panic
      else
        match t.reparent (children p) t.fuel (t.links.next (children p)) t.parent with
        | some parent =>
          .ok { t with
            parent := parent
            links := transferChildren t.links p
            state := update t.state p .ZOMBIE }
        | none => .error .disabled
    else .error .disabled

/-- After `init_kproc`: only `root_proc`, its own parent, without children. -/
def Init (t : ProcTree) : Prop :=
  t.live = [rootProc] ∧ t.links.Ring (children rootProc) [] ∧
    t.parent rootProc = some rootProc ∧ t.state rootProc = .RUNNABLE

/-! ## Well-formed trees -/

/-- Every process's children list is a circular list of the processes whose
parent it is; a process without a parent is in no list, and a zombie has no
children. -/
structure WF (t : ProcTree) (kids : Nat → List Nat) : Prop where
  root_mem : rootProc ∈ t.live
  root_parent : t.parent rootProc = some rootProc
  root_state : t.state rootProc ≠ .ZOMBIE
  nodup : t.live.Nodup
  ring : ∀ p ∈ t.live, t.links.Ring (children p) ((kids p).map ptnode)
  single : ∀ c ∈ t.live, t.parent c = none → t.links.Ring (ptnode c) []
  mem_kids : ∀ p ∈ t.live, ∀ c, c ∈ kids p ↔ c ∈ t.live ∧ c ≠ rootProc ∧ t.parent c = some p
  parent_live : ∀ c ∈ t.live, ∀ q, t.parent c = some q → q ∈ t.live
  zombie : ∀ p ∈ t.live, t.state p = .ZOMBIE → kids p = []

theorem WF.init {t : ProcTree} (h : t.Init) : t.WF fun _ => [] := by
  obtain ⟨hl, hr, hp, hs⟩ := h
  have honly : ∀ {p}, p ∈ t.live → p = rootProc := fun hp => by simpa [hl] using hp
  refine ⟨by simp [hl], hp, by simp [hs], by simp [hl], ?_, ?_, ?_, ?_, fun _ _ _ => rfl⟩
  · intro p hm
    rw [honly hm]
    exact hr
  · intro c hm hc
    rw [honly hm, hp] at hc
    cases hc
  · intro p _ c
    simp only [not_mem_nil, false_iff, not_and]
    exact fun hm hne => absurd (honly hm) hne
  · intro c hm q hq
    simp_all

theorem WF.setState {t : ProcTree} {kids : Nat → List Nat} (h : t.WF kids) (p : Nat)
    (st : ProcState) (hz : st = .ZOMBIE → kids p = [] ∧ p ≠ rootProc) :
    WF { t with state := update t.state p st } kids := by
  have hst : ∀ q, update t.state p st q = .ZOMBIE →
      t.state q = .ZOMBIE ∨ q = p ∧ st = .ZOMBIE := fun q hq => by
    obtain rfl | hqp := eq_or_ne q p
    · rw [update_self] at hq
      exact .inr ⟨rfl, hq⟩
    · rw [update_of_ne hqp] at hq
      exact .inl hq
  refine { h with root_state := fun hq => ?_, zombie := fun q hq hqz => ?_ }
  · rcases hst _ hq with hq | ⟨e, hq⟩
    · exact h.root_state hq
    · exact (hz hq).2 e.symm
  · rcases hst _ hqz with hqz | ⟨rfl, hzst⟩
    · exact h.zombie q hq hqz
    · exact (hz hzst).1

/-! ## Steps that keep the tree well formed -/

variable {t t' : ProcTree} {kids : Nat → List Nat} {p q c : Nat}

section

variable (h : t.WF kids)

include h

theorem WF.ptnode_not_mem (hq : q ∈ t.live) (hc : c ∈ t.live → c ≠ rootProc → t.parent c ≠ some q) :
    ptnode c ∉ children q :: (kids q).map ptnode := by
  simp only [mem_cons, reduceCtorEq, mem_map, ptnode.injEq, exists_eq_right, false_or]
  intro hm
  obtain ⟨hl, hr, hp⟩ := (h.mem_kids q hq c).mp hm
  exact hc hl hr hp

theorem WF.disjoint (hp : p ∈ t.live) (hq : q ∈ t.live) (hne : p ≠ q)
    {z : TreeNode} (hz : z ∈ children p :: (kids p).map ptnode) :
    z ∉ children q :: (kids q).map ptnode := by
  rcases mem_cons.mp hz with rfl | hz
  · simp [hne]
  · obtain ⟨c, hc, rfl⟩ := mem_map.mp hz
    refine h.ptnode_not_mem hq fun _ _ hcq => hne ?_
    exact Option.some_inj.mp ((((h.mem_kids p hp c).mp hc).2.2).symm.trans hcq)

theorem WF.attach (hq : q ∈ t.live) (hz : t.state q ≠ .ZOMBIE) (hc : c ∈ t.live)
    (hnone : t.parent c = none) :
    (t.attach q c).WF (update kids q (c :: kids q)) := by
  have hroot : c ≠ rootProc := by
    rintro rfl
    rw [h.root_parent] at hnone
    cases hnone
  have hnot : ∀ r ∈ t.live, ptnode c ∉ children r :: (kids r).map ptnode := fun r hr =>
    h.ptnode_not_mem hr fun _ _ => by simp [hnone]
  obtain ⟨hring, hframe⟩ := ring_insertIntoList (h.ring q hq) (hnot q hq)
  -- a list that shares no node with the one that grows
  have hkeep : ∀ {y xs}, t.links.Ring y xs → (∀ z ∈ y :: xs, z ≠ ptnode c ∧ z ∉ children q ::
      (kids q).map ptnode) → (t.attach q c).links.Ring y xs := fun hr hd =>
    have hz : ∀ z ∈ _, z ∉ children q :: ptnode c :: (kids q).map ptnode := fun z hz hm =>
      (hd z hz).2 (by simpa [(hd z hz).1] using hm)
    hr.congr (fun z h => (hframe z (hz z h)).1) (fun z h => (hframe z (hz z h)).2)
  refine ⟨h.root_mem, ?_, h.root_state, h.nodup, fun r hr => ?_, fun d hd hdn => ?_,
    fun r hr d => ?_, fun d hd r hdr => ?_, fun r hr hrz => ?_⟩
  · exact (update_of_ne (Ne.symm hroot) _ _).trans h.root_parent
  · obtain rfl | hrq := eq_or_ne r q
    · rw [update_self]
      exact hring
    · rw [update_of_ne hrq]
      exact hkeep (h.ring r hr) fun z hz =>
        ⟨fun e => hnot r hr (e ▸ hz), h.disjoint hr hq hrq hz⟩
  · have hdc : d ≠ c := by
      rintro rfl
      exact absurd hdn (by simp [ProcTree.attach])
    have hdn : t.parent d = none := by simpa [ProcTree.attach, hdc] using hdn
    refine hkeep (h.single d hd hdn) fun z hz => ?_
    rw [mem_singleton.mp hz]
    exact ⟨by simpa using hdc, h.ptnode_not_mem hq fun _ _ => by simp [hdn]⟩
  · have hmem := h.mem_kids r hr d
    obtain rfl | hdc := eq_or_ne d c
    · have hne : d ∉ kids r := fun hm => hnot r hr (by simpa using hm)
      obtain rfl | hrq := eq_or_ne r q
      · simp [ProcTree.attach, hc, hroot]
      · simp [ProcTree.attach, hrq, hne, Ne.symm hrq]
    · obtain rfl | hrq := eq_or_ne r q
      · simpa [ProcTree.attach, hdc] using hmem
      · simpa [ProcTree.attach, hdc, hrq] using hmem
  · obtain rfl | hdc := eq_or_ne d c
    · have : q = r := by simpa [ProcTree.attach] using hdr
      exact this ▸ hq
    · exact h.parent_live d hd r (by simpa [ProcTree.attach, hdc] using hdr)
  · have hrq : r ≠ q := by
      rintro rfl
      exact hz hrz
    rw [update_of_ne hrq]
    exact h.zombie r hr hrz

theorem WF.create (hp : p ∉ t.live) : WF
      { links := initListNode (initListNode t.links (children p)) (ptnode p)
        parent := update t.parent p none
        state := update t.state p .UNUSED
        live := p :: t.live }
      (update kids p []) := by
  have hne : ∀ {q}, q ∈ t.live → q ≠ p := fun hq e => hp (e ▸ hq)
  have hkids : ∀ q ∈ t.live, p ∉ kids q := fun q hq hm => hp ((h.mem_kids q hq p).mp hm).1
  have hkeep : ∀ {y xs}, t.links.Ring y xs → (∀ z ∈ y :: xs, z ≠ ptnode p ∧ z ≠ children p) →
      (initListNode (initListNode t.links (children p)) (ptnode p)).Ring y xs := fun hr hd =>
    hr.congr (fun z hz => by simp [hd z hz]) (fun z hz => by simp [hd z hz])
  refine ⟨mem_cons_of_mem _ h.root_mem, ?_, ?_, nodup_cons.mpr ⟨hp, h.nodup⟩,
    fun r hr => ?_, fun d hd hdn => ?_, fun r hr d => ?_, fun d hd r hdr => ?_, fun r hr hrz => ?_⟩
  · exact (update_of_ne (hne h.root_mem) _ _).trans h.root_parent
  · simpa [hne h.root_mem] using h.root_state
  · rcases mem_cons.mp hr with rfl | hr
    · simp [Links.ring_nil]
    rw [update_of_ne (hne hr)]
    refine hkeep (h.ring r hr) fun z hz => ?_
    rcases mem_cons.mp hz with rfl | hz
    · simp [hne hr]
    · obtain ⟨c, hc, rfl⟩ := mem_map.mp hz
      simpa using fun e : c = p => hkids r hr (e ▸ hc)
  · rcases mem_cons.mp hd with rfl | hd
    · exact ring_initListNode
    · have hdn : t.parent d = none := by simpa [hne hd] using hdn
      refine hkeep (h.single d hd hdn) fun z hz => ?_
      rw [mem_singleton.mp hz]
      simpa using hne hd
  · have hparent : ∀ d ∈ t.live, t.parent d ≠ some p := fun d hd hdp => hp (h.parent_live d hd p hdp)
    rcases mem_cons.mp hr with rfl | hr
    · by_cases hdr : d = r
      · simp [hdr]
      · simpa [hdr] using fun hd _ => hparent d hd
    · have hmem := h.mem_kids r hr d
      by_cases hdp : d = p
      · simp [hdp, hne hr, hkids r hr]
      · simpa [hne hr, hdp] using hmem
  · rcases mem_cons.mp hd with rfl | hd
    · simp at hdr
    · exact mem_cons_of_mem _ (h.parent_live d hd r (by simpa [hne hd] using hdr))
  · rcases mem_cons.mp hr with rfl | hr
    · simp
    · rw [update_of_ne (hne hr)]
      exact h.zombie r hr (by simpa [hne hr] using hrz)

theorem WF.reap (hp : p ∈ t.live) (hc : c ∈ kids p) (hz : t.state c = .ZOMBIE) : ∃ kids', WF
      { t with
        links := (detachFromList t.links (ptnode c)).1
        live := t.live.erase c } kids' := by
  obtain ⟨as, bs, hk⟩ := append_of_mem hc
  obtain ⟨hcl, hroot, hparent⟩ := (h.mem_kids p hp c).mp hc
  have hring := h.ring p hp
  rw [hk, map_append, map_cons] at hring
  obtain ⟨hring', -, hframe⟩ := ring_detachFromList hring
  have hlive : ∀ {q}, q ∈ t.live.erase c ↔ q ≠ c ∧ q ∈ t.live := h.nodup.mem_erase_iff
  have hkeep : ∀ {y xs}, t.links.Ring y xs → (∀ z ∈ y :: xs, z ∉ children p ::
      (kids p).map ptnode) → (detachFromList t.links (ptnode c)).1.Ring y xs := fun hr hd =>
    have hz : ∀ z ∈ _, z ∉ children p :: (as.map ptnode ++ ptnode c :: bs.map ptnode) :=
      fun z hz => by simpa [hk] using hd z hz
    hr.congr (fun z h => (hframe z (hz z h)).1) (fun z h => (hframe z (hz z h)).2)
  have hnodup : (as ++ c :: bs).Nodup := by
    have := (nodup_cons.mp (h.ring p hp).nodup).2
    rw [hk] at this
    exact this.of_map
  have hnot : c ∉ as ++ bs := by
    rw [nodup_middle, nodup_cons] at hnodup
    exact hnodup.1
  refine ⟨update kids p (as ++ bs), hlive.mpr ⟨Ne.symm hroot, h.root_mem⟩, h.root_parent,
    h.root_state, h.nodup.erase c, fun r hr => ?_, fun d hd hdn => ?_, fun r hr d => ?_, fun d hd r hdr => ?_,
    fun r hr hrz => ?_⟩
  · obtain ⟨hrc, hr⟩ := hlive.mp hr
    obtain rfl | hrp := eq_or_ne r p
    · rw [update_self, map_append]
      exact hring'
    · rw [update_of_ne hrp]
      exact hkeep (h.ring r hr) fun z hz => h.disjoint hr hp hrp hz
  · obtain ⟨hdc, hd⟩ := hlive.mp hd
    refine hkeep (h.single d hd hdn) fun z hz => ?_
    rw [mem_singleton.mp hz]
    exact h.ptnode_not_mem hp fun _ _ hdp => by simp [show t.parent d = none from hdn] at hdp
  · obtain ⟨hrc, hr⟩ := hlive.mp hr
    have hmem := h.mem_kids r hr d
    obtain rfl | hdc := eq_or_ne d c
    · by_cases hrp : r = p
      · subst hrp
        simp only [update_self, hnot, hlive, ne_eq, not_true, false_and]
      · have : d ∉ kids r := fun hm => hrp (Option.some_inj.mp ((hmem.mp hm).2.2.symm.trans hparent))
        simp only [update_of_ne hrp, this, hlive, ne_eq, not_true, false_and]
    · obtain rfl | hrp := eq_or_ne r p
      · have hin : d ∈ kids r ↔ d ∈ as ++ bs := by simp [hk, hdc]
        simp only [update_self, ← hin, hmem, hlive, ne_eq, hdc, not_false_eq_true, true_and]
      · simp only [update_of_ne hrp, hmem, hlive, ne_eq, hdc, not_false_eq_true, true_and]
  · obtain ⟨hdc, hd⟩ := hlive.mp hd
    refine hlive.mpr ⟨?_, h.parent_live d hd r hdr⟩
    intro hrc
    rw [hrc] at hdr
    -- a zombie has no children, and it is not the root's parent
    by_cases hdroot : d = rootProc
    · rw [hdroot] at hdr
      exact hroot (Option.some_inj.mp (hdr.symm.trans h.root_parent))
    · have := (h.mem_kids c hcl d).mpr ⟨hd, hdroot, hdr⟩
      rw [h.zombie c hcl hz] at this
      cases this
  · obtain ⟨hrc, hr⟩ := hlive.mp hr
    have hkr := h.zombie r hr hrz
    have hrp : r ≠ p := by
      rintro rfl
      rw [hkr] at hc
      cases hc
    rw [update_of_ne hrp]
    exact hkr

end

end ProcTree

end OsKernel
