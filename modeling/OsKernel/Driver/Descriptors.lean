import Mathlib.Data.List.Pairwise
import OsKernel.Driver.VirtioBlk

/-!
# The descriptors of the disk

Eight descriptors are on the free chain or in the chains of three of the requests in flight.  The
free chain is threaded through the descriptors from `free_head`; its last element may have a stale
`next`, so it is `nfree` that says where the chain ends.

Submission takes three descriptors off the free chain, and the end of `virtio_blk_rw` puts a chain
back in front of it.  Nothing else changes the descriptors.
-/

namespace OsKernel

open Function List DiskProc

variable {data : Data}

/-! ## The free chain -/

/-- The descriptors that are linked from `head` on. -/
def Linked (desc : Nat → VirtqDesc) : Nat → List Nat → Prop
  | _, [] => True
  | head, [d] => head = d
  | head, d :: e :: ds =>
    head = d ∧ (desc d).hasNext = true ∧ Linked desc (desc d).next (e :: ds)

/-- The first `n` descriptors from `d` on. -/
def follow (desc : Nat → VirtqDesc) : Nat → Nat → List Nat
  | 0, _ => []
  | n + 1, d => d :: follow desc n (desc d).next

/-- The descriptors reachable from `free_head` within `nfree` steps. -/
def Virtq.freeChain (vq : Virtq) : List Nat := follow vq.desc vq.nfree vq.freeHead

def Virtq.chain (vq : Virtq) (d0 : Nat) : List Nat := follow vq.desc 3 d0

namespace Linked

variable {desc : Nat → VirtqDesc} {head d e : Nat} {ds : List Nat} {x : VirtqDesc}

theorem follow_eq (h : Linked desc head ds) : follow desc ds.length head = ds := by
  induction ds generalizing head with
  | nil => rfl
  | cons d ds ih =>
    cases ds with
    | nil =>
      have hd : head = d := h
      rw [hd]
      rfl
    | cons e ds =>
      obtain ⟨rfl, _, h⟩ := h
      rw [length_cons, follow, ih h]

theorem head_eq (h : Linked desc head (d :: ds)) : head = d := by
  cases ds with
  | nil => exact h
  | cons e ds => exact h.1

theorem update (h : Linked desc head ds) (hd : d ∉ ds) : Linked (update desc d x) head ds := by
  induction ds generalizing head with
  | nil => trivial
  | cons a ds ih =>
    cases ds with
    | nil => exact h
    | cons e ds =>
      obtain ⟨rfl, hnext, h⟩ := h
      have hne : head ≠ d := by
        rintro rfl
        exact hd (mem_cons_self ..)
      rw [Linked, update_of_ne hne]
      exact ⟨rfl, hnext, ih h (fun hmem => hd (mem_cons_of_mem _ hmem))⟩

theorem tail (h : Linked desc head (d :: ds)) :
    Linked desc (if (desc head).hasNext then (desc head).next else head) ds := by
  cases ds with
  | nil => trivial
  | cons e ds =>
    obtain ⟨rfl, hnext, h⟩ := h
    rw [if_pos hnext]
    exact h

theorem cons (h : Linked desc (desc d).next ds) (hd : (desc d).hasNext = true) :
    Linked desc d (d :: ds) := by
  cases ds with
  | nil => rfl
  | cons e ds => exact ⟨rfl, hd, h⟩

end Linked

namespace Virtq

variable {vq : Virtq} {free : List Nat} {p d0 d1 d2 : Nat} {dirty : Bool}

/-- The free chain has the elements `free`. -/
structure IsFree (vq : Virtq) (free : List Nat) : Prop where
  linked : Linked vq.desc vq.freeHead free
  nfree : vq.nfree = free.length
  nodup : free.Nodup

theorem IsFree.freeChain_eq (h : vq.IsFree free) : vq.freeChain = free := by
  rw [freeChain, h.nfree]
  exact h.linked.follow_eq

theorem IsFree.allocDesc_nil (h : vq.IsFree []) : vq.allocDesc = .error .panic := by
  have hzero : vq.nfree = 0 := h.nfree
  rw [allocDesc, if_pos hzero]

/-- The queue after `alloc_desc`. -/
def taken (vq : Virtq) : Virtq :=
  { vq with
    freeHead := if (vq.desc vq.freeHead).hasNext then (vq.desc vq.freeHead).next else vq.freeHead
    nfree := vq.nfree - 1 }

@[simp] theorem desc_taken (vq : Virtq) : vq.taken.desc = vq.desc := rfl

@[simp] theorem desc_setDesc (vq : Virtq) (d : Nat) (x : VirtqDesc) :
    (vq.setDesc d x).desc = update vq.desc d x := rfl

@[simp] theorem desc_publish (vq : Virtq) (p d : Nat) : (vq.publish p d).desc = vq.desc := rfl

theorem IsFree.allocDesc_cons {d : Nat} {ds : List Nat} (h : vq.IsFree (d :: ds)) :
    vq.allocDesc = .ok (d, vq.taken) ∧ vq.taken.IsFree ds := by
  have hpos : vq.nfree ≠ 0 := by
    rw [h.nfree, length_cons]
    omega
  constructor
  · rw [allocDesc, if_neg hpos, taken, h.linked.head_eq]
  · refine ⟨h.linked.tail, ?_, (nodup_cons.mp h.nodup).2⟩
    change vq.nfree - 1 = ds.length
    rw [h.nfree, length_cons, Nat.add_sub_cancel]

theorem IsFree.setDesc {d : Nat} {x : VirtqDesc} (h : vq.IsFree free) (hd : d ∉ free) :
    (vq.setDesc d x).IsFree free := ⟨h.linked.update hd, h.nfree, h.nodup⟩

/-- The chain of the request of process `p`. -/
structure IsChain (vq : Virtq) (p d0 d1 d2 : Nat) : Prop where
  hdr : (vq.desc d0).addr = .hdr p ∧ (vq.desc d0).hasNext = true ∧ (vq.desc d0).next = d1
  data : (vq.desc d1).addr = .data p ∧ (vq.desc d1).hasNext = true ∧ (vq.desc d1).next = d2
  status : (vq.desc d2).addr = .status d0 ∧ (vq.desc d2).hasNext = false

theorem IsChain.chain_eq (h : vq.IsChain p d0 d1 d2) : vq.chain d0 = [d0, d1, d2] := by
  rw [chain, follow, follow, follow, follow, h.hdr.2.2, h.data.2.2]

theorem IsChain.congr {vq' : Virtq} (h : vq.IsChain p d0 d1 d2)
    (hdesc : ∀ d ∈ [d0, d1, d2], vq'.desc d = vq.desc d) : vq'.IsChain p d0 d1 d2 := by
  have h0 := hdesc d0 (by simp)
  have h1 := hdesc d1 (by simp)
  have h2 := hdesc d2 (by simp)
  constructor
  · rw [h0]
    exact h.hdr
  · rw [h1]
    exact h.data
  · rw [h2]
    exact h.status

/-- A request that is submitted: what has changed. -/
structure Submitted (vq vq' : Virtq) (p d0 d1 d2 : Nat) (free : List Nat) : Prop where
  free : vq'.IsFree free
  chain : vq'.IsChain p d0 d1 d2
  desc : ∀ d ∉ [d0, d1, d2], vq'.desc d = vq.desc d
  avail : vq'.avail = vq.avail.push NQUEUE IDX_RANGE d0
  used : vq'.used = vq.used
  info : vq'.info = update vq.info d0 { vq.info d0 with buf := some p }

theorem IsFree.submit (h : vq.IsFree (d0 :: d1 :: d2 :: free)) (p : Nat) (dirty : Bool) :
    ∃ vq', vq.submit p dirty = .ok (d0, vq') ∧ Submitted vq vq' p d0 d1 d2 free := by
  obtain ⟨h0, hrest⟩ := nodup_cons.mp h.nodup
  obtain ⟨h1, hrest⟩ := nodup_cons.mp hrest
  obtain ⟨h2, _⟩ := nodup_cons.mp hrest
  have h01 : d0 ≠ d1 := fun he => h0 (he ▸ mem_cons_self ..)
  have h02 : d0 ≠ d2 := fun he => h0 (he ▸ mem_cons_of_mem _ (mem_cons_self ..))
  have h12 : d1 ≠ d2 := fun he => h1 (he ▸ mem_cons_self ..)
  have h0' : d0 ∉ d2 :: free := fun hm => h0 (mem_cons_of_mem _ hm)
  have h1' : d1 ∉ free := fun hm => h1 (mem_cons_of_mem _ hm)
  obtain ⟨ha, hf⟩ := h.allocDesc_cons
  have hf : (vq.taken.setHdr p d0).IsFree (d1 :: d2 :: free) := hf.setDesc h0
  obtain ⟨ha1, hf⟩ := hf.allocDesc_cons
  have hf : ((vq.taken.setHdr p d0).taken.setData p d0 d1 dirty).IsFree (d2 :: free) :=
    (hf.setDesc h0').setDesc h1
  obtain ⟨ha2, hf⟩ := hf.allocDesc_cons
  have hf : (((vq.taken.setHdr p d0).taken.setData p d0 d1 dirty).taken.setStatus d0 d1
      d2).IsFree free := (hf.setDesc h1').setDesc h2
  refine ⟨(((vq.taken.setHdr p d0).taken.setData p d0 d1 dirty).taken.setStatus d0 d1
    d2).publish p d0, ?_, ⟨⟨hf.linked, hf.nfree, hf.nodup⟩, ?_, ?_, rfl, rfl, rfl⟩⟩
  · rw [Virtq.submit, ha]
    dsimp only
    rw [ha1]
    dsimp only
    rw [ha2]
  · constructor
    · simp [setStatus, setData, setHdr, h01, h02, VirtqDesc.hasNext, VIRTQ_DESC_F_NEXT]
    · cases dirty <;> simp [setStatus, setData, h12, VirtqDesc.hasNext, VIRTQ_DESC_F_NEXT,
        VIRTQ_DESC_F_WRITE]
    · simp [setStatus, VirtqDesc.hasNext, VIRTQ_DESC_F_NEXT, VIRTQ_DESC_F_WRITE]
  · intro d hd
    simp only [mem_cons, not_mem_nil, or_false, not_or] at hd
    simp [setStatus, setData, setHdr, hd.1, hd.2.1, hd.2.2]

theorem IsFree.submit_panic (h : vq.IsFree free) (hlen : free.length < 3) (p : Nat)
    (dirty : Bool) : vq.submit p dirty = .error .panic := by
  cases free with
  | nil => rw [Virtq.submit, h.allocDesc_nil]
  | cons d0 free =>
    obtain ⟨h0, _⟩ := nodup_cons.mp h.nodup
    obtain ⟨ha, hf⟩ := h.allocDesc_cons
    have hf : (vq.taken.setHdr p d0).IsFree free := hf.setDesc h0
    rw [Virtq.submit, ha]
    dsimp only
    cases free with
    | nil => rw [hf.allocDesc_nil]
    | cons d1 free =>
      have h0' : d0 ∉ free := fun hm => h0 (mem_cons_of_mem _ hm)
      obtain ⟨h1, _⟩ := nodup_cons.mp hf.nodup
      obtain ⟨ha1, hf⟩ := hf.allocDesc_cons
      have hf : ((vq.taken.setHdr p d0).taken.setData p d0 d1 dirty).IsFree free :=
        (hf.setDesc h0').setDesc h1
      rw [ha1]
      dsimp only
      cases free with
      | nil => rw [hf.allocDesc_nil]
      | cons d2 free =>
        simp only [length_cons] at hlen
        omega

/-- The queue after `free_desc` of a chain from `d0` to `d2`. -/
def freed (vq : Virtq) (d0 d2 : Nat) : Virtq :=
  { vq with
    desc := update vq.desc d2 { vq.desc d2 with
      flags := VIRTQ_DESC_F_NEXT
      next := if vq.nfree = 0 then (vq.desc d2).next else vq.freeHead }
    freeHead := d0
    nfree := vq.nfree + 1 + 1 + 1 }

theorem IsChain.freeDesc (hc : vq.IsChain p d0 d1 d2) (h : vq.IsFree free)
    (hnd : (d0 :: d1 :: d2 :: free).Nodup) :
    vq.freeDesc d0 = some (vq.freed d0 d2) ∧ (vq.freed d0 d2).IsFree (d0 :: d1 :: d2 :: free) := by
  obtain ⟨h0, hrest⟩ := nodup_cons.mp hnd
  obtain ⟨h1, hrest⟩ := nodup_cons.mp hrest
  obtain ⟨h2, _⟩ := nodup_cons.mp hrest
  have h02 : d0 ≠ d2 := fun he => h0 (he ▸ mem_cons_of_mem _ (mem_cons_self ..))
  have h12 : d1 ≠ d2 := fun he => h1 (he ▸ mem_cons_self ..)
  have hd0 : (vq.freed d0 d2).desc d0 = vq.desc d0 := update_of_ne h02 _ _
  have hd1 : (vq.freed d0 d2).desc d1 = vq.desc d1 := update_of_ne h12 _ _
  have hd2 : (vq.freed d0 d2).desc d2 = { vq.desc d2 with
      flags := VIRTQ_DESC_F_NEXT
      next := if vq.nfree = 0 then (vq.desc d2).next else vq.freeHead } :=
    update_self ..
  have hwalk : freeWalk NQUEUE d0 vq = some (d2, { vq with nfree := vq.nfree + 1 + 1 + 1 }) := by
    simp [freeWalk, NQUEUE, hc.hdr.2.1, hc.hdr.2.2, hc.data.2.1, hc.data.2.2, hc.status.2]
  -- the last descriptor of the request leads to the old chain, if there is one
  have hrest : Linked (vq.freed d0 d2).desc ((vq.freed d0 d2).desc d2).next free := by
    cases free with
    | nil => trivial
    | cons e free =>
      have hne : vq.nfree ≠ 0 := by
        rw [h.nfree, length_cons]
        omega
      rw [hd2]
      rw [if_neg hne]
      exact h.linked.update h2
  refine ⟨?_, ?_, ?_, hnd⟩
  · rw [Virtq.freeDesc, hwalk]
    rfl
  · refine ⟨rfl, ?_, ?_⟩
    · rw [hd0]
      exact hc.hdr.2.1
    rw [hd0, hc.hdr.2.2]
    refine ⟨rfl, ?_, ?_⟩
    · rw [hd1]
      exact hc.data.2.1
    · rw [hd1, hc.data.2.2]
      refine Linked.cons hrest ?_
      rw [hd2]
      simp [VirtqDesc.hasNext, VIRTQ_DESC_F_NEXT]
  · change vq.nfree + 1 + 1 + 1 = _
    rw [h.nfree]
    rfl

end Virtq

/-! ## The requests in flight -/

theorem DiskProc.inFlight_of_waiting {x : DiskProc} (h : x.waiting = true) : x.inFlight = true := by
  rw [waiting] at h
  split at h
  next hpc => rw [inFlight, hpc]
  next hpc => rw [inFlight, hpc]
  next => cases h

namespace DiskSys

/-- The descriptors, the calls and what is killed stay as they are. -/
structure Quiet (s s' : DiskSys) : Prop where
  desc : s'.virtq.desc = s.virtq.desc
  freeHead : s'.virtq.freeHead = s.virtq.freeHead
  nfree : s'.virtq.nfree = s.virtq.nfree
  d0 : ∀ p, (s'.proc p).d0 = (s.proc p).d0
  inFlight : ∀ p, (s'.proc p).inFlight = (s.proc p).inFlight
  killed : ∀ p, (s.proc p).inFlight = true → (s'.proc p).killed = (s.proc p).killed

namespace Quiet

variable {s s' s'' : DiskSys} {p : Nat} {x : DiskProc}

theorem refl (s : DiskSys) : Quiet s s := ⟨rfl, rfl, rfl, fun _ => rfl, fun _ => rfl, fun _ _ => rfl⟩

theorem trans (h : Quiet s s') (h' : Quiet s' s'') : Quiet s s'' where
  desc := h'.desc.trans h.desc
  freeHead := h'.freeHead.trans h.freeHead
  nfree := h'.nfree.trans h.nfree
  d0 p := (h'.d0 p).trans (h.d0 p)
  inFlight p := (h'.inFlight p).trans (h.inFlight p)
  killed p hp := (h'.killed p ((h.inFlight p).trans hp)).trans (h.killed p hp)

theorem setProc (s : DiskSys) (hd0 : x.d0 = (s.proc p).d0) (hfl : x.inFlight = (s.proc p).inFlight)
    (hk : (s.proc p).inFlight = true → x.killed = (s.proc p).killed) :
    Quiet s (s.setProc p x) where
  desc := rfl
  freeHead := rfl
  nfree := rfl
  d0 := by
    rw [DiskSys.setProc, forall_update_iff s.proc fun q y => y.d0 = (s.proc q).d0]
    exact ⟨hd0, fun _ _ => rfl⟩
  inFlight := by
    rw [DiskSys.setProc, forall_update_iff s.proc fun q y => y.inFlight = (s.proc q).inFlight]
    exact ⟨hfl, fun _ _ => rfl⟩
  killed := by
    rw [DiskSys.setProc, forall_update_iff s.proc fun q y =>
      (s.proc q).inFlight = true → y.killed = (s.proc q).killed]
    exact ⟨hk, fun _ _ _ => rfl⟩

theorem post (h : s.post p = .ok s') : Quiet s s' := by
  rw [DiskSys.post] at h
  split at h
  next hw =>
    split at h
    next => cases h
    next sem w hpost =>
      cases h
      refine setProc s rfl ?_ fun _ => rfl
      rw [inFlight_of_waiting hw]
      split
      next => rfl
      next => exact inFlight_of_waiting hw
  next =>
    cases h
    exact refl s

theorem intrLoop {fuel : Nat} (h : DiskSys.intrLoop fuel s = .ok s') : Quiet s s' := by
  induction fuel generalizing s with
  | zero =>
    cases h
    exact refl _
  | succ fuel ih =>
    rw [DiskSys.intrLoop] at h
    dsimp only at h
    split at h
    next =>
      cases h
      exact refl _
    next =>
      split at h
      next => cases h
      next =>
        split at h
        next => cases h
        next p hp =>
          split at h
          next => cases h
          next s1 hpost =>
            have hquiet := ih h
            exact (post hpost).trans ⟨hquiet.desc, hquiet.freeHead, hquiet.nfree, hquiet.d0,
              hquiet.inFlight, hquiet.killed⟩

theorem complete {d status : Nat} (h : s.complete d status = .ok s') : Quiet s s' := by
  rw [DiskSys.complete] at h
  dsimp only at h
  split at h
  next p q i _ _ _ =>
    split at h
    next =>
      cases h
      have hq := setProc (p := q) (x := { s.proc q with
        reply := some ((s.proc p).buf.blockNo, (s.proc q).buf.data) }) s rfl rfl fun _ => rfl
      exact ⟨rfl, rfl, rfl, hq.d0, hq.inFlight, hq.killed⟩
    next =>
      cases h
      have hq := setProc (p := q) (x := { s.proc q with
        buf := { (s.proc q).buf with data := s.disk (s.proc p).buf.blockNo }
        reply := some ((s.proc p).buf.blockNo, s.disk (s.proc p).buf.blockNo) }) s rfl rfl
        fun _ => rfl
      exact ⟨rfl, rfl, rfl, hq.d0, hq.inFlight, hq.killed⟩
  next => cases h

end Quiet

/-- The eight descriptors are on the free chain and in the chains of the requests in flight. -/
structure DescInv (s : DiskSys) (free calls : List Nat) : Prop where
  isFree : s.virtq.IsFree free
  mem : ∀ p, p ∈ calls ↔ (s.proc p).inFlight = true
  nodup : calls.Nodup
  chain : ∀ p ∈ calls, ∃ d1 d2, s.virtq.IsChain p (s.proc p).d0 d1 d2
  perm : (free ++ calls.flatMap fun p => s.virtq.chain (s.proc p).d0).Perm (List.range NQUEUE)
  killed : ∀ p ∈ calls, (s.proc p).killed = false

variable {dirty : Bool}

namespace DescInv

variable {s s' : DiskSys} {free calls : List Nat} {p q a : Nat}

theorem chain_eq {vq vq' : Virtq} {d0 : Nat} (h : vq'.desc = vq.desc) :
    vq'.chain d0 = vq.chain d0 := by rw [Virtq.chain, Virtq.chain, h]

section

variable (h : DescInv s free calls)

include h

theorem quiet (hq : Quiet s s') : DescInv s' free calls where
  isFree := by
    refine ⟨?_, hq.nfree.trans h.isFree.nfree, h.isFree.nodup⟩
    rw [hq.desc, hq.freeHead]
    exact h.isFree.linked
  mem p := by rw [hq.inFlight p, h.mem p]
  nodup := h.nodup
  chain p hp := by
    obtain ⟨d1, d2, hc⟩ := h.chain p hp
    rw [hq.d0 p]
    exact ⟨d1, d2, hc.congr fun d _ => by rw [hq.desc]⟩
  perm := by
    have hchain : (fun p => s'.virtq.chain (s'.proc p).d0) = fun p => s.virtq.chain (s.proc p).d0 := by
      funext p
      rw [chain_eq hq.desc, hq.d0 p]
    rw [hchain]
    exact h.perm
  killed p hp := by rw [hq.killed p ((h.mem p).mp hp), h.killed p hp]

theorem nodup_all : (free ++ calls.flatMap fun p => s.virtq.chain (s.proc p).d0).Nodup :=
  h.perm.nodup_iff.mpr nodup_range

theorem disjoint_free (hp : p ∈ calls) : free.Disjoint (s.virtq.chain (s.proc p).d0) := by
  have hdisj := disjoint_of_nodup_append h.nodup_all
  intro d hd hc
  exact hdisj hd (mem_flatMap.mpr ⟨p, hp, hc⟩)

theorem disjoint_calls (hp : p ∈ calls) (hq : q ∈ calls) (hne : p ≠ q) :
    (s.virtq.chain (s.proc p).d0).Disjoint (s.virtq.chain (s.proc q).d0) := by
  have hnd := (nodup_append.mp h.nodup_all).2.1
  have hpair := (nodup_flatMap.mp hnd).2
  have hsymm : Std.Symm fun x y => (s.virtq.chain (s.proc x).d0).Disjoint (s.virtq.chain (s.proc y).d0) :=
    ⟨fun x y hxy => disjoint_symm hxy⟩
  exact hpair.forall hp hq hne

theorem nodup_chain (hp : p ∈ calls) : (s.virtq.chain (s.proc p).d0).Nodup :=
  (nodup_flatMap.mp (nodup_append.mp h.nodup_all).2.1).1 p hp

end

theorem length_chain (vq : Virtq) (d : Nat) : (vq.chain d).length = 3 := rfl

theorem length_eq (h : DescInv s free calls) : free.length + 3 * calls.length = NQUEUE := by
  have hlen := h.perm.length_eq
  rw [length_append, length_flatMap, length_range] at hlen
  rw [← hlen]
  simp [length_chain, Nat.mul_comm]

theorem keep_chain (h : DescInv s free calls) {vq : Virtq} (hq : q ∈ calls)
    (hdesc : ∀ d ∈ s.virtq.chain (s.proc q).d0, vq.desc d = s.virtq.desc d) :
    (∃ d1 d2, vq.IsChain q (s.proc q).d0 d1 d2) ∧
      vq.chain (s.proc q).d0 = s.virtq.chain (s.proc q).d0 := by
  obtain ⟨d1, d2, hc⟩ := h.chain q hq
  rw [hc.chain_eq] at hdesc
  have hc' := hc.congr hdesc
  exact ⟨⟨d1, d2, hc'⟩, hc'.chain_eq.trans hc.chain_eq.symm⟩

def submitted (s : DiskSys) (p a : Nat) (dirty : Bool) (data : Data) (d0 : Nat) (vq : Virtq) :
    DiskSys :=
  { s with virtq := vq }.setProc p { s.proc p with
    pc := .submitted
    buf := ⟨dirty, data, sectorOf (s.block a).blockNo, .initSem 0⟩
    d0 := d0
    block := a
    reply := none }

theorem submitted_self {a d0 : Nat} {vq : Virtq} :
    (submitted s p a dirty data d0 vq).proc p = { s.proc p with
      pc := .submitted
      buf := ⟨dirty, data, sectorOf (s.block a).blockNo, .initSem 0⟩
      d0 := d0
      block := a
      reply := none } := update_self ..

theorem submit {d0 d1 d2 : Nat} (h : DescInv s (d0 :: d1 :: d2 :: free) calls)
    (hp : (s.proc p).inFlight = false) (hk : (s.proc p).killed = false) (a : Nat) (dirty : Bool)
    (data : Data) :
    ∃ vq, s.submit p a dirty data = .ok (submitted s p a dirty data d0 vq) ∧
      DescInv (submitted s p a dirty data d0 vq) free (p :: calls) ∧
      Virtq.Submitted s.virtq vq p d0 d1 d2 free := by
  obtain ⟨vq, hrun, hsub⟩ := h.isFree.submit p dirty
  have hnew : p ∉ calls := by
    rw [h.mem p, hp]
    exact Bool.false_ne_true
  have hother : ∀ q ∈ calls, (submitted s p a dirty data d0 vq).proc q = s.proc q := by
    intro q hq
    refine update_of_ne ?_ _ _
    rintro rfl
    exact hnew hq
  have hkeep : ∀ q ∈ calls, (∃ d1 d2, vq.IsChain q (s.proc q).d0 d1 d2) ∧
      vq.chain (s.proc q).d0 = s.virtq.chain (s.proc q).d0 := by
    intro q hq
    refine h.keep_chain hq fun d hd => hsub.desc d fun hmem => ?_
    refine h.disjoint_free hq ?_ hd
    simp only [mem_cons, not_mem_nil, or_false] at hmem ⊢
    tauto
  refine ⟨vq, by rw [DiskSys.submit, hrun]; rfl, ?_, hsub⟩
  constructor
  · exact hsub.free
  · intro q
    rw [mem_cons]
    obtain rfl | hne := eq_or_ne q p
    · rw [submitted_self]
      exact ⟨fun _ => rfl, fun _ => Or.inl rfl⟩
    · have hq : (submitted s p a dirty data d0 vq).proc q = s.proc q :=
        update_of_ne hne _ _
      rw [hq, ← h.mem q]
      exact ⟨fun hor => hor.resolve_left hne, Or.inr⟩
  · exact nodup_cons.mpr ⟨hnew, h.nodup⟩
  · intro q hq
    rcases mem_cons.mp hq with rfl | hq
    · rw [submitted_self]
      exact ⟨d1, d2, hsub.chain⟩
    · rw [hother q hq]
      exact (hkeep q hq).1
  · have hflat : calls.flatMap (fun q => vq.chain ((submitted s p a dirty data d0 vq).proc q).d0) =
        calls.flatMap fun q => s.virtq.chain (s.proc q).d0 := by
      refine flatMap_congr fun q hq => ?_
      rw [hother q hq, (hkeep q hq).2]
    have hchain : vq.chain ((submitted s p a dirty data d0 vq).proc p).d0 = [d0, d1, d2] := by
      rw [submitted_self]
      exact hsub.chain.chain_eq
    change (free ++ (p :: calls).flatMap
      (fun q => vq.chain ((submitted s p a dirty data d0 vq).proc q).d0)).Perm _
    rw [flatMap_cons, hflat, hchain, ← append_assoc]
    refine List.Perm.trans ?_ h.perm
    have hswap : (free ++ [d0, d1, d2]).Perm ([d0, d1, d2] ++ free) := perm_append_comm
    exact hswap.append_right _
  · intro q hq
    rcases mem_cons.mp hq with rfl | hq
    · rw [submitted_self]
      exact hk
    · rw [hother q hq]
      exact h.killed q hq

theorem of_perm {calls' : List Nat} (h : DescInv s free calls) (hp : calls.Perm calls') :
    DescInv s free calls' where
  isFree := h.isFree
  mem q := by rw [← hp.mem_iff, h.mem q]
  nodup := hp.nodup_iff.mp h.nodup
  chain q hq := h.chain q (hp.mem_iff.mpr hq)
  perm := ((hp.flatMap_right _).symm.append_left free).trans h.perm
  killed q hq := h.killed q (hp.mem_iff.mpr hq)

/-- The state after the end of a call, with the queue `vq` before its descriptors are given back. -/
def finished (s : DiskSys) (p : Nat) (vq : Virtq) (d2 : Nat) : DiskSys :=
  { s with virtq := vq.freed (s.proc p).d0 d2 }.setProc p { s.proc p with pc := .returned }

theorem finish {d1 d2 : Nat} (h : DescInv s free (p :: calls))
    (hc : s.virtq.IsChain p (s.proc p).d0 d1 d2) (vq : Virtq) (hdesc : vq.desc = s.virtq.desc)
    (hhead : vq.freeHead = s.virtq.freeHead) (hnfree : vq.nfree = s.virtq.nfree) :
    vq.freeDesc (s.proc p).d0 = some (vq.freed (s.proc p).d0 d2) ∧
      DescInv (finished s p vq d2) ((s.proc p).d0 :: d1 :: d2 :: free) calls := by
  obtain ⟨hp, hcalls⟩ := nodup_cons.mp h.nodup
  have hmem : p ∈ p :: calls := mem_cons_self ..
  have hchain := hc.chain_eq
  have hc' := hc.congr fun d _ => by rw [hdesc]
  have hfree : vq.IsFree free := by
    refine ⟨?_, hnfree.trans h.isFree.nfree, h.isFree.nodup⟩
    rw [hdesc, hhead]
    exact h.isFree.linked
  have hnd : ((s.proc p).d0 :: d1 :: d2 :: free).Nodup := by
    have happ : ([(s.proc p).d0, d1, d2] ++ free).Nodup := by
      rw [← hchain]
      exact (h.nodup_chain hmem).append h.isFree.nodup (disjoint_symm (h.disjoint_free hmem))
    exact happ
  obtain ⟨hrun, hfree'⟩ := hc'.freeDesc hfree hnd
  have hother : ∀ q, q ≠ p → (finished s p vq d2).proc q = s.proc q :=
    fun q hq => update_of_ne hq _ _
  have hself : (finished s p vq d2).proc p = { s.proc p with pc := .returned } :=
    update_self ..
  have hne : ∀ q ∈ calls, q ≠ p := by
    rintro q hq rfl
    exact hp hq
  have hkeep : ∀ q ∈ calls, (∃ e1 e2, (finished s p vq d2).virtq.IsChain q (s.proc q).d0 e1 e2) ∧
      (finished s p vq d2).virtq.chain (s.proc q).d0 = s.virtq.chain (s.proc q).d0 := by
    intro q hq
    refine h.keep_chain (mem_cons_of_mem _ hq) fun d hd => ?_
    have hd2 : d ≠ d2 := by
      rintro rfl
      refine h.disjoint_calls hmem (mem_cons_of_mem _ hq) (hne q hq).symm ?_ hd
      rw [hchain]
      simp
    exact (update_of_ne hd2 _ _).trans (by rw [hdesc])
  refine ⟨hrun, ?_⟩
  constructor
  · exact hfree'
  · intro q
    obtain rfl | hq := eq_or_ne q p
    · rw [hself]
      exact ⟨fun hq => absurd hq hp, fun hq => absurd hq Bool.false_ne_true⟩
    · rw [hother q hq, ← h.mem q, mem_cons]
      exact ⟨Or.inr, fun hor => hor.resolve_left hq⟩
  · exact hcalls
  · intro q hq
    rw [hother q (hne q hq)]
    exact (hkeep q hq).1
  · have hflat : calls.flatMap (fun q => (finished s p vq d2).virtq.chain
        ((finished s p vq d2).proc q).d0) =
        calls.flatMap fun q => s.virtq.chain (s.proc q).d0 := by
      refine flatMap_congr fun q hq => ?_
      rw [hother q (hne q hq), (hkeep q hq).2]
    rw [hflat]
    have hperm := h.perm
    rw [flatMap_cons, hchain, ← append_assoc] at hperm
    refine List.Perm.trans ?_ hperm
    have hswap : ([(s.proc p).d0, d1, d2] ++ free).Perm (free ++ [(s.proc p).d0, d1, d2]) :=
      perm_append_comm
    exact hswap.append_right _
  · intro q hq
    rw [hother q (hne q hq)]
    exact h.killed q (mem_cons_of_mem _ hq)

section

variable (h : DescInv s free calls)

include h

theorem three_le (hs : s.submit p a dirty data = .ok s') :
    ∃ d0 d1 d2 rest, free = d0 :: d1 :: d2 :: rest := by
  have hlen : 3 ≤ free.length := by
    refine Nat.le_of_not_lt fun hlt => ?_
    rw [DiskSys.submit, h.isFree.submit_panic hlt] at hs
    cases hs
  match free, hlen with
  | d0 :: d1 :: d2 :: rest, _ => exact ⟨d0, d1, d2, rest, rfl⟩

/-- A call that waits has not been killed, so it does not return from `wait_sem` without a post. -/
theorem not_alert : s.step (.alert p) ≠ .ok s' := by
  intro hs
  obtain ⟨hpc, hs⟩ := Runs.guard_ok hs
  have hmem : p ∈ calls := by
    rw [h.mem p, inFlight, hpc.1]
  rw [h.killed p hmem] at hpc
  exact Bool.false_ne_true hpc.2

theorem step_finish (hs : s.step (.finish p) = .ok s') :
    ∃ d1 d2 calls', calls.Perm (p :: calls') ∧ s.virtq.IsChain p (s.proc p).d0 d1 d2 ∧
      (s.proc p).pc = .woken ∧
      s' = finished s p (s.virtq.setInfo (s.proc p).d0
        { s.virtq.info (s.proc p).d0 with done := 0 }) d2 ∧
      DescInv s' ((s.proc p).d0 :: d1 :: d2 :: free) calls' := by
  obtain ⟨hpc, hs⟩ := Runs.guard_ok hs
  have hmem : p ∈ calls := by
    rw [h.mem p, inFlight, hpc]
  obtain ⟨d1, d2, hc⟩ := h.chain p hmem
  have hperm := perm_cons_erase hmem
  obtain ⟨hrun, hinv⟩ := (h.of_perm hperm).finish hc
    (s.virtq.setInfo (s.proc p).d0 { s.virtq.info (s.proc p).d0 with done := 0 }) rfl rfl rfl
  rw [hrun] at hs
  cases hs
  exact ⟨d1, d2, calls.erase p, hperm, hc, hpc, rfl, hinv⟩

theorem step_submit (hpc : (s.proc p).pc = .idle) (hk : (s.proc p).killed = false)
    (hs : s.submit p a dirty data = .ok s') :
    ∃ d0 d1 d2 rest vq, free = d0 :: d1 :: d2 :: rest ∧
      s' = submitted s p a dirty data d0 vq ∧ Virtq.Submitted s.virtq vq p d0 d1 d2 rest ∧
      DescInv s' rest (p :: calls) := by
  obtain ⟨d0, d1, d2, rest, rfl⟩ := h.three_le hs
  have hfl : (s.proc p).inFlight = false := by rw [inFlight, hpc]
  obtain ⟨vq, hrun, hinv, hsub⟩ := h.submit hfl hk a dirty data
  rw [hrun] at hs
  cases hs
  exact ⟨d0, d1, d2, rest, vq, rfl, rfl, hsub, hinv⟩

theorem step {l : DiskAct} (hok : NoAbort s l)
    (hs : s.step l = .ok s') : ∃ free' calls', DescInv s' free' calls' := by
  cases l with
  | read p a stack =>
    obtain ⟨hpc, hs⟩ := Runs.guard_ok hs
    obtain ⟨_, _, _, rest, _, _, _, _, hinv⟩ := h.step_submit hpc hok hs
    exact ⟨rest, _, hinv⟩
  | write p a =>
    obtain ⟨hpc, hs⟩ := Runs.guard_ok hs
    obtain ⟨_, _, _, rest, _, _, _, _, hinv⟩ := h.step_submit hpc hok hs
    exact ⟨rest, _, hinv⟩
  | wait p =>
    obtain ⟨hpc, ⟨⟩⟩ := Runs.guard_ok hs
    refine ⟨free, calls, h.quiet (Quiet.setProc s rfl ?_ fun _ => rfl)⟩
    have hp : (s.proc p).inFlight = true := by rw [inFlight, hpc]
    rw [hp]
    split <;> rfl
  | wake p =>
    obtain ⟨hpc, ⟨⟩⟩ := Runs.guard_ok hs
    refine ⟨free, calls, h.quiet (Quiet.setProc s rfl ?_ fun _ => rfl)⟩
    have hp : (s.proc p).inFlight = true := by rw [inFlight, hpc]
    rw [hp]
    rfl
  | alert p => exact absurd hs h.not_alert
  | finish p =>
    obtain ⟨d1, d2, calls', _, _, _, _, hinv⟩ := h.step_finish hs
    exact ⟨_, calls', hinv⟩
  | ret p =>
    obtain ⟨hpc, ⟨⟩⟩ := Runs.guard_ok hs
    have hp : (s.proc p).inFlight = false := by rw [inFlight, hpc]
    have hq : Quiet s (s.setProc p { s.proc p with pc := .idle }) :=
      Quiet.setProc s rfl (by rw [hp]; rfl) fun _ => rfl
    refine ⟨free, calls, h.quiet ?_⟩
    rw [DiskSys.ret]
    split
    next => exact hq
    next => exact ⟨rfl, rfl, rfl, hq.d0, hq.inFlight, hq.killed⟩
  | kill p =>
    cases hs
    refine ⟨free, calls, h.quiet (Quiet.setProc s rfl rfl fun hp => ?_)⟩
    have hnot : (s.proc p).inFlight = false := hok
    rw [hp] at hnot
    cases hnot
  | store a data =>
    cases hs
    exact ⟨free, calls, h.quiet ⟨rfl, rfl, rfl, fun _ => rfl, fun _ => rfl, fun _ _ => rfl⟩⟩
  | fetch =>
    rw [DiskSys.step] at hs
    split at hs
    next => cases hs
    next =>
      cases hs
      exact ⟨free, calls, h.quiet ⟨rfl, rfl, rfl, fun _ => rfl, fun _ => rfl, fun _ _ => rfl⟩⟩
  | complete d status =>
    obtain ⟨-, hs⟩ := Runs.guard_ok hs
    exact ⟨free, calls, h.quiet (Quiet.complete hs)⟩
  | intr => exact ⟨free, calls, h.quiet (Quiet.intrLoop hs)⟩

end

theorem init (h : Init s) : DescInv s (List.range NQUEUE) [] := by
  obtain ⟨hvq, _, hproc⟩ := h
  constructor
  · rw [hvq]
    refine ⟨?_, rfl, nodup_range⟩
    simp [Linked, List.range, List.range.loop, NQUEUE, Virtq.init, Virtq.descInit,
      VirtqDesc.hasNext, VirtqDesc.zero, VIRTQ_DESC_F_NEXT]
  · intro p
    rw [inFlight, (hproc p).1]
    simp
  · exact nodup_nil
  · simp
  · simp
  · simp

end DescInv

theorem exists_descInv {s : DiskSys} (h : Runs.Reach step NoAbort Init s) :
    ∃ free calls, DescInv s free calls :=
  h.invariant (I := fun s => ∃ free calls, DescInv s free calls)
    (fun _ hs => ⟨_, _, DescInv.init hs⟩)
    (fun _ _ _ hI hok hs => by
      obtain ⟨free, calls, hI⟩ := hI
      exact hI.step hok hs)

end DiskSys

/-- The disk after `virtio_init`, with block `a` of the cache for the block number `a`. -/
def bootedDisk : DiskSys where
  virtq := .init
  disk _ := Bytes.zero
  busy := []
  proc _ := ⟨.idle, ⟨false, Bytes.zero, 0, .initSem 0⟩, 0, 0, false, none⟩
  block a := { initBlock with blockNo := a }

theorem bootedDisk_init : DiskSys.Init bootedDisk := ⟨rfl, rfl, fun _ => ⟨rfl, rfl⟩⟩

end OsKernel
