import Mathlib.Data.List.Perm.Subperm
import OsKernel.Driver.Descriptors

/-!
# Requests and their completion

A request in flight is in the ring of available ones, with the device, in the ring of used ones, or
it has been posted.  The device has transferred its data from the third stage on, and the process of
a request that has not been posted does not get past `wait_sem`.
-/

namespace OsKernel

open Function List DiskSys DiskProc DescInv

namespace DiskProc

/-- The process of a request that has not been posted. -/
def Unposted (x : DiskProc) (p : Nat) : Prop :=
  x.pc = .submitted ∧ x.buf.sem = ⟨0, []⟩ ∨ x.pc = .asleep false ∧ x.buf.sem = ⟨-1, [p]⟩

/-- The process of a request that has been posted. -/
def Posted (x : DiskProc) : Prop :=
  x.pc = .submitted ∧ x.buf.sem = ⟨1, []⟩ ∨ x.pc = .asleep true ∨ x.pc = .woken

/-- The device has transferred the data of the `Buf`. -/
def Replied (x : DiskProc) : Prop := x.reply = some (x.buf.blockNo, x.buf.data)

end DiskProc

namespace DiskSys

/-- The request of process `p`, whose call is `x`; `heads` are the requests that have not been
posted and `used` those of them that are in the ring of used ones. -/
structure CallOk (s : DiskSys) (heads used : List Nat) (p : Nat) (x : DiskProc) : Prop where
  sector : x.buf.blockNo = sectorOf (s.block x.block).blockNo
  stage :
    (x.Unposted p ∧ (s.virtq.info x.d0).buf = some p ∧ x.d0 ∈ heads ∧ (x.d0 ∈ used → x.Replied)) ∨
    (x.Posted ∧ x.d0 ∉ heads ∧ x.Replied)

def heads (s : DiskSys) (avail used : List Nat) : List Nat := avail ++ (s.busy ++ used)

structure IoInv (s : DiskSys) (free calls avail used : List Nat) : Prop where
  desc : DescInv s free calls
  availQueue : s.virtq.avail.IsQueue NQUEUE IDX_RANGE avail
  usedQueue : s.virtq.used.IsQueue NQUEUE IDX_RANGE used
  nodup : (s.heads avail used).Nodup
  head : ∀ d ∈ s.heads avail used, ∃ p ∈ calls, (s.proc p).d0 = d
  call : ∀ p ∈ calls, CallOk s (s.heads avail used) used p (s.proc p)
  returned : ∀ p, (s.proc p).pc = .returned → (s.proc p).Replied ∧
    (s.proc p).buf.blockNo = sectorOf (s.block (s.proc p).block).blockNo

theorem CallOk.congr {s s' : DiskSys} {heads heads' used used' : List Nat} {p : Nat}
    {x : DiskProc} (h : CallOk s heads used p x)
    (hinfo : (s'.virtq.info x.d0).buf = (s.virtq.info x.d0).buf)
    (hblock : ∀ a, (s'.block a).blockNo = (s.block a).blockNo)
    (hheads : x.d0 ∈ heads' ↔ x.d0 ∈ heads) (hused : x.d0 ∈ used' ↔ x.d0 ∈ used) :
    CallOk s' heads' used' p x where
  sector := by
    rw [hblock]
    exact h.sector
  stage := by
    rw [hinfo, hheads, hused]
    exact h.stage

namespace IoInv

variable {s s' : DiskSys} {free calls avail used : List Nat} {p q a d : Nat}

theorem dvd : NQUEUE ∣ IDX_RANGE := by decide

theorem lt : NQUEUE < IDX_RANGE := by decide

theorem d0_inj (h : DescInv s free calls) (hp : p ∈ calls) (hq : q ∈ calls)
    (hd : (s.proc p).d0 = (s.proc q).d0) : p = q := by
  cases hpq : decide (p = q) with
  | true => exact of_decide_eq_true hpq
  | false =>
    have hdisj := h.disjoint_calls hp hq (of_decide_eq_false hpq)
    exact absurd (mem_cons_self ..) fun hm => hdisj (mem_cons_self ..) (hd ▸ hm)

theorem length_heads (h : IoInv s free calls avail used) :
    (s.heads avail used).length ≤ calls.length := by
  have hsub : s.heads avail used ⊆ calls.map fun p => (s.proc p).d0 := by
    intro d hd
    obtain ⟨p, hp, rfl⟩ := h.head d hd
    exact mem_map.mpr ⟨p, hp, rfl⟩
  have hlen := (subperm_of_subset h.nodup hsub).length_le
  rw [length_map] at hlen
  exact hlen

theorem length_queues (h : IoInv s free calls avail used) :
    avail.length < NQUEUE ∧ used.length < NQUEUE := by
  have hlen := h.length_heads
  have hcalls := h.desc.length_eq
  rw [heads, length_append, length_append] at hlen
  rw [NQUEUE] at hcalls ⊢
  omega

theorem init (h : Init s) : IoInv s (List.range NQUEUE) [] [] [] := by
  have hdesc := DescInv.init h
  obtain ⟨hvq, hbusy, hproc⟩ := h
  constructor
  · exact hdesc
  · rw [hvq]
    exact RingBuffer.IsQueue.init _
  · rw [hvq]
    exact RingBuffer.IsQueue.init _
  · simp [heads, hbusy]
  · simp [heads, hbusy]
  · simp
  · intro p hp
    rw [(hproc p).1] at hp
    cases hp

section

variable (h : IoInv s free calls avail used)

include h

theorem submit {dirty : Bool} {data : Data}
    (hpc : (s.proc p).pc = .idle) (hk : (s.proc p).killed = false)
    (hs : s.submit p a dirty data = .ok s') :
    ∃ free' d0, IoInv s' free' (p :: calls) (avail ++ [d0]) used := by
  obtain ⟨d0, d1, d2, rest, vq, rfl, rfl, hsub, hdesc⟩ := h.desc.step_submit hpc hk hs
  have hnew : p ∉ calls := (nodup_cons.mp hdesc.nodup).1
  have hother : ∀ q, q ≠ p → (submitted s p a dirty data d0 vq).proc q = s.proc q :=
    fun q hq => update_of_ne hq _ _
  -- the new descriptor was free
  have hfresh : ∀ q ∈ calls, (s.proc q).d0 ≠ d0 := by
    rintro q hq rfl
    exact h.desc.disjoint_free hq (mem_cons_self ..) (mem_cons_self ..)
  have hhead : d0 ∉ s.heads avail used := by
    intro hd
    obtain ⟨q, hq, hqd⟩ := h.head d0 hd
    exact hfresh q hq hqd
  have hperm : ((submitted s p a dirty data d0 vq).heads (avail ++ [d0]) used).Perm
      (d0 :: s.heads avail used) := by
    have hassoc : (submitted s p a dirty data d0 vq).heads (avail ++ [d0]) used =
        avail ++ d0 :: (s.busy ++ used) := by
      rw [heads, append_assoc]
      rfl
    rw [hassoc]
    exact perm_middle
  refine ⟨rest, d0, hdesc, ?_, ?_, ?_, ?_, ?_, ?_⟩
  · change vq.avail.IsQueue NQUEUE IDX_RANGE (avail ++ [d0])
    rw [hsub.avail]
    exact h.availQueue.push dvd lt h.length_queues.1 d0
  · change vq.used.IsQueue NQUEUE IDX_RANGE used
    rw [hsub.used]
    exact h.usedQueue
  · rw [hperm.nodup_iff]
    exact nodup_cons.mpr ⟨hhead, h.nodup⟩
  · intro d hd
    rcases mem_cons.mp (hperm.mem_iff.mp hd) with rfl | hd
    · exact ⟨p, mem_cons_self .., by rw [submitted_self]⟩
    · obtain ⟨q, hq, rfl⟩ := h.head d hd
      refine ⟨q, mem_cons_of_mem _ hq, ?_⟩
      rw [hother q]
      rintro rfl
      exact hnew hq
  · intro q hq
    rcases mem_cons.mp hq with rfl | hq
    · rw [submitted_self]
      refine ⟨rfl, .inl ⟨.inl ⟨rfl, rfl⟩, ?_, ?_, ?_⟩⟩
      · change (vq.info d0).buf = _
        rw [hsub.info, update_self]
      · rw [hperm.mem_iff]
        exact mem_cons_self ..
      · intro hd
        exact absurd (mem_append_right _ (mem_append_right _ hd)) hhead
    · have hqp : q ≠ p := fun he => hnew (he ▸ hq)
      rw [hother q hqp]
      refine (h.call q hq).congr ?_ (fun _ => rfl) ?_ Iff.rfl
      · change (vq.info (s.proc q).d0).buf = _
        rw [hsub.info, update_of_ne (hfresh q hq)]
      · rw [hperm.mem_iff, mem_cons]
        exact ⟨fun hor => hor.resolve_left (hfresh q hq), Or.inr⟩
  · intro q hq
    have hqp : q ≠ p := by
      rintro rfl
      rw [submitted_self] at hq
      cases hq
    rw [hother q hqp] at hq ⊢
    exact h.returned q hq

theorem setProc {x : DiskProc} (hp : p ∈ calls)
    (hq : Quiet s (s.setProc p x)) (hret : x.pc ≠ .returned) (hd0 : x.d0 = (s.proc p).d0)
    (hcall : CallOk s (s.heads avail used) used p x) :
    IoInv (s.setProc p x) free calls avail used := by
  have hother : ∀ r, r ≠ p → (s.setProc p x).proc r = s.proc r := fun r hr => update_of_ne hr _ _
  have hself : (s.setProc p x).proc p = x := update_self ..
  refine ⟨h.desc.quiet hq, h.availQueue, h.usedQueue, h.nodup, ?_, ?_, ?_⟩
  · intro d hd
    obtain ⟨r, hr, hrd⟩ := h.head d hd
    exact ⟨r, hr, (hq.d0 r).trans hrd⟩
  · intro r hr
    obtain rfl | hrp := eq_or_ne r p
    · rw [hself]
      exact hcall.congr rfl (fun _ => rfl) Iff.rfl Iff.rfl
    · rw [hother r hrp]
      exact (h.call r hr).congr rfl (fun _ => rfl) Iff.rfl Iff.rfl
  intro r hr
  have hrp : r ≠ p := by
    rintro rfl
    rw [hself] at hr
    exact hret hr
  rw [hother r hrp] at hr ⊢
  exact h.returned r hr

theorem wait (hpc : (s.proc p).pc = .submitted) : IoInv (s.setProc p { s.proc p with
      buf := { (s.proc p).buf with sem := ((s.proc p).buf.sem.waitSem p).1 }
      pc := if ((s.proc p).buf.sem.waitSem p).2 then .woken else .asleep false })
      free calls avail used := by
  have hfl : (s.proc p).inFlight = true := by rw [inFlight, hpc]
  have hp : p ∈ calls := (h.desc.mem p).mpr hfl
  have hcall := h.call p hp
  refine h.setProc hp (Quiet.setProc s rfl ?_ fun _ => rfl) ?_ rfl ?_
  · rw [hfl]
    split <;> rfl
  · dsimp only
    split <;> decide
  refine ⟨hcall.sector, ?_⟩
  · rcases hcall.stage with ⟨hun, hinfo, hhead, hused⟩ | ⟨hpost, hhead, hrep⟩
    · refine .inl ⟨?_, hinfo, hhead, hused⟩
      rcases hun with ⟨_, hsem⟩ | ⟨hpc', _⟩
      · refine .inr ⟨?_, ?_⟩ <;> rw [hsem] <;> rfl
      · rw [hpc] at hpc'
        cases hpc'
    refine .inr ⟨?_, hhead, hrep⟩
    rcases hpost with ⟨_, hsem⟩ | hpc' | hpc'
    · refine .inr (.inr ?_)
      rw [hsem]
      rfl
    · rw [hpc] at hpc'
      cases hpc'
    · rw [hpc] at hpc'
      cases hpc'

theorem wake (hpc : (s.proc p).pc = .asleep true) :
    IoInv (s.setProc p { s.proc p with pc := .woken }) free calls avail used := by
  have hfl : (s.proc p).inFlight = true := by rw [inFlight, hpc]
  have hp : p ∈ calls := (h.desc.mem p).mpr hfl
  have hcall := h.call p hp
  refine h.setProc hp (Quiet.setProc s rfl (by rw [hfl]; rfl) fun _ => rfl) (by simp) rfl ?_
  refine ⟨hcall.sector, ?_⟩
  rcases hcall.stage with ⟨hun, _⟩ | ⟨_, hhead, hrep⟩
  · rcases hun with ⟨hpc', _⟩ | ⟨hpc', _⟩ <;> rw [hpc] at hpc' <;> cases hpc'
  · exact .inr ⟨.inr (.inr rfl), hhead, hrep⟩

theorem congr (hvq : s'.virtq = s.virtq) (hbusy : s'.busy = s.busy) (hquiet : Quiet s s')
    (hcalls : ∀ p ∈ calls, s'.proc p = s.proc p)
    (hblock : ∀ a, (s'.block a).blockNo = (s.block a).blockNo)
    (hret : ∀ p, (s'.proc p).pc = .returned → (s'.proc p).Replied ∧
      (s'.proc p).buf.blockNo = sectorOf (s'.block (s'.proc p).block).blockNo) :
    IoInv s' free calls avail used where
  desc := h.desc.quiet hquiet
  availQueue := hvq ▸ h.availQueue
  usedQueue := hvq ▸ h.usedQueue
  nodup := by
    rw [heads, hbusy]
    exact h.nodup
  head d hd := by
    rw [heads, hbusy] at hd
    obtain ⟨p, hp, hpd⟩ := h.head d hd
    exact ⟨p, hp, by rw [hcalls p hp, hpd]⟩
  call p hp := by
    rw [hcalls p hp]
    refine (h.call p hp).congr (by rw [hvq]) hblock ?_ Iff.rfl
    rw [heads, hbusy]
    rfl
  returned := hret

theorem fetch (hne : s.virtq.avail.nread ≠ s.virtq.avail.nwrite) : ∃ avail', IoInv { s with
      virtq := { s.virtq with avail := s.virtq.avail.pop IDX_RANGE }
      busy := s.virtq.avail.front NQUEUE :: s.busy } free calls avail' used := by
  cases avail with
  | nil => exact absurd ((h.availQueue.empty_iff lt).mpr rfl) hne
  | cons d avail =>
    have hfront := h.availQueue.front dvd
    rw [hfront]
    have hperm : (avail ++ (d :: s.busy ++ used)).Perm (s.heads (d :: avail) used) :=
      perm_middle
    refine ⟨avail, h.desc.quiet ⟨rfl, rfl, rfl, fun _ => rfl, fun _ => rfl, fun _ _ => rfl⟩,
      h.availQueue.pop dvd lt, h.usedQueue, hperm.nodup_iff.mpr h.nodup, ?_, ?_, h.returned⟩
    · intro e he
      exact h.head e (hperm.mem_iff.mp he)
    · intro p hp
      exact (h.call p hp).congr rfl (fun _ => rfl) hperm.mem_iff Iff.rfl

theorem complete {status : Nat} (hd : d ∈ s.busy)
    (hs : s.complete d status = .ok s') : ∃ used', IoInv s' free calls avail used' := by
  have hquiet := Quiet.complete hs
  have hheads : d ∈ s.heads avail used := mem_append_right _ (mem_append_left _ hd)
  obtain ⟨p, hp, rfl⟩ := h.head d hheads
  obtain ⟨d1, d2, hc⟩ := h.desc.chain p hp
  have hcall := h.call p hp
  have hperm : (avail ++ (s.busy.erase (s.proc p).d0 ++ (used ++ [(s.proc p).d0]))).Perm
      (s.heads avail used) := by
    refine List.Perm.append_left _ ?_
    rw [← append_assoc]
    refine perm_append_comm.trans ?_
    exact ((perm_cons_erase hd).append_right used).symm
  have hused : (s.virtq.used.push NQUEUE IDX_RANGE (s.proc p).d0).IsQueue NQUEUE IDX_RANGE
      (used ++ [(s.proc p).d0]) := h.usedQueue.push dvd lt h.length_queues.2 _
  have hunposted : (s.proc p).Unposted p ∧ (s.virtq.info (s.proc p).d0).buf = some p := by
    rcases hcall.stage with ⟨hun, hinfo, _⟩ | ⟨_, hnot, _⟩
    · exact ⟨hun, hinfo⟩
    · exact absurd hheads hnot
  -- the state after the step, for either direction of the transfer
  obtain ⟨x, hx, hd0, hun, hsector, hblk, hrep, hvq, hbusy, hproc, hblock⟩ :
      ∃ x : DiskProc, x.pc = (s.proc p).pc ∧ x.d0 = (s.proc p).d0 ∧ x.buf.sem = (s.proc p).buf.sem ∧
        x.buf.blockNo = (s.proc p).buf.blockNo ∧ x.block = (s.proc p).block ∧ x.Replied ∧
        s'.virtq = { s.virtq.setInfo (s.proc p).d0
          { s.virtq.info (s.proc p).d0 with status := status } with
          used := s.virtq.used.push NQUEUE IDX_RANGE (s.proc p).d0 } ∧
        s'.busy = s.busy.erase (s.proc p).d0 ∧ s'.proc = update s.proc p x ∧
        s'.block = s.block := by
    rw [complete, hc.hdr.1, hc.hdr.2.2, hc.data.1, hc.data.2.2, hc.status.1] at hs
    dsimp only at hs
    split at hs
    next =>
      cases hs
      exact ⟨{ s.proc p with reply := some ((s.proc p).buf.blockNo, (s.proc p).buf.data) }, rfl, rfl,
        rfl, rfl, rfl, rfl, rfl, rfl, rfl, rfl⟩
    next =>
      cases hs
      exact ⟨{ s.proc p with
          buf := { (s.proc p).buf with data := s.disk (s.proc p).buf.blockNo }
          reply := some ((s.proc p).buf.blockNo, s.disk (s.proc p).buf.blockNo) }, rfl, rfl,
        rfl, rfl, rfl, rfl, rfl, rfl, rfl, rfl⟩
  have hother : ∀ q, q ≠ p → s'.proc q = s.proc q := by
    intro q hq
    rw [hproc]
    exact update_of_ne hq _ _
  have hself : s'.proc p = x := by
    rw [hproc]
    exact update_self ..
  have hheads' : s'.heads avail (used ++ [(s.proc p).d0]) =
      avail ++ (s.busy.erase (s.proc p).d0 ++ (used ++ [(s.proc p).d0])) := by
    rw [heads, hbusy]
  have hinfo : ∀ e, (s'.virtq.info e).buf = (s.virtq.info e).buf := by
    intro e
    rw [hvq]
    change ((update s.virtq.info (s.proc p).d0 _) e).buf = _
    obtain rfl | he := eq_or_ne e ((s.proc p).d0)
    · rw [update_self]
    · rw [update_of_ne he]
  refine ⟨used ++ [(s.proc p).d0], h.desc.quiet hquiet, ?_, ?_, ?_, ?_, ?_, ?_⟩
  · rw [hvq]
    exact h.availQueue
  · rw [hvq]
    exact hused
  · rw [hheads', hperm.nodup_iff]
    exact h.nodup
  · intro e he
    rw [hheads', hperm.mem_iff] at he
    obtain ⟨q, hq, rfl⟩ := h.head e he
    exact ⟨q, hq, hquiet.d0 q⟩
  · intro q hq
    obtain rfl | hne := eq_or_ne q p
    · rw [hself]
      refine ⟨?_, .inl ⟨?_, ?_, ?_, fun _ => hrep⟩⟩
      · rw [hsector, hblk, hblock]
        exact hcall.sector
      · rw [DiskProc.Unposted, hx, hun]
        exact hunposted.1
      · rw [hinfo, hd0]
        exact hunposted.2
      · rw [hheads', hperm.mem_iff, hd0]
        exact hheads
    · rw [hother q hne]
      refine (h.call q hq).congr (hinfo _) (fun b => by rw [hblock]) ?_ ?_
      · rw [hheads', hperm.mem_iff]
      · rw [mem_append, mem_singleton]
        exact ⟨fun hor => hor.resolve_right fun he => hne (d0_inj h.desc hq hp he), Or.inl⟩
  · intro q hq
    have hne : q ≠ p := by
      rintro rfl
      have hfl := (h.desc.mem q).mp hp
      rw [hself, hx] at hq
      rw [inFlight, hq] at hfl
      cases hfl
    rw [hother q hne] at hq ⊢
    rw [hblock]
    exact h.returned q hq

end

theorem post (h : (s.proc p).Unposted p) :
    ∃ x : DiskProc, s.post p = .ok (s.setProc p x) ∧ x.Posted ∧ x.inFlight = true ∧
      x.d0 = (s.proc p).d0 ∧ x.killed = (s.proc p).killed ∧ x.block = (s.proc p).block ∧
      x.buf.blockNo = (s.proc p).buf.blockNo ∧ ((s.proc p).Replied → x.Replied) := by
  rcases h with ⟨hpc, hsem⟩ | ⟨hpc, hsem⟩
  · refine ⟨{ s.proc p with buf := { (s.proc p).buf with sem := ⟨1, []⟩ } }, ?_, .inl ⟨hpc, rfl⟩, ?_,
      rfl, rfl, rfl, rfl, id⟩
    · have hw : (s.proc p).waiting = true := by rw [waiting, hpc]
      have hpost : (s.proc p).buf.sem.postSem = some (⟨1, []⟩, none) := by
        rw [hsem]
        rfl
      rw [DiskSys.post, if_pos hw, hpost]
      rfl
    · rw [inFlight, hpc]
  · refine ⟨{ s.proc p with buf := { (s.proc p).buf with sem := ⟨0, []⟩ }, pc := .asleep true }, ?_,
      Or.inr (.inl rfl), rfl, rfl, rfl, rfl, rfl, id⟩
    have hw : (s.proc p).waiting = true := by rw [waiting, hpc]
    have hpost : (s.proc p).buf.sem.postSem = some (⟨0, []⟩, some p) := by
      rw [hsem]
      rfl
    rw [DiskSys.post, if_pos hw, hpost]
    dsimp only
    rw [if_pos rfl]

theorem intrTurn (h : IoInv s free calls avail (d :: used)) :
    ∃ p s1, (s.virtq.info d).buf = some p ∧ s.post p = .ok s1 ∧
      IoInv { s1 with virtq := { s1.virtq.setInfo d { s.virtq.info d with done := 1, buf := none } with
        used := s1.virtq.used.pop IDX_RANGE } } free calls avail used := by
  have hheads : d ∈ s.heads avail (d :: used) :=
    mem_append_right _ (mem_append_right _ (mem_cons_self ..))
  obtain ⟨p, hp, rfl⟩ := h.head d hheads
  have hcall := h.call p hp
  obtain ⟨hun, hinfo, hrep⟩ : (s.proc p).Unposted p ∧ (s.virtq.info (s.proc p).d0).buf = some p ∧
      (s.proc p).Replied := by
    rcases hcall.stage with ⟨hun, hinfo, _, hrep⟩ | ⟨_, hnot, _⟩
    · exact ⟨hun, hinfo, hrep (mem_cons_self ..)⟩
    · exact absurd hheads hnot
  obtain ⟨x, hpost, hposted, hfl, hd0, hk, hblk, hno, hrep'⟩ := post hun
  have hpfl := (h.desc.mem p).mp hp
  have hquiet := Quiet.setProc s hd0 (hfl.trans hpfl.symm) fun _ => hk
  have hother : ∀ q, q ≠ p → (s.setProc p x).proc q = s.proc q := fun q hq => update_of_ne hq _ _
  have hself : (s.setProc p x).proc p = x := update_self ..
  have hperm : (s.heads avail ((s.proc p).d0 :: used)).Perm ((s.proc p).d0 :: s.heads avail used) := by
    rw [heads, heads, ← append_assoc, ← append_assoc]
    exact perm_middle
  obtain ⟨hnot, hnd⟩ := nodup_cons.mp (hperm.nodup_iff.mp h.nodup)
  refine ⟨p, _, hinfo, hpost, h.desc.quiet ⟨rfl, rfl, rfl, hquiet.d0, hquiet.inFlight, hquiet.killed⟩,
    h.availQueue, h.usedQueue.pop dvd lt, hnd, ?_, ?_, ?_⟩
  · intro e he
    obtain ⟨q, hq, rfl⟩ := h.head e (hperm.mem_iff.mpr (mem_cons_of_mem _ he))
    exact ⟨q, hq, hquiet.d0 q⟩
  · intro q hq
    obtain rfl | hne := eq_or_ne q p
    · rw [hself]
      refine ⟨?_, .inr ⟨hposted, ?_, hrep' hrep⟩⟩
      · rw [hno, hblk]
        exact hcall.sector
      · rw [hd0]
        exact hnot
    have hd : (s.proc q).d0 ≠ (s.proc p).d0 := fun he => hne (d0_inj h.desc hq hp he)
    rw [hother q hne]
    refine (h.call q hq).congr ?_ (fun _ => rfl) ?_ ?_
    · change ((update s.virtq.info (s.proc p).d0 _) (s.proc q).d0).buf = _
      rw [update_of_ne hd]
    · rw [hperm.mem_iff, mem_cons]
      exact ⟨Or.inr, fun hor => hor.resolve_left hd⟩
    · rw [mem_cons]
      exact ⟨Or.inr, fun hor => hor.resolve_left hd⟩
  · intro q hq
    have hne : q ≠ p := by
      rintro rfl
      rw [hself] at hq
      rw [inFlight, hq] at hfl
      cases hfl
    rw [hother q hne] at hq ⊢
    exact h.returned q hq

section

variable (h : IoInv s free calls avail used)

include h

theorem intrLoop {fuel : Nat}
    (hs : DiskSys.intrLoop fuel s = .ok s') : ∃ used', IoInv s' free calls avail used' := by
  induction fuel generalizing s used with
  | zero =>
    cases hs
    exact ⟨used, h⟩
  | succ fuel ih =>
    rw [intrLoop] at hs
    dsimp only at hs
    split at hs
    next =>
      cases hs
      exact ⟨used, h⟩
    next hne =>
      cases used with
      | nil => exact absurd ((h.usedQueue.empty_iff lt).mpr rfl) hne
      | cons d used =>
        obtain ⟨p, s1, hinfo, hpost, hinv⟩ := h.intrTurn
        rw [h.usedQueue.front dvd, hinfo] at hs
        dsimp only at hs
        split at hs
        next => cases hs
        next =>
          rw [hpost] at hs
          exact ih hinv hs

theorem finish (hs : s.step (.finish p) = .ok s') :
    (s.proc p).Replied ∧ (∀ d ∈ s.virtq.chain (s.proc p).d0, d ∈ s'.virtq.freeChain) ∧
      ∃ free' calls', IoInv s' free' calls' avail used := by
  obtain ⟨d1, d2, calls', hperm, hc, hpc, rfl, hdesc⟩ := h.desc.step_finish hs
  have hp : p ∈ calls := hperm.mem_iff.mpr (mem_cons_self ..)
  have hnd := hperm.nodup_iff.mp h.desc.nodup
  have hcall := h.call p hp
  obtain ⟨hnot, hrep⟩ : (s.proc p).d0 ∉ s.heads avail used ∧ (s.proc p).Replied := by
    rcases hcall.stage with ⟨hun, _⟩ | ⟨_, hnot, hrep⟩
    · rcases hun with ⟨hpc', _⟩ | ⟨hpc', _⟩ <;> rw [hpc] at hpc' <;> cases hpc'
    · exact ⟨hnot, hrep⟩
  have hne : ∀ q ∈ calls', q ≠ p := by
    rintro q hq rfl
    exact (nodup_cons.mp hnd).1 hq
  have hcalls : ∀ q ∈ calls', q ∈ calls := fun q hq => hperm.mem_iff.mpr (mem_cons_of_mem _ hq)
  refine ⟨hrep, ?_, _, calls', hdesc, h.availQueue, h.usedQueue, h.nodup, ?_, ?_, ?_⟩
  · rw [hc.chain_eq, hdesc.isFree.freeChain_eq]
    intro d hd
    simp only [mem_cons, not_mem_nil, or_false] at hd ⊢
    tauto
  · intro d hd
    obtain ⟨q, hq, rfl⟩ := h.head d hd
    have hqp : q ≠ p := by
      rintro rfl
      exact hnot hd
    refine ⟨q, ?_, ?_⟩
    · exact (mem_cons.mp (hperm.mem_iff.mp hq)).resolve_left hqp
    · exact congrArg d0 (update_of_ne hqp _ _)
  · intro q hq
    have hqp := hne q hq
    have hproc : (DescInv.finished s p (s.virtq.setInfo (s.proc p).d0
        { s.virtq.info (s.proc p).d0 with done := 0 }) d2).proc q = s.proc q :=
      update_of_ne hqp _ _
    rw [hproc]
    refine (h.call q (hcalls q hq)).congr ?_ (fun _ => rfl) Iff.rfl Iff.rfl
    have hd : (s.proc q).d0 ≠ (s.proc p).d0 := fun he => hqp (d0_inj h.desc (hcalls q hq) hp he)
    change ((update s.virtq.info (s.proc p).d0 _) (s.proc q).d0).buf = _
    rw [update_of_ne hd]
  · intro q hq
    obtain rfl | hqp := eq_or_ne q p
    · have hproc : (DescInv.finished s q (s.virtq.setInfo (s.proc q).d0
          { s.virtq.info (s.proc q).d0 with done := 0 }) d2).proc q =
          { s.proc q with pc := .returned } := update_self ..
      rw [hproc]
      exact ⟨hrep, hcall.sector⟩
    · have hproc : (DescInv.finished s p (s.virtq.setInfo (s.proc p).d0
          { s.virtq.info (s.proc p).d0 with done := 0 }) d2).proc q = s.proc q :=
        update_of_ne hqp _ _
      rw [hproc] at hq ⊢
      exact h.returned q hq

theorem ret (hpc : (s.proc p).pc = .returned) : IoInv (s.ret p) free calls avail used := by
  have hp : (s.proc p).inFlight = false := by rw [inFlight, hpc]
  have hquiet : Quiet s (s.setProc p { s.proc p with pc := .idle }) :=
    Quiet.setProc s rfl (by rw [hp]; rfl) fun _ => rfl
  have hproc : (s.ret p).proc = (s.setProc p { s.proc p with pc := .idle }).proc := by
    rw [DiskSys.ret]
    split <;> rfl
  have hother : ∀ q, q ≠ p → (s.ret p).proc q = s.proc q := by
    intro q hq
    rw [hproc]
    exact update_of_ne hq _ _
  have hblock : ∀ a, ((s.ret p).block a).blockNo = (s.block a).blockNo := by
    intro a
    rw [DiskSys.ret]
    split
    next => rfl
    next =>
      obtain rfl | ha := eq_or_ne a ((s.proc p).block)
      · dsimp only
        rw [update_self]
        rfl
      · dsimp only
        rw [update_of_ne ha]
        rfl
  have hvq : (s.ret p).virtq = s.virtq ∧ (s.ret p).busy = s.busy := by
    rw [DiskSys.ret]
    split <;> exact ⟨rfl, rfl⟩
  have hquiet' : Quiet s (s.ret p) := by
    refine ⟨by rw [hvq.1], by rw [hvq.1], by rw [hvq.1], ?_, ?_, ?_⟩
    · rw [hproc]
      exact hquiet.d0
    · rw [hproc]
      exact hquiet.inFlight
    · rw [hproc]
      exact hquiet.killed
  refine h.congr hvq.1 hvq.2 hquiet' ?_ hblock ?_
  · intro q hq
    refine hother q ?_
    rintro rfl
    rw [h.desc.mem q, hp] at hq
    cases hq
  intro q hq
  have hne : q ≠ p := by
    rintro rfl
    rw [hproc, DiskSys.setProc] at hq
    dsimp only at hq
    rw [update_self] at hq
    cases hq
  rw [hother q hne] at hq ⊢
  rw [hblock]
  exact h.returned q hq

theorem kill (hp : (s.proc p).inFlight = false) :
    IoInv (s.setProc p { s.proc p with killed := true }) free calls avail used := by
  have hother : ∀ q, q ≠ p → (s.setProc p { s.proc p with killed := true }).proc q = s.proc q :=
    fun q hq => update_of_ne hq _ _
  have hself : (s.setProc p { s.proc p with killed := true }).proc p =
      { s.proc p with killed := true } := update_self ..
  refine h.congr rfl rfl (Quiet.setProc s rfl rfl fun hfl => ?_) ?_ (fun _ => rfl) ?_
  · rw [hp] at hfl
    cases hfl
  · intro q hq
    refine hother q ?_
    rintro rfl
    rw [h.desc.mem q, hp] at hq
    cases hq
  intro q hq
  obtain rfl | hqp := eq_or_ne q p
  · rw [hself] at hq ⊢
    exact h.returned q hq
  · rw [hother q hqp] at hq ⊢
    exact h.returned q hq

theorem step {l : DiskAct} (hok : NoAbort s l)
    (hs : s.step l = .ok s') : ∃ free' calls' avail' used', IoInv s' free' calls' avail' used' := by
  cases l with
  | read p a stack =>
    obtain ⟨hpc, hs⟩ := Runs.guard_ok hs
    obtain ⟨free', d0, hinv⟩ := h.submit hpc hok hs
    exact ⟨free', _, _, used, hinv⟩
  | write p a =>
    obtain ⟨hpc, hs⟩ := Runs.guard_ok hs
    obtain ⟨free', d0, hinv⟩ := h.submit hpc hok hs
    exact ⟨free', _, _, used, hinv⟩
  | wait p =>
    obtain ⟨hpc, ⟨⟩⟩ := Runs.guard_ok hs
    exact ⟨free, calls, avail, used, h.wait hpc⟩
  | wake p =>
    obtain ⟨hpc, ⟨⟩⟩ := Runs.guard_ok hs
    exact ⟨free, calls, avail, used, h.wake hpc⟩
  | alert p => exact absurd hs h.desc.not_alert
  | finish p =>
    obtain ⟨_, _, free', calls', hinv⟩ := h.finish hs
    exact ⟨free', calls', avail, used, hinv⟩
  | ret p =>
    obtain ⟨hpc, ⟨⟩⟩ := Runs.guard_ok hs
    exact ⟨free, calls, avail, used, h.ret hpc⟩
  | kill p =>
    cases hs
    exact ⟨free, calls, avail, used, h.kill hok⟩
  | store a data =>
    cases hs
    have hblock : ∀ b, ((update s.block a { s.block a with data := data }) b).blockNo =
        (s.block b).blockNo := by
      rw [forall_update_iff s.block fun b (y : Block) => y.blockNo = (s.block b).blockNo]
      exact ⟨rfl, fun _ _ => rfl⟩
    refine ⟨free, calls, avail, used, h.congr rfl rfl
      ⟨rfl, rfl, rfl, fun _ => rfl, fun _ => rfl, fun _ _ => rfl⟩ (fun _ _ => rfl) hblock ?_⟩
    intro p hp
    rw [hblock]
    exact h.returned p hp
  | fetch =>
    rw [DiskSys.step] at hs
    split at hs
    next => cases hs
    next hne =>
      cases hs
      obtain ⟨avail', hinv⟩ := h.fetch hne
      exact ⟨free, calls, avail', used, hinv⟩
  | complete d status =>
    obtain ⟨hd, hs⟩ := Runs.guard_ok hs
    obtain ⟨used', hinv⟩ := h.complete hd hs
    exact ⟨free, calls, avail, used', hinv⟩
  | intr =>
    obtain ⟨used', hinv⟩ := h.intrLoop hs
    exact ⟨free, calls, avail, used', hinv⟩

end

end IoInv

theorem exists_ioInv {s : DiskSys} (h : Runs.Reach step NoAbort Init s) :
    ∃ free calls avail used, IoInv s free calls avail used :=
  h.invariant (I := fun s => ∃ free calls avail used, IoInv s free calls avail used)
    (fun _ hs => ⟨_, _, _, _, IoInv.init hs⟩)
    (fun _ _ _ hI hok hs => by
      obtain ⟨free, calls, avail, used, hI⟩ := hI
      exact hI.step hok hs)

end DiskSys

/-- While no caller is killed, `virtio_blk_rw` does not return from `wait_sem` without a post.  When
it returns, the device has completed the request and its descriptors are on the free chain; and when
`cache_acquire` marks a block valid, the block holds what the device has read from its sector. -/
theorem disk_io_completes {s : DiskSys}
    (h : Runs.Reach DiskSys.step DiskSys.NoAbort DiskSys.Init s) (p : Nat) (s' : DiskSys) :
    s.step (.alert p) ≠ .ok s' ∧
    (s.step (.finish p) = .ok s' →
      (s.proc p).reply = some ((s.proc p).buf.blockNo, (s.proc p).buf.data) ∧
      ∀ d ∈ s.virtq.chain (s.proc p).d0, d ∈ s'.virtq.freeChain) ∧
    (s.step (.ret p) = .ok s' → (s.proc p).buf.dirty = false →
      (s'.block (s.proc p).block).valid = true ∧
      (s.proc p).reply = some (sectorOf (s'.block (s.proc p).block).blockNo,
        (s'.block (s.proc p).block).data)) := by
  obtain ⟨free, calls, avail, used, hinv⟩ := exists_ioInv h
  refine ⟨hinv.desc.not_alert, ?_, ?_⟩
  · intro hs
    obtain ⟨hrep, hchain, _⟩ := hinv.finish hs
    exact ⟨hrep, hchain⟩
  intro hs hdirty
  obtain ⟨hpc, ⟨⟩⟩ := Runs.guard_ok hs
  obtain ⟨hrep, hsector⟩ := hinv.returned p hpc
  have hblock : (s.ret p).block (s.proc p).block =
      { s.block (s.proc p).block with data := (s.proc p).buf.data, valid := true } := by
    rw [ret, hdirty]
    exact update_self ..
  rw [hblock]
  refine ⟨rfl, ?_⟩
  rw [hrep, hsector]

theorem disk_io_completes_one_read :
    ∃ s s', Runs.Reach DiskSys.step DiskSys.NoAbort DiskSys.Init s ∧ s.step (.ret 2) = .ok s' ∧
      (s.proc 2).block = 5 ∧ (s'.block 5).valid = true ∧
      (s.proc 2).reply = some (sectorOf (s'.block 5).blockNo, (s'.block 5).data) := by
  have hrun : Runs.execTest (Runs.guarded step
      (fun s l => decide (DiskSys.NoAbort s l)) .disabled) bootedDisk
      [.read 2 5 Bytes.zero, .wait 2, .fetch, .complete 0 0, .kill 7, .intr, .wake 2, .finish 2]
      (fun s => decide ((s.proc 2).pc = .returned) && (s.proc 2).block == 5 &&
        !(s.proc 2).buf.dirty) = true := by
    decide +kernel
  obtain ⟨s, hs, hq⟩ := Runs.Reach.of_guardedTest bootedDisk_init hrun
  simp only [Bool.and_eq_true, decide_eq_true_eq, beq_iff_eq, Bool.not_eq_true'] at hq
  obtain ⟨⟨hpc, hblk⟩, hdirty⟩ := hq
  have hstep : s.step (.ret 2) = .ok (s.ret 2) := if_pos hpc
  obtain ⟨_, _, hret⟩ := disk_io_completes hs 2 (s.ret 2)
  have hvalid := hret hstep hdirty
  rw [hblk] at hvalid
  exact ⟨s, s.ret 2, hs, hstep, hblk, hvalid⟩

/-- A process that is killed in `wait_sem` returns at once: the device has not completed its
request, its descriptors are not given back, and a block is marked valid with what was on the
stack. -/
theorem disk_io_aborted :
    ∃ s, Runs.Reach DiskSys.step Runs.always DiskSys.Init s ∧ (s.proc 2).reply = none ∧
      s.virtq.nfree = 5 ∧ s.busy = [0] ∧ (s.block 5).valid = true ∧ (s.block 5).blockNo = 5 ∧
      (s.block 5).data.get 0 = 7 ∧ (s.disk (sectorOf 5)).get 0 = 0 := by
  have hrun : Runs.execTest step bootedDisk
      [.read 2 5 (fun _ => 7), .wait 2, .fetch, .kill 2, .alert 2, .ret 2]
      (fun s => decide ((s.proc 2).reply.isNone ∧ s.virtq.nfree = 5 ∧ s.busy = [0] ∧
        (s.block 5).valid = true ∧ (s.block 5).blockNo = 5 ∧ (s.block 5).data.get 0 = 7 ∧
        (s.disk (sectorOf 5)).get 0 = 0)) = true := by
    decide +kernel
  obtain ⟨s, hs, hq⟩ := Runs.Reach.of_execTest bootedDisk_init hrun
  obtain ⟨hnone, hrest⟩ := of_decide_eq_true hq
  exact ⟨s, hs, Option.isNone_iff_eq_none.mp hnone, hrest⟩

end OsKernel
