import OsKernel.Fs.CacheRuns

/-!
# Transparency of the cache

Evictions write nothing back, so a block must not be evicted while the device
lacks its contents.  It is held while it is changed, pinned from a `cache_sync`
with a context to the checkpoint that installs it, and otherwise equal to the
device (`Transparent.home`).  A caller therefore always finds what it last synced.
-/

namespace OsKernel

open Prog Cache Function
open RedoLog (apply)

namespace Cache

theorem contents_eq_disk {s : Cache} {pins : List Nat} {x : Nat} (h : s.WF pins)
    (hx : s.Stable x) (hfree : s.Free x) (hpin : x ∉ pins) : s.contents x = s.disk x := by
  cases hf : s.findCachedBlock x with
  | none => exact contents_of_not_cached (BlockList.find_eq_none.mp hf)
  | some a =>
    obtain ⟨ha, rfl⟩ := BlockList.mem_of_find hf
    rw [contents_of_mem h ha]
    rcases hx a ha rfl with hacq | hp | hd
    · exact absurd rfl (hfree a ⟨ha, hacq⟩)
    · exact absurd ((BlockList.WF.pinned h a ha).mp hp) hpin
    · exact hd

end Cache

namespace Client

/-- The caller uses blocks outside a log area of the header block and `n` slots.
`LOG_MAX_SIZE` slots hold every checkpoint; a smaller area has to hold those of
the run. -/
def OutsideLog (sb : SuperBlock) (n : Nat) (st : Client) : Call → Prop
  | .acquire b => ¬ (logLayout sb).Area n b
  | .endOp _ => n < LOG_MAX_SIZE → st.cache.header.numBlocks ≤ n
  | _ => True

instance (sb : SuperBlock) (n : Nat) (st : Client) (call : Call) :
    Decidable (OutsideLog sb n st call) :=
  match call with
  | .acquire b => inferInstanceAs (Decidable (¬ (logLayout sb).Area n b))
  | .endOp _ => inferInstanceAs (Decidable (n < LOG_MAX_SIZE → st.cache.header.numBlocks ≤ n))
  | .modify _ _ | .sync _ _ | .release _ | .beginOp _ => inferInstanceAs (Decidable True)

/-- Outside the log area, a block has the contents it was last synced with unless
it has been changed since, and the device has them unless the block is logged. -/
structure Transparent (sb : SuperBlock) (n : Nat) (st : Client) : Prop where
  stable : ∀ x, st.cache.Stable x
  view : ∀ x, ¬ (logLayout sb).Area n x → st.dirty x = true ∨ st.cache.contents x = st.synced x
  home : ∀ x, ¬ (logLayout sb).Area n x → st.dirty x = true ∨ x ∈ st.cache.header.logged ∨
    st.synced x = st.cache.disk x
  held : ∀ x, st.holds x ≠ none → ¬ (logLayout sb).Area n x
  logged : ∀ x ∈ st.cache.header.logged, ¬ (logLayout sb).Area n x
  header : ¬ st.cache.Cached sb.logStart

section

variable {sb : SuperBlock} {n : Nat} {st : Client}

theorem Transparent.of_init (h : Init sb st) : Transparent sb n st := by
  obtain ⟨d, s, h0, hexec, rfl⟩ := h
  rw [exec_initBcache_empty (s := powerOn d) h0] at hexec
  cases hexec
  have hnil := LogHeader.logged_eq_nil h0
  refine ⟨fun x a ha => ?_, fun x _ => .inr rfl, fun x _ => .inr (.inr rfl),
    fun x hx => absurd rfl hx, fun x hx => ?_, fun hc => ?_⟩
  · cases ha
  · exact absurd (hnil ▸ hx) List.not_mem_nil
  · obtain ⟨a, ha, -⟩ := hc
    cases ha

variable {b a : Nat} {s : Cache}

section

variable (ht : Transparent sb n st) (h : st.Inv)

include ht h

theorem Transparent.view_of_free (hb : st.holds b = none) (hout : ¬ (logLayout sb).Area n b) :
    st.cache.contents b = st.synced b := by
  refine (ht.view b hout).resolve_left fun hd => ?_
  rw [h.dirty_of_free hb] at hd
  cases hd

theorem Transparent.acquire (hout : ¬ (logLayout sb).Area n b)
    (hacq : Acquired st.cache st.cache.header.logged b a s) :
    Transparent sb n { st with
      cache := s
      holds := update st.holds b (some a)
      returned := some (b, (s.heap a).data) } := by
  have hkeeps : ∀ x, Keeps st.cache s x := fun x => hacq.keeps h.wf (ht.stable x)
  refine ⟨fun x => (hkeeps x).stable, fun x hx => ?_, fun x hx => ?_, fun x hx => ?_, ?_, fun hc => ?_⟩
    <;> dsimp only at *
  · rw [(hkeeps x).contents]
    exact ht.view x hx
  · rw [hacq.rest.header, hacq.rest.disk]
    exact ht.home x hx
  · by_cases hxb : x = b
    · rw [hxb]
      exact hout
    · rw [update_of_ne hxb] at hx
      exact ht.held x hx
  · rw [hacq.rest.header]
    exact ht.logged
  · rcases hacq.cached hc with he | hc
    · exact hout (.inl he.symm)
    · exact ht.header hc

section

variable (hb : st.holds b = some a)

include hb

theorem Transparent.modify (d : Data) : Transparent sb n { st with
      cache := st.cache.setData a d
      dirty := update st.dirty b true
      returned := none } := by
  have ha := h.held_of_holds hb
  have hno := h.blockNo_of_holds hb
  refine ⟨fun x => ?_, fun x hx => ?_, fun x hx => ?_, ht.held, ht.logged,
    fun hc => ht.header (cached_setData hc)⟩ <;> dsimp only
  · by_cases hxb : x = b
    · rw [hxb, ← hno]
      exact stable_onBlock_self h.wf ha.1 rfl (.inl ha.2)
    · exact stable_onBlock_of_ne rfl (hno.symm ▸ hxb) (ht.stable x)
  · by_cases hxb : x = b
    · left
      rw [hxb, update_self]
    · rw [update_of_ne hxb, setData, contents_onBlock_of_ne rfl (hno.symm ▸ hxb)]
      exact ht.view x hx
  · by_cases hxb : x = b
    · left
      rw [hxb, update_self]
    · rw [update_of_ne hxb]
      exact ht.home x hx

theorem Transparent.synced (hdata : (s.heap a).data = (st.cache.heap a).data)
    (hcont : ∀ x, s.contents x = st.cache.contents x) (hstable : ∀ x, s.Stable x)
    (hcached : s.Cached sb.logStart → st.cache.Cached sb.logStart)
    (hlog : ∀ x, x ∈ st.cache.header.logged → x ∈ s.header.logged)
    (hlog' : ∀ x, x ∈ s.header.logged → x = b ∨ x ∈ st.cache.header.logged)
    (hdisk : ∀ x, x ≠ b → s.disk x = st.cache.disk x)
    (hhome : b ∈ s.header.logged ∨ (s.heap a).data = s.disk b) :
    Transparent sb n (st.afterSync b a s) := by
  have hview : st.cache.contents b = (st.cache.heap a).data := by
    rw [← h.blockNo_of_holds hb, contents_of_mem h.wf (h.held_of_holds hb).1]
  have hbout : ¬ (logLayout sb).Area n b := ht.held b (by rw [hb]; exact Option.some_ne_none a)
  refine ⟨hstable, fun x hx => ?_, fun x hx => ?_, ht.held, fun x hx => ?_,
    fun hc => ht.header (hcached hc)⟩ <;> dsimp only at *
  · rw [hcont]
    by_cases hxb : x = b
    · right
      rw [hxb, update_self, hview, hdata]
    · rw [update_of_ne hxb, update_of_ne hxb]
      exact ht.view x hx
  · by_cases hxb : x = b
    · right
      rw [hxb, update_self]
      exact hhome
    · rw [update_of_ne hxb, update_of_ne hxb, hdisk x hxb]
      exact (ht.home x hx).imp id (Or.imp (hlog x) id)
  · rcases hlog' x hx with rfl | hx
    · exact hbout
    · exact ht.logged x hx

theorem Transparent.syncCtx {c : Nat} (hexec : (cacheSync (some c) a).exec st.cache = (.ok (), s)) :
    Transparent sb n (st.afterSync b a s) := by
  obtain ⟨hd, ctx, hlog, rfl⟩ := cacheSync_some hexec
  have ha := (h.held_of_holds hb).1
  have hno := h.blockNo_of_holds hb
  have hmem := mem_of_syncLog hlog
  rw [hno] at hmem
  refine ht.synced h hb ?_ (fun x => ?_) (fun x => ?_) (fun hc => ?_)
    (fun x hx => (hmem x).mpr (.inr hx)) (fun x hx => (hmem x).mp hx) (fun _ _ => rfl)
    (.inl ((hmem b).mpr (.inl rfl)))
  · have hself := heap_onBlock_self st.cache a fun blk => { blk with pinned := true }
    exact (congrArg Block.data hself :)
  · exact contents_onBlock (f := fun blk => { blk with pinned := true }) h.wf ha rfl rfl x
  · by_cases hxb : x = b
    · rw [hxb, ← hno]
      exact stable_onBlock_self (f := fun blk => { blk with pinned := true }) h.wf ha rfl
        (.inr (.inl rfl))
    · exact stable_onBlock_of_ne (f := fun blk => { blk with pinned := true }) rfl
        (hno.symm ▸ hxb) (ht.stable x)
  · exact cached_onBlock (f := fun blk => { blk with pinned := true }) rfl hc

theorem Transparent.syncNull : Transparent sb n (st.afterSync b a (st.cache.syncNull a)) := by
  have ha := (h.held_of_holds hb).1
  have hno := h.blockNo_of_holds hb
  have hkeeps : ∀ x, Keeps st.cache (st.cache.syncNull a) x := fun x =>
    .syncNull h.wf ha (.inl (ht.stable x))
  refine ht.synced h hb rfl (fun x => (hkeeps x).contents)
    (fun x => (hkeeps x).stable) id (fun _ hx => hx) (fun _ hx => .inr hx) (fun x hx => ?_)
    (.inr ?_)
  · exact disk_deviceWrite_of_ne _ _ (hno.symm ▸ hx)
  · rw [← hno]
    exact (disk_deviceWrite_self st.cache _ _).symm

/-- A held block that has not been changed since its last sync is pinned or agrees
with the device, so it may be released. -/
theorem Transparent.settled (hd : st.dirty b = false) :
    (st.cache.heap a).pinned = true ∨ (st.cache.heap a).data = st.cache.disk b := by
  have ha := (h.held_of_holds hb).1
  have hno := h.blockNo_of_holds hb
  have hbout : ¬ (logLayout sb).Area n b := ht.held b (by rw [hb]; exact Option.some_ne_none a)
  have hnd : ¬ st.dirty b = true := by
    rw [hd]
    exact Bool.false_ne_true
  rcases (ht.home b hbout).resolve_left hnd with hl | hs
  · left
    rw [BlockList.WF.pinned h.wf a ha, hno]
    exact hl
  · right
    rw [← hs, ← (ht.view b hbout).resolve_left hnd, ← hno, contents_of_mem h.wf ha]

theorem Transparent.release (hd : st.dirty b = false) : Transparent sb n { st with
      cache := st.cache.released a
      holds := update st.holds b none
      returned := none } := by
  have ha := (h.held_of_holds hb).1
  have hno := h.blockNo_of_holds hb
  have hkeeps : ∀ x, Keeps st.cache (st.cache.released a) x := fun x =>
    .released h.wf ha (ht.stable x) fun _ => by
      rw [hno]
      exact ht.settled h hb hd
  refine ⟨fun x => (hkeeps x).stable, fun x hx => ?_, ht.home, fun x hx => ?_, ht.logged,
    fun hc => ht.header (cached_released hc)⟩ <;> dsimp only at *
  · rw [(hkeeps x).contents]
    exact ht.view x hx
  · by_cases hxb : x = b
    · rw [hxb, update_self] at hx
      exact absurd rfl hx
    · rw [update_of_ne hxb] at hx
      exact ht.held x hx

end

theorem Transparent.endLast {c : Nat}
    (hn : st.cache.header.numBlocks ≤ n) (hck : Checkpointed sb (lastEnded st.cache) s) :
    Transparent sb n { st with cache := s, running := st.running.erase c, returned := none } := by
  have hout : ∀ {x}, ¬ (logLayout sb).Area n x →
      ¬ (logLayout sb).Area st.cache.header.numBlocks x := fun hx ha => hx (area_mono hn ha)
  have hkeeps : ∀ {x}, ¬ (logLayout sb).Area st.cache.header.numBlocks x → Keeps st.cache s x :=
    fun {x} hx =>
      have hk := hck.keeps x hx (ht.stable x)
      ⟨hk.contents, hk.stable⟩
  have hhdr : ¬ s.Cached sb.logStart := by
    intro hc
    rcases hck.cached _ hc with hc | hl | ⟨j, -, he⟩
    · exact ht.header hc
    · exact ht.logged _ hl (.inl rfl)
    · exact (logLayout sb).slot_ne_hdr j he.symm
  have hnil : s.header.logged = [] := by
    rw [hck.header]
    exact LogHeader.logged_eq_nil (LogHeader.numBlocks_clear _)
  refine ⟨fun x => ?_, fun x hx => ?_, fun x hx => ?_, ht.held, ?_, hhdr⟩ <;> dsimp only
  · -- the header block is not cached, and the slots are clean after the checkpoint
    by_cases hx : (logLayout sb).Area st.cache.header.numBlocks x
    · rcases hx with rfl | ⟨j, hj, rfl⟩
      · exact fun a ha hno => absurd ⟨a, ha, hno⟩ hhdr
      · exact hck.slots j hj
    · exact (hkeeps hx).stable
  · rw [(hkeeps (hout hx)).contents]
    exact ht.view x hx
  · by_cases hl : x ∈ st.cache.header.logged
    · -- a logged block was free, and the checkpoint has installed it
      have hfree : st.cache.Free x := hck.free x hl
      have hholds : st.holds x = none := by
        cases hx' : st.holds x with
        | none => rfl
        | some a => exact absurd (h.blockNo_of_holds hx') (hfree a (h.held_of_holds hx'))
      right
      right
      rw [← ht.view_of_free h hholds hx, ← (hkeeps (hout hx)).contents]
      exact contents_eq_disk hck.wf (hkeeps (hout hx)).stable (hck.held.free hfree) List.not_mem_nil
    · rw [hck.disk]
      have hsame : apply st.cache.disk (checkpointWrites sb (lastEnded st.cache)) x =
          st.cache.disk x := by
        refine RedoLog.Layout.apply_commitWrites_of_not_mem ?_ hl
        rw [LogHeader.length_logged]
        exact hout hx
      rcases ht.home x hx with hd | hl' | hs
      · exact .inl hd
      · exact absurd hl' hl
      · exact .inr (.inr (hs.trans hsame.symm))
  · rw [hnil]
    exact fun x hx => absurd hx List.not_mem_nil

/-- A run outside the log area is one in which every checkpoint finds the logged
blocks outside its slots. -/
theorem Transparent.lastOutside {call : Call} (hok : OutsideLog sb n st call) :
    LastOutside sb st call ∧ ∀ c, call = .endOp c → st.cache.header.numBlocks ≤ n := by
  have hle : ∀ c, call = .endOp c → st.cache.header.numBlocks ≤ n := by
    rintro c rfl
    rcases Nat.lt_or_ge n LOG_MAX_SIZE with hlt | hge
    · exact hok hlt
    · exact h.room.trans hge
  exact ⟨fun c hc _ x hx ha => ht.logged x hx (area_mono (hle c hc) ha), hle⟩

theorem Transparent.step {call : Call} {st' : Client}
    (hs : ClientStep sb st call st') (hok : OutsideLog sb n st call) : Transparent sb n st' := by
  obtain ⟨hlast, hle⟩ := ht.lastOutside h hok
  cases hs with
  | acquire hb _ hexec =>
    obtain ⟨a, s, he, hacq⟩ := cacheAcquire_free h.wf (h.free_of_holds hb)
    cases hexec.symm.trans he
    exact ht.acquire h hok hacq
  | modify hb => exact ht.modify h hb _
  | syncCtx hb _ hexec => exact ht.syncCtx h hb hexec
  | syncNull hb => exact ht.syncNull h hb
  | release hb hd hexec =>
    cases hexec.symm.trans (exec_cacheRelease h.wf (h.held_of_holds hb))
    exact ht.release h hb hd
  | beginOp _ hexec =>
    obtain ⟨-, rfl⟩ := cacheBeginOp_ok hexec
    exact ⟨ht.stable, ht.view, ht.home, ht.held, ht.logged, ht.header⟩
  | endOp hc hexec =>
    rcases h.endOp_cases hc (hlast _ rfl) hexec with ⟨sem, -, -, rfl⟩ | ⟨-, hck⟩
    · exact ⟨ht.stable, ht.view, ht.home, ht.held, ht.logged, ht.header⟩
    · exact ht.endLast h (hle _ rfl) hck

end

theorem Transparent.of_reach (h : ReachWhen sb (OutsideLog sb n) st) :
    st.Inv ∧ Transparent sb n st := by
  refine Runs.Reach.invariant (I := fun st => st.Inv ∧ Transparent sb n st)
    (fun s hs => ⟨.of_init hs, .of_init hs⟩) ?_ h
  rintro s call s' ⟨hinv, ht⟩ hok hs
  have hstep := ClientStep.of_step hs
  exact ⟨hinv.step hstep (ht.lastOutside hinv hok).1, ht.step hinv hstep hok⟩

end

end Client

end OsKernel
