import OsKernel.Fs.BlockStore

/-!
# The blocks of a file

Which blocks an inode entry refers to, and what `inode_map`, `inode_sync` and `inode_clear`
do to them on a block store.  The blocks of a file are all different (`FileOk`), so that a
write to one of them changes no other; `inode_map` adds blocks that were not allocated
before, and `inode_clear` gives exactly the blocks of the file back.
-/

namespace OsKernel

open Prog Function List

variable {b : Nat} {i : Nat} {v : Nat → Data}

/-! ## Tables of addresses -/

/-- The nonzero addresses among the first `n` of a table. -/
def addrs (f : Nat → Nat) (n : Nat) : List Nat := ((List.range n).map f).filter (· ≠ 0)

section

variable {f g : Nat → Nat} {n : Nat}

theorem addrs_succ (f : Nat → Nat) (n : Nat) :
    addrs f (n + 1) = addrs f n ++ if f n = 0 then [] else [f n] := by
  rw [addrs, range_succ, map_append, filter_append, addrs]
  by_cases h : f n = 0 <;> simp [h]

theorem addrs_congr (h : ∀ i < n, g i = f i) : addrs g n = addrs f n := by
  rw [addrs, addrs, map_congr_left fun i hi => h i (mem_range.mp hi)]

theorem mem_addrs : b ∈ addrs f n ↔ b ≠ 0 ∧ ∃ i < n, f i = b := by
  simp [addrs, and_comm]

theorem length_addrs_le (f : Nat → Nat) (n : Nat) : (addrs f n).length ≤ n := by
  have := length_filter_le (· ≠ 0) ((List.range n).map f)
  simpa [addrs] using this

theorem addrs_eq_nil (h : ∀ i < n, f i = 0) : addrs f n = [] := by
  rw [eq_nil_iff_forall_not_mem]
  intro b hb
  obtain ⟨hne, i, hi, rfl⟩ := mem_addrs.mp hb
  exact hne (h i hi)

theorem addrs_fill (hi : i < n) (h0 : f i = 0) (hb : b ≠ 0) (hg : g i = b)
    (hother : ∀ j < n, j ≠ i → g j = f j) : (addrs g n).Perm (b :: addrs f n) := by
  induction n with
  | zero => omega
  | succ n ih =>
    rw [addrs_succ, addrs_succ]
    rcases Nat.lt_or_eq_of_le (Nat.le_of_lt_succ hi) with hlt | rfl
    · rw [hother n (Nat.lt_succ_self n) (by omega)]
      exact (ih hlt fun j hj => hother j (by omega)).append_right _
    · rw [h0, hg, if_neg hb, if_pos rfl, append_nil,
        addrs_congr fun j hj => hother j (by omega) (by omega)]
      exact perm_append_singleton _ _

theorem length_addrs_lt (hi : i < n) (h0 : f i = 0) : (addrs f n).length < n := by
  have hfill := (addrs_fill (g := update f i 1) hi h0 Nat.one_ne_zero
    (update_self ..) fun j _ hj => update_of_ne hj ..).length_eq
  have hle := length_addrs_le (update f i 1) n
  rw [hfill, length_cons] at hle
  exact hle

theorem addrs_inj (h : (addrs f n).Nodup) {j : Nat} (hi : i < n) (hj : j < n) (h0 : f i ≠ 0)
    (he : f i = f j) : i = j := by
  induction n with
  | zero => omega
  | succ n ih =>
    rw [addrs_succ, nodup_append] at h
    obtain ⟨hn, -, hdisj⟩ := h
    have hlast : ∀ {k l}, k < n → l = n → f k ≠ 0 → f k ≠ f l := by
      rintro k l hk rfl hk0 hkl
      have hl0 : f l ≠ 0 := hkl ▸ hk0
      exact hdisj (f k) (mem_addrs.mpr ⟨hk0, k, hk, rfl⟩) (f l) (by simp [hl0]) hkl
    rcases Nat.lt_or_eq_of_le (Nat.le_of_lt_succ hi) with hi | hi <;>
      rcases Nat.lt_or_eq_of_le (Nat.le_of_lt_succ hj) with hj | hj
    · exact ih hn hi hj
    · exact absurd he (hlast hi hj h0)
    · exact absurd he.symm (hlast hj hi (he ▸ h0))
    · omega

end

/-! ## The blocks of a file -/

/-- The block of the file with index `i`, or `0`. -/
def fileBlock (v : Nat → Data) (e : InodeEntry) (i : Nat) : Nat :=
  if i < INODE_NUM_DIRECT then e.addr i
  else if e.indirect = 0 then 0
  else indirectAddr (v e.indirect) (i - INODE_NUM_DIRECT)

abbrev MAX_BLOCKS : Nat := INODE_NUM_DIRECT + INODE_NUM_INDIRECT

theorem add_direct_lt (h : i < INODE_NUM_INDIRECT) : i + INODE_NUM_DIRECT < MAX_BLOCKS := by
  rw [Nat.add_comm]
  exact Nat.add_lt_add_left h _

/-- All blocks that an entry refers to: the indirect block and those of the file. -/
def refs (v : Nat → Data) (e : InodeEntry) : List Nat :=
  (if e.indirect = 0 then [] else [e.indirect]) ++ addrs (fileBlock v e) MAX_BLOCKS

section

variable {v v' : Nat → Data} {e e' : InodeEntry} {i j : Nat}

theorem fileBlock_direct (h : i < INODE_NUM_DIRECT) : fileBlock v e i = e.addr i := if_pos h

theorem fileBlock_indirect (h : ¬ i < INODE_NUM_DIRECT) (h0 : e.indirect ≠ 0) :
    fileBlock v e i = indirectAddr (v e.indirect) (i - INODE_NUM_DIRECT) := by
  rw [fileBlock, if_neg h, if_neg h0]

theorem fileBlock_of_indirect_zero (h : ¬ i < INODE_NUM_DIRECT) (h0 : e.indirect = 0) :
    fileBlock v e i = 0 := by
  rw [fileBlock, if_neg h, if_pos h0]

theorem fileBlock_lt (v : Nat → Data) (e : InodeEntry) (i : Nat) : fileBlock v e i < 2 ^ 32 := by
  unfold fileBlock
  split
  · exact e.addr_lt i
  · split
    · decide
    · exact indirectAddr_lt _ _

section

variable (hd : ∀ i < INODE_NUM_DIRECT, e'.addr i = e.addr i) (hi : e'.indirect = e.indirect)
  (hv : e.indirect ≠ 0 → v' e.indirect = v e.indirect)

include hd hi hv

theorem fileBlock_congr : fileBlock v' e' i = fileBlock v e i := by
  unfold fileBlock
  rw [hi]
  split
  next h => exact hd i h
  next =>
    split
    next => rfl
    next h0 => rw [hv h0]

theorem refs_congr : refs v' e' = refs v e := by
  rw [refs, refs, hi, addrs_congr fun i _ => fileBlock_congr hd hi hv]

end

theorem indirect_mem_refs (h0 : e.indirect ≠ 0) : e.indirect ∈ refs v e := by
  simp [refs, h0]

theorem fileBlock_mem_refs (hi : i < MAX_BLOCKS) (h0 : fileBlock v e i ≠ 0) :
    fileBlock v e i ∈ refs v e :=
  mem_append_right _ (mem_addrs.mpr ⟨h0, i, hi, rfl⟩)

theorem fileBlock_ne_indirect (h : (refs v e).Nodup) (hi : i < MAX_BLOCKS)
    (h0 : fileBlock v e i ≠ 0) : fileBlock v e i ≠ e.indirect := by
  intro he
  rw [refs, if_neg (he ▸ h0), singleton_append, nodup_cons] at h
  exact h.1 (he ▸ mem_addrs.mpr ⟨h0, i, hi, rfl⟩)

theorem fileBlock_inj (h : (refs v e).Nodup) (hi : i < MAX_BLOCKS) (hj : j < MAX_BLOCKS)
    (h0 : fileBlock v e i ≠ 0) (he : fileBlock v e i = fileBlock v e j) : i = j := by
  rw [refs, nodup_append] at h
  exact addrs_inj h.2.1 hi hj h0 he

theorem refs_fill (hi : i < MAX_BLOCKS) (h0 : fileBlock v e i = 0) (hb : b ≠ 0)
    (hself : fileBlock v' e' i = b)
    (hother : ∀ j < MAX_BLOCKS, j ≠ i → fileBlock v' e' j = fileBlock v e j)
    (hind : e'.indirect = e.indirect) : (refs v' e').Perm (b :: refs v e) := by
  rw [refs, refs, hind]
  exact ((addrs_fill hi h0 hb hself hother).append_left _).trans perm_middle

theorem refs_setIndirect (hb : b ≠ 0) (h0 : e.indirect = 0) (hind : e'.indirect = b)
    (hblocks : ∀ j < MAX_BLOCKS, fileBlock v' e' j = fileBlock v e j) :
    refs v' e' = b :: refs v e := by
  rw [refs, refs, hind, if_neg hb, if_pos h0, addrs_congr hblocks]
  rfl

theorem length_refs_lt (hi : i < MAX_BLOCKS) (h0 : fileBlock v e i = 0) :
    (refs v e).length < MAX_BLOCKS + 1 := by
  have h := length_addrs_lt hi h0
  rw [refs, length_append]
  split <;> simp only [length_nil, length_cons] <;> omega

/-- The room may not do for the longest file. -/
abbrev StoreView.Scarce {κ : Type} (B : StoreView κ) (c : κ) (e : InodeEntry) : Prop :=
  B.room c + (refs (B.view c) e).length < MAX_BLOCKS + 1

end

/-! ## Changes of one file -/

variable {κ : Type}

/-- The state with another cache and another entry of one inode. -/
def Fs.setFile (s : Fs κ) (ip : Nat) (c : κ) (e : InodeEntry) : Fs κ :=
  { s with cache := c, inodes := update s.inodes ip { s.inodes ip with entry := e } }

section

variable (s : Fs κ) (ip : Nat) (c c' : κ) (e e' : InodeEntry)

@[simp] theorem Fs.cache_setFile : (s.setFile ip c e).cache = c := rfl

@[simp] theorem Fs.inodes_setFile :
    (s.setFile ip c e).inodes ip = { s.inodes ip with entry := e } := update_self ..

@[simp] theorem Fs.setFile_setFile : (s.setFile ip c e).setFile ip c' e' = s.setFile ip c' e' := by
  simp [Fs.setFile]

@[simp] theorem Fs.setFile_self : s.setFile ip s.cache (s.inodes ip).entry = s := by
  simp [Fs.setFile]

end

/-- The entry of an inode in the inode blocks. -/
def entryAt (sb : SuperBlock) (v : Nat → Data) (no : Nat) : InodeEntry :=
  .ofBlock (v (sb.toBlockNo no)) no

structure InodeBlocks (B : StoreView κ) (sb : SuperBlock) : Prop where
  fixed : ∀ no < sb.numInodes, B.fixed (sb.toBlockNo no)
  own : ∀ no < sb.numInodes, ¬ B.own (sb.toBlockNo no)
  lt : ∀ no < sb.numInodes, sb.toBlockNo no < 2 ^ 64

/-- The blocks of a file are allocated and all different. -/
structure FileOk (B : StoreView κ) (c : κ) (e : InodeEntry) : Prop where
  nodup : (refs (B.view c) e).Nodup
  used : ∀ x ∈ refs (B.view c) e, B.used c x
  data : ∀ x ∈ refs (B.view c) e, ¬ B.fixed x

/-- From one settled state to another, with changes of the inode `no` and its blocks only. -/
structure FileStep (B : StoreView κ) (sb : SuperBlock) (no : Nat) (c : κ) (e : InodeEntry) (c' : κ)
    (e' : InodeEntry) : Prop where
  settled : B.Settled c'
  file : FileOk B c' e'
  view : ∀ x, B.used c x → ¬ B.own x → x ∉ refs (B.view c) e → x ≠ sb.toBlockNo no →
    B.view c' x = B.view c x
  table : ∀ no' < sb.numInodes, no' ≠ no →
    entryAt sb (B.view c') no' = entryAt sb (B.view c) no'
  fresh : ∀ x ∈ refs (B.view c') e', x ∈ refs (B.view c) e ∨ ¬ B.used c x
  used : ∀ x, B.used c' x ↔ x ∈ refs (B.view c') e' ∨ B.used c x ∧ x ∉ refs (B.view c) e
  room : B.room c' + (refs (B.view c') e').length = B.room c + (refs (B.view c) e).length

section

variable {B : StoreView κ} {sb : SuperBlock} {no : Nat} {c c' c'' : κ} {e e' e'' : InodeEntry}

variable {bc : BlockCache κ}

theorem FileOk.own (L : StoreLaws bc B) (h : FileOk B c e) {x : Nat}
    (hx : x ∈ refs (B.view c) e) : ¬ B.own x := fun ho => h.data x hx (L.fixed_of_own ho)

theorem FileOk.ne_toBlockNo (hib : InodeBlocks B sb) (hno : no < sb.numInodes) (h : FileOk B c e)
    {x : Nat} (hx : x ∈ refs (B.view c) e) : x ≠ sb.toBlockNo no := by
  rintro rfl
  exact h.data _ hx (hib.fixed no hno)

theorem FileOk.used_iff (h : FileOk B c e) (x : Nat) :
    B.used c x ↔ x ∈ refs (B.view c) e ∨ B.used c x ∧ x ∉ refs (B.view c) e := by
  by_cases hx : x ∈ refs (B.view c) e
  · simp [hx, h.used x hx]
  · simp [hx]

theorem FileStep.refl (hs : B.Settled c) (h : FileOk B c e) : FileStep B sb no c e c e where
  settled := hs
  file := h
  view := fun _ _ _ _ _ => rfl
  table := fun _ _ _ => rfl
  fresh := fun _ hx => .inl hx
  used := h.used_iff
  room := rfl

theorem FileStep.trans (h : FileStep B sb no c e c' e') (h' : FileStep B sb no c' e' c'' e'') :
    FileStep B sb no c e c'' e'' where
  settled := h'.settled
  file := h'.file
  view := fun x hx hown hr hne => by
    have hr' : x ∉ refs (B.view c') e' := fun hm => (h.fresh x hm).elim hr fun hn => hn hx
    rw [h'.view x ((h.used x).mpr (.inr ⟨hx, hr⟩)) hown hr' hne, h.view x hx hown hr hne]
  table := fun no' hlt hne => (h'.table no' hlt hne).trans (h.table no' hlt hne)
  fresh := fun x hx => by
    rcases h'.fresh x hx with hm | hn
    · exact h.fresh x hm
    · rw [h.used, not_or, not_and_not_right] at hn
      by_cases hu : B.used c x
      · exact .inl (hn.2 hu)
      · exact .inr hu
  used := fun x => by
    rw [h'.used, h.used]
    refine or_congr_right ⟨?_, fun ⟨hu, hr⟩ => ⟨.inr ⟨hu, hr⟩, fun hm =>
      (h.fresh x hm).elim hr fun hn => hn hu⟩⟩
    rintro ⟨hm | hu, hn⟩
    · exact absurd hm hn
    · exact hu
  room := h'.room.trans h.room

theorem FileStep.grow (h : FileOk B c e) (hs : B.Settled c') (hfresh : ¬ B.used c b)
    (hfix : ¬ B.fixed b) (hrefs : (refs (B.view c') e').Perm (b :: refs (B.view c) e))
    (hview : ∀ x, B.used c x → ¬ B.own x → x ∉ refs (B.view c) e → x ≠ sb.toBlockNo no →
      B.view c' x = B.view c x)
    (htable : ∀ no' < sb.numInodes, no' ≠ no →
      entryAt sb (B.view c') no' = entryAt sb (B.view c) no')
    (hused : ∀ x, B.used c' x ↔ x = b ∨ B.used c x) (hroom : B.room c' + 1 = B.room c) :
    FileStep B sb no c e c' e' := by
  have hmem : ∀ x, x ∈ refs (B.view c') e' ↔ x = b ∨ x ∈ refs (B.view c) e := fun x =>
    hrefs.mem_iff.trans mem_cons
  have hnew : b ∉ refs (B.view c) e := fun hb => hfresh (h.used b hb)
  refine ⟨hs, ⟨?_, fun x hx => ?_, fun x hx => ?_⟩, hview, htable, fun x hx => ?_, fun x => ?_, ?_⟩
  · exact hrefs.nodup_iff.mpr (nodup_cons.mpr ⟨hnew, h.nodup⟩)
  · exact (hused x).mpr (((hmem x).mp hx).imp_right (h.used x))
  · rcases (hmem x).mp hx with rfl | hx
    · exact hfix
    · exact h.data x hx
  · rcases (hmem x).mp hx with rfl | hx
    · exact .inr hfresh
    · exact .inl hx
  · rw [hused, hmem, or_assoc]
    exact or_congr_right (h.used_iff x)
  · rw [hrefs.length_eq, length_cons]
    omega

section

variable (L : StoreLaws bc B)

include L

theorem entryAt_of_update (hib : InodeBlocks B sb) (hok : B.Ok c)
    (hself : B.view c' (sb.toBlockNo no) = e.intoBlock (B.view c (sb.toBlockNo no)) no)
    (hother : ∀ x, B.used c x → ¬ B.own x → x ≠ sb.toBlockNo no → B.fixed x →
      B.view c' x = B.view c x) :
    ∀ no' < sb.numInodes, no' ≠ no → entryAt sb (B.view c') no' = entryAt sb (B.view c) no' := by
  intro no' hno' hne
  rw [entryAt, entryAt]
  by_cases hb : sb.toBlockNo no' = sb.toBlockNo no
  · rw [hb, hself]
    refine InodeEntry.ofBlock_intoBlock_of_ne _ _ ?_
    simp only [SuperBlock.toBlockNo, INODE_PER_BLOCK, INODE_ENTRY_BYTES, BLOCK_SIZE] at hb ⊢
    omega
  · have hfix := hib.fixed no' hno'
    rw [hother _ (L.used_of_fixed hok hfix) (hib.own no' hno') hb hfix]

section

variable (h : FileOk B c e) (hs : B.Same c c')

include h hs

theorem FileOk.indirect_same (h0 : e.indirect ≠ 0) : B.view c' e.indirect = B.view c e.indirect :=
  hs.view _ (h.used _ (indirect_mem_refs h0)) (h.own L (indirect_mem_refs h0))

theorem FileOk.of_same : FileOk B c' e := by
  have hrefs : refs (B.view c') e = refs (B.view c) e :=
    refs_congr (fun _ _ => rfl) rfl (h.indirect_same L hs)
  refine ⟨hrefs ▸ h.nodup, ?_, hrefs ▸ h.data⟩
  rw [hrefs, hs.used]
  exact h.used

theorem FileOk.fileBlock_same (i : Nat) : fileBlock (B.view c') e i = fileBlock (B.view c) e i :=
  fileBlock_congr (fun _ _ => rfl) rfl (h.indirect_same L hs)

end

theorem FileStep.of_same (hib : InodeBlocks B sb)
    (hok : B.Ok c) (h : FileOk B c e) (hs : B.Same c c') : FileStep B sb no c e c' e := by
  have hrefs : refs (B.view c') e = refs (B.view c) e :=
    refs_congr (fun _ _ => rfl) rfl (h.indirect_same L hs)
  refine ⟨hs.settled, h.of_same L hs, fun x hx hown _ _ => hs.view x hx hown,
    fun no' hlt _ => ?_, fun x hx => .inl (hrefs ▸ hx), fun x => ?_, by rw [hrefs, hs.room]⟩
  · rw [entryAt, entryAt, hs.view _ (L.used_of_fixed hok (hib.fixed no' hlt)) (hib.own no' hlt)]
  · rw [hrefs, hs.used]
    exact h.used_iff x

theorem FileStep.shrink (hib : InodeBlocks B sb)
    (hok : B.Ok c) (old : List Nat) (h : FileOk B c e) (hs : B.Settled c')
    (hrefs : (refs (B.view c) e).Perm (old ++ refs (B.view c') e'))
    (hview : ∀ x, B.used c x → ¬ B.own x → x ∉ refs (B.view c) e → B.view c' x = B.view c x)
    (hused : ∀ x, B.used c' x ↔ x ∉ old ∧ B.used c x)
    (hroom : B.room c' = B.room c + old.length) : FileStep B sb no c e c' e' := by
  have hmem : ∀ x, x ∈ refs (B.view c) e ↔ x ∈ old ∨ x ∈ refs (B.view c') e' := fun x =>
    hrefs.mem_iff.trans mem_append
  have hnodup := nodup_append.mp (hrefs.nodup_iff.mp h.nodup)
  have hold : ∀ x ∈ refs (B.view c') e', x ∉ old := fun x hx ho => hnodup.2.2 x ho x hx rfl
  refine ⟨hs, ⟨hnodup.2.1, fun x hx => (hused x).mpr ⟨hold x hx, h.used x ((hmem x).mpr (.inr hx))⟩,
    fun x hx => h.data x ((hmem x).mpr (.inr hx))⟩, fun x hx hown hr _ => hview x hx hown hr,
    fun no' hno' _ => ?_, fun x hx => .inl ((hmem x).mpr (.inr hx)), fun x => ?_, ?_⟩
  · have hfix := hib.fixed no' hno'
    rw [entryAt, entryAt, hview _ (L.used_of_fixed hok hfix) (hib.own no' hno')
      fun hm => h.data _ hm hfix]
  · rw [hused, hmem]
    by_cases hx : x ∈ refs (B.view c') e'
    · simp [hx, hold x hx, h.used x ((hmem x).mpr (.inr hx))]
    · simp [hx, and_comm]
  · rw [hroom, hrefs.length_eq, length_append]
    omega

end

theorem FileStep.of_entry (hs : B.Settled c) (h : FileOk B c e)
    (hd : ∀ i < INODE_NUM_DIRECT, e'.addr i = e.addr i) (hi : e'.indirect = e.indirect) :
    FileStep B sb no c e c e' := by
  have hrefs : refs (B.view c) e' = refs (B.view c) e := refs_congr hd hi fun _ => rfl
  refine ⟨hs, ⟨hrefs ▸ h.nodup, hrefs ▸ h.used, hrefs ▸ h.data⟩, fun _ _ _ _ _ => rfl,
    fun _ _ _ => rfl, fun x hx => .inl (hrefs ▸ hx), fun x => ?_, by rw [hrefs]⟩
  rw [hrefs]
  exact h.used_iff x

theorem FileStep.of_sync (L : StoreLaws bc B) (hib : InodeBlocks B sb)
    (hno : no < sb.numInodes) (hok : B.Ok c) (h : FileOk B c e)
    (hu : B.Updated c (sb.toBlockNo no) (fun d => e.intoBlock d no) c') :
    FileStep B sb no c e c' e := by
  have hrefs : refs (B.view c') e = refs (B.view c) e := refs_congr (fun _ _ => rfl) rfl fun h0 =>
      hu.view _ (h.used _ (indirect_mem_refs h0)) (h.own L (indirect_mem_refs h0))
        (h.ne_toBlockNo hib hno (indirect_mem_refs h0))
  refine ⟨hu.settled, ⟨hrefs ▸ h.nodup, ?_, hrefs ▸ h.data⟩,
    fun x hx hown _ hne => hu.view x hx hown hne,
    entryAt_of_update L hib hok hu.self fun x hx hown hne _ => hu.view x hx hown hne,
    fun x hx => .inl (hrefs ▸ hx), fun x => ?_, by rw [hrefs, hu.room]⟩
  · rw [hrefs, hu.used]
    exact h.used
  · rw [hrefs, hu.used]
    exact h.used_iff x

theorem FileStep.of_data (L : StoreLaws bc B) (hib : InodeBlocks B sb)
    (hok : B.Ok c) (h : FileOk B c e) {f : Data → Data} (hb : b ∈ refs (B.view c) e)
    (hind : b ≠ e.indirect) (hu : B.Updated c b f c') : FileStep B sb no c e c' e := by
  have hrefs : refs (B.view c') e = refs (B.view c) e := refs_congr (fun _ _ => rfl) rfl fun h0 =>
      hu.view _ (h.used _ (indirect_mem_refs h0)) (h.own L (indirect_mem_refs h0)) hind.symm
  refine ⟨hu.settled, ⟨hrefs ▸ h.nodup, ?_, hrefs ▸ h.data⟩, fun x hx hown hnr _ => ?_,
    fun no' hno' _ => ?_, fun x hx => .inl (hrefs ▸ hx), fun x => ?_, by rw [hrefs, hu.room]⟩
  · rw [hrefs, hu.used]
    exact h.used
  · exact hu.view x hx hown fun he => hnr (he ▸ hb)
  · rw [entryAt, entryAt, hu.view _ (L.used_of_fixed hok (hib.fixed no' hno')) (hib.own no' hno')
      (h.ne_toBlockNo hib hno' hb).symm]
  · rw [hrefs, hu.used]
    exact h.used_iff x

theorem addrs_fileBlock (hd : ∀ i < INODE_NUM_DIRECT, e.addr i = 0)
    (hi : e.indirect ≠ 0) (n : Nat) :
    addrs (fileBlock v e) (INODE_NUM_DIRECT + n) = addrs (indirectAddr (v e.indirect)) n := by
  induction n with
  | zero =>
    exact addrs_eq_nil fun i hlt => by
      rw [fileBlock_direct hlt, hd i hlt]
  | succ n ih =>
    rw [← Nat.add_assoc, addrs_succ, ih, addrs_succ, fileBlock_indirect (by omega) hi,
      Nat.add_sub_cancel_left]

theorem refs_eq_nil (hd : ∀ i < INODE_NUM_DIRECT, e.addr i = 0)
    (hi : e.indirect = 0) : refs v e = [] := by
  rw [refs, if_pos hi, nil_append]
  refine addrs_eq_nil fun i _ => ?_
  by_cases h : i < INODE_NUM_DIRECT
  · rw [fileBlock_direct h, hd i h]
  · exact fileBlock_of_indirect_zero h hi

end

end OsKernel
