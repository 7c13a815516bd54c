import OsKernel.Fs.FileBlocks
import OsKernel.Fs.Metered

/-!
# Mapping and clearing a file

What `inode_sync`, `inode_map` and `inode_clear` do on a block store: each is a step of
one file (`FileStep`).  They stop only if the store may stop or has no room for the longest
file.
-/

namespace OsKernel

open Prog Function List InodeEntry

variable {κ β : Type} {env : FsEnv κ} {B : StoreView κ} {s : Fs κ} {ip : Nat} {c : κ}
  {e : InodeEntry} {R : β → Fs κ → Prop} {P : Prop}

/-! ## Programs on one file -/

theorem exec_setEntry (s : Fs κ) (ip : Nat) (c : κ) (e : InodeEntry) (g : InodeEntry → InodeEntry) :
    (setEntry ip g).exec (s.setFile ip c e) = (.ok (), s.setFile ip c (g e)) := by
  have hs : { s.setFile ip c e with
      inodes := update (s.setFile ip c e).inodes ip
        { (s.setFile ip c e).inodes ip with entry := g ((s.setFile ip c e).inodes ip).entry } } =
      s.setFile ip c (g e) := by
    simp [Fs.setFile]
  rw [← hs]
  rfl

theorem post_setEntry {E : Fs κ → Prop} {g : InodeEntry → InodeEntry} {f : Unit → FsM κ β}
    (h : Post R E ((f ()).exec (s.setFile ip c (g e)))) :
    Post R E ((setEntry ip g >>= f).exec (s.setFile ip c e)) := by
  rw [exec_bind_ok (exec_setEntry s ip c e g)]
  exact h

theorem acquire_getInode (env : FsEnv κ) (b ip : Nat) (f : Nat → Inode → FsM κ β) :
    (acquire env b >>= fun a => getInode ip >>= fun i => f a i) =
      getInode ip >>= fun i => acquire env b >>= fun a => f a i := by
  unfold acquire
  refine ext_exec fun s => ?_
  have hget : ∀ (s : Fs κ) (g : Inode → FsM κ β),
      (getInode ip >>= g).exec s = (g (s.inodes ip)).exec s := fun _ _ => rfl
  rw [hget, exec_bind, exec_bind]
  rcases h : (onCache (env.cache.acquire (usize b))).exec s with ⟨_ | a, s'⟩
  · rfl
  · have hin : s'.inodes = s.inodes := by
      rw [← (Prod.mk.inj h).2]
    dsimp only
    rw [hget, hin]

theorem post_inodeSync (L : StoreLaws env.cache B) (hib : InodeBlocks B env.sb)
    (hP : B.stops → P) {ctx : Option Nat} {f : Unit → FsM κ β} (hs : B.Settled c)
    (hno : (s.inodes ip).inodeNo < env.sb.numInodes)
    (h : ∀ c', B.Updated c (env.sb.toBlockNo (s.inodes ip).inodeNo)
        (fun d => e.intoBlock d (s.inodes ip).inodeNo) c' →
      Post R (fun _ => P) ((f ()).exec (s.setFile ip c' e))) :
    Post R (fun _ => P) ((inodeSync env ctx ip true >>= f).exec (s.setFile ip c e)) := by
  unfold inodeSync copyEntry
  simp only [bind_assoc, if_true]
  refine post_getInode ?_
  rw [Fs.inodes_setFile]
  refine post_assert hno ?_
  rw [acquire_getInode]
  refine post_getInode ?_
  rw [Fs.inodes_setFile]
  exact post_updateBlock L hP hs (hib.lt _ hno) (hib.own _ hno) h

/-! ## `inode_map` -/

/-- `inode_map` has returned the block `b` for the index `idx`. -/
structure Mapped (B : StoreView κ) (sb : SuperBlock) (no : Nat) (c : κ) (e : InodeEntry)
    (idx b : Nat) (c' : κ) (e' : InodeEntry) : Prop extends FileStep B sb no c e c' e' where
  attrs : e.SameAttrs e'
  ne_zero : b ≠ 0
  self : fileBlock (B.view c') e' idx = b
  other : ∀ j < MAX_BLOCKS, j ≠ idx → fileBlock (B.view c') e' j = fileBlock (B.view c) e j
  data : ∀ j < MAX_BLOCKS, fileBlock (B.view c) e j ≠ 0 →
    B.view c' (fileBlock (B.view c) e j) = B.view c (fileBlock (B.view c) e j)
  zero : fileBlock (B.view c) e idx = 0 → B.view c' b = Bytes.zero
  same : fileBlock (B.view c) e idx ≠ 0 → e' = e ∧ B.Same c c'

section

variable {sb : SuperBlock} {no idx b : Nat} {c' c₁ : κ}

variable {bc : BlockCache κ} {t : Nat}

theorem Mapped.of_same (L : StoreLaws bc B) (hib : InodeBlocks B sb)
    (hok : B.Ok c) (h : FileOk B c e) (h0 : fileBlock (B.view c) e idx ≠ 0) (hs : B.Same c c') :
    Mapped B sb no c e idx (fileBlock (B.view c) e idx) c' e := by
  have hblock := h.fileBlock_same L hs
  refine { FileStep.of_same L hib hok h hs with
    attrs := .refl e
    ne_zero := h0
    self := hblock idx
    other := fun j _ _ => hblock j
    data := fun j hj hj0 => ?_
    zero := fun hz => absurd hz h0
    same := fun _ => ⟨rfl, hs⟩ }
  have hm := fileBlock_mem_refs hj hj0
  exact hs.view _ (h.used _ hm) (h.own L hm)

theorem Mapped.direct (L : StoreLaws bc B) (hib : InodeBlocks B sb)
    (hno : no < sb.numInodes) (hs : B.Settled c) (h : FileOk B c e)
    (hidx : idx < INODE_NUM_DIRECT) (h0 : e.addr idx = 0) (ha : B.Allocated c b c₁)
    (hu : B.Updated c₁ (sb.toBlockNo no) (fun d => (e.setAddr idx b).intoBlock d no) c') :
    Mapped B sb no c e idx b c' (e.setAddr idx b) := by
  have hlt : idx < MAX_BLOCKS := Nat.lt_of_lt_of_le hidx (Nat.le_add_right _ _)
  have hfix : ¬ B.fixed b := fun hf => ha.fresh (L.used_of_fixed hs.ok hf)
  have hnew : b ≠ sb.toBlockNo no := fun he => hfix (he ▸ hib.fixed no hno)
  have hview : ∀ x, B.used c x → ¬ B.own x → x ≠ sb.toBlockNo no → B.view c' x = B.view c x :=
    fun x hx hown hne => by
      rw [hu.view x ((ha.used x).mpr (.inr hx)) hown hne, ha.view hs hx hown]
  have hrefs : ∀ x ∈ refs (B.view c) e, B.view c' x = B.view c x := fun x hx =>
    hview x (h.used x hx) (h.own L hx) (h.ne_toBlockNo hib hno hx)
  have hself : fileBlock (B.view c') (e.setAddr idx b) idx = b := by
    rw [fileBlock_direct hidx, addr_setAddr_self e b hidx, Nat.mod_eq_of_lt ha.lt]
  have hother : ∀ j < MAX_BLOCKS, j ≠ idx →
      fileBlock (B.view c') (e.setAddr idx b) j = fileBlock (B.view c) e j := by
    intro j hj hne
    unfold fileBlock
    rw [addr_setAddr_of_ne e b hne, indirect_setAddr e b hidx]
    split
    · rfl
    · split
      next => rfl
      next hi => rw [hrefs _ (indirect_mem_refs hi)]
  have hinode := ha.view hs (L.used_of_fixed hs.ok (hib.fixed no hno)) (hib.own no hno)
  refine { FileStep.grow h hu.settled ha.fresh hfix
      (refs_fill hlt (by rw [fileBlock_direct hidx, h0]) ha.ne_zero hself hother
        (indirect_setAddr e b hidx))
      (fun x hx hown _ hne => hview x hx hown hne)
      (entryAt_of_update L hib hs.ok (by rw [hu.self, hinode])
        fun x hx hown hne _ => hview x hx hown hne)
      (fun x => by rw [hu.used, ha.used]) (by rw [hu.room, ha.room]) with
    attrs := .setAddr e idx b
    ne_zero := ha.ne_zero
    self := hself
    other := hother
    data := fun j hj hj0 => hrefs _ (fileBlock_mem_refs hj hj0)
    zero := fun _ => ?_
    same := fun hz => absurd h0 (fileBlock_direct hidx ▸ hz) }
  rw [hu.view b ((ha.used b).mpr (.inl rfl)) (fun ho => hfix (L.fixed_of_own ho)) hnew, ha.zero]

/-- A new block `b`, recorded in the held block `t`. -/
structure Recorded (B : StoreView κ) (c : κ) (t b : Nat) (f : Data → Data) (c' : κ) : Prop where
  settled : B.Settled c'
  ne_zero : b ≠ 0
  lt : b < 2 ^ 32
  fresh : ¬ B.used c b
  zero : B.view c' b = Bytes.zero
  self : B.view c' t = f (B.view c t)
  view : ∀ x, B.used c x → ¬ B.own x → x ≠ t → B.view c' x = B.view c x
  used : ∀ x, B.used c' x ↔ x = b ∨ B.used c x
  room : B.room c' + 1 = B.room c

/-- Between `acquire` and `release` of the block `t`, a block is allocated and `t` changed and
synced. -/
theorem Recorded.of_steps {a : Nat} {f : Data → Data}
    {c2 c3 c4 : κ} (hs : B.Settled c) (ht : B.used c t) (hown : ¬ B.own t)
    (h1 : B.Acquired c t a c₁) (h2 : B.Allocated c₁ b c2) (h3 : B.Changed c2 t f c3)
    (h4 : B.Synced c3 t c4) (h5 : B.Released c4 a t c') : Recorded B c t b f c' := by
  have hfresh : ¬ B.used c b := h1.used ▸ h2.fresh
  have hbt : b ≠ t := by
    rintro rfl
    exact hfresh ht
  have ha2 : B.held c2 a = some t := h2.held ▸ h1.held_self
  have ha3 : B.held c3 a = some t := h3.held ▸ ha2
  have hkeep : ∀ x, B.used c x → ¬ B.own x → x ≠ t → B.Keeps c c' x := fun x hx hox hne => by
    have hxb : x ≠ b := by
      rintro rfl
      exact hfresh hx
    exact ((((h1.keeps x).trans (h2.keeps x hox hxb)).trans (h3.keeps x hne)).trans
      (h4.keeps x)).trans (h5.keeps x hne)
  have hb := (((h3.keeps b hbt).trans (h4.keeps b)).trans (h5.keeps b hbt)) h2.safe
  have ht2 := h2.keeps t hown hbt.symm (.inr ⟨a, h1.held_self⟩)
  have ht4 := h4.keeps t (.inr ⟨a, ha3⟩)
  have ht5 := h5.keepsSynced h4.synced (.inl h4.synced)
  have hused : ∀ x, B.used c' x ↔ x = b ∨ B.used c x := fun x => by
    rw [h5.used, h4.used, h3.used, h2.used, h1.used]
  refine
    { settled := hs.of_keeps h5.ok ?_ fun x hx hox => ?_
      ne_zero := h2.ne_zero
      lt := h2.lt
      fresh := hfresh
      zero := hb.2.trans h2.zero
      self := by rw [ht5.2, ht4.2, h3.view, ht2.2, h1.view]
      view := fun x hx hox hne => (hkeep x hx hox hne (hs.safe hx hox)).2
      used := hused
      room := by rw [h5.room, h4.room, h3.room, h2.room, h1.room] }
  · exact h1.held_released (h4.held.trans (h3.held.trans h2.held)) h5
  · by_cases hxt : x = t
    · exact .inr (hxt ▸ ht5.1)
    · rcases (hused x).mp hx with rfl | hu
      · exact .inr hb.1
      · exact .inl ⟨hu, hkeep x hu hox hxt⟩

theorem Mapped.indirect (L : StoreLaws bc B) (hib : InodeBlocks B sb)
    (hs : B.Settled c) (h : FileOk B c e) (hind : e.indirect ≠ 0)
    (hidx : idx < INODE_NUM_INDIRECT) (h0 : indirectAddr (B.view c e.indirect) idx = 0)
    (hr : Recorded B c e.indirect b (fun d => setIndirectAddr d idx b) c') :
    Mapped B sb no c e (idx + INODE_NUM_DIRECT) b c' e := by
  have hlt := add_direct_lt hidx
  have hnd : ¬ idx + INODE_NUM_DIRECT < INODE_NUM_DIRECT := by omega
  have hz : fileBlock (B.view c) e (idx + INODE_NUM_DIRECT) = 0 := by
    rw [fileBlock_indirect hnd hind, Nat.add_sub_cancel, h0]
  have hfix : ¬ B.fixed b := fun hf => hr.fresh (L.used_of_fixed hs.ok hf)
  have hself : fileBlock (B.view c') e (idx + INODE_NUM_DIRECT) = b := by
    rw [fileBlock_indirect hnd hind, Nat.add_sub_cancel, hr.self,
      indirectAddr_setIndirectAddr_self _ _ hidx, Nat.mod_eq_of_lt hr.lt]
  have hother : ∀ j < MAX_BLOCKS, j ≠ idx + INODE_NUM_DIRECT →
      fileBlock (B.view c') e j = fileBlock (B.view c) e j := by
    intro j _ hne
    by_cases hj : j < INODE_NUM_DIRECT
    · rw [fileBlock_direct hj, fileBlock_direct hj]
    · rw [fileBlock_indirect hj hind, fileBlock_indirect hj hind, hr.self,
        indirectAddr_setIndirectAddr_of_ne _ _ (by omega)]
  have hinode : ∀ no' < sb.numInodes, entryAt sb (B.view c') no' = entryAt sb (B.view c) no' :=
    fun no' hno' => by
      rw [entryAt, entryAt, hr.view _ (L.used_of_fixed hs.ok (hib.fixed no' hno')) (hib.own no' hno')
        (h.ne_toBlockNo hib hno' (indirect_mem_refs hind)).symm]
  refine { FileStep.grow h hr.settled hr.fresh hfix (refs_fill hlt hz hr.ne_zero hself hother rfl)
      (fun x hx hown hnr _ => hr.view x hx hown fun he => hnr (he ▸ indirect_mem_refs hind))
      (fun no' hno' _ => hinode no' hno') hr.used hr.room with
    attrs := .refl e
    ne_zero := hr.ne_zero
    self := hself
    other := hother
    data := fun j hj hj0 => ?_
    zero := fun _ => hr.zero
    same := fun hnz => absurd hz hnz }
  have hm := fileBlock_mem_refs hj hj0
  exact hr.view _ (h.used _ hm) (h.own L hm) (fileBlock_ne_indirect h.nodup hj hj0)

/-- A new, empty indirect block adds no block to the file itself. -/
structure IndirectAdded (B : StoreView κ) (sb : SuperBlock) (no : Nat) (c : κ) (e : InodeEntry)
    (t : Nat) (c' : κ) : Prop extends FileStep B sb no c e c' (e.setIndirect t) where
  ne_zero : (e.setIndirect t).indirect ≠ 0
  blocks : ∀ j < MAX_BLOCKS,
    fileBlock (B.view c') (e.setIndirect t) j = fileBlock (B.view c) e j
  data : ∀ x ∈ refs (B.view c) e, B.view c' x = B.view c x

theorem IndirectAdded.of_alloc (L : StoreLaws bc B) (hib : InodeBlocks B sb)
    (hs : B.Settled c) (h : FileOk B c e) (h0 : e.indirect = 0)
    (ha : B.Allocated c t c₁) (hu : B.Updated c₁ t (fun _ => Bytes.zero) c') :
    IndirectAdded B sb no c e t c' := by
  have hfix : ¬ B.fixed t := fun hf => ha.fresh (L.used_of_fixed hs.ok hf)
  have hind : (e.setIndirect t).indirect = t := by
    rw [indirect_setIndirect, Nat.mod_eq_of_lt ha.lt]
  have hne : (e.setIndirect t).indirect ≠ 0 := by
    rw [hind]
    exact ha.ne_zero
  have hview : ∀ x, B.used c x → ¬ B.own x → B.view c' x = B.view c x := fun x hx hown => by
    have hxt : x ≠ t := by
      rintro rfl
      exact ha.fresh hx
    rw [hu.view x ((ha.used x).mpr (.inr hx)) hown hxt, ha.view hs hx hown]
  have hblock : ∀ j < MAX_BLOCKS,
      fileBlock (B.view c') (e.setIndirect t) j = fileBlock (B.view c) e j := fun j _ => by
    by_cases hj : j < INODE_NUM_DIRECT
    · rw [fileBlock_direct hj, fileBlock_direct hj, addr_setIndirect e t hj]
    · rw [fileBlock_of_indirect_zero hj h0, fileBlock_indirect hj hne, hind, hu.self,
        indirectAddr_zero]
  exact
    { FileStep.grow h hu.settled ha.fresh hfix
        (List.Perm.of_eq (refs_setIndirect ha.ne_zero h0 hind hblock))
        (fun x hx hown _ _ => hview x hx hown)
        (fun no' hno' _ => by
          rw [entryAt, entryAt, hview _ (L.used_of_fixed hs.ok (hib.fixed no' hno'))
            (hib.own no' hno')])
        (fun x => by rw [hu.used, ha.used]) (by rw [hu.room, ha.room]) with
      ne_zero := hne
      blocks := hblock
      data := fun x hx => hview x (h.used x hx) (h.own L hx) }

theorem IndirectAdded.mapped {c2 : κ} {e' : InodeEntry}
    (hadd : IndirectAdded B sb no c e t c2) (hidx : ¬ idx < INODE_NUM_DIRECT)
    (hlt : idx < MAX_BLOCKS) (h0 : e.indirect = 0)
    (hm : Mapped B sb no c2 (e.setIndirect t) idx b c' e') : Mapped B sb no c e idx b c' e' := by
  have hz : fileBlock (B.view c) e idx = 0 := fileBlock_of_indirect_zero hidx h0
  refine { hadd.toFileStep.trans hm.toFileStep with
    attrs := (InodeEntry.SameAttrs.setIndirect e t).trans hm.attrs
    ne_zero := hm.ne_zero
    self := hm.self
    other := fun j hj hne => (hm.other j hj hne).trans (hadd.blocks j hj)
    data := fun j hj hj0 => ?_
    zero := fun _ => hm.zero (by rw [hadd.blocks idx hlt, hz])
    same := fun hnz => absurd hz hnz }
  rw [← hadd.data _ (fileBlock_mem_refs hj hj0), ← hadd.blocks j hj]
  exact hm.data j hj (by rwa [hadd.blocks j hj])

end

/-- The results of a program that maps the index `idx` of the file at `ip`. -/
def MapPost (B : StoreView κ) (sb : SuperBlock) (s : Fs κ) (ip : Nat) (c : κ) (e : InodeEntry)
    (idx : Nat) (b : Nat) (s' : Fs κ) : Prop :=
  ∃ c' e', s' = s.setFile ip c' e' ∧ Mapped B sb (s.inodes ip).inodeNo c e idx b c' e'

section

variable {ctx cap : Nat} {M : Meter env.cache B ctx cap} {T : Finset Nat} {E : κ → Prop}
  (hE : ∀ c, M.stop c → E c)

include hE

theorem met_inodeSync (hib : InodeBlocks B env.sb) {f : Unit → FsM κ β} (hin : M.In c T)
    (hs : B.Settled c) (hno : (s.inodes ip).inodeNo < env.sb.numInodes)
    (hcard : (insert (env.sb.toBlockNo (s.inodes ip).inodeNo) T).card ≤ cap)
    (h : ∀ c', B.Updated c (env.sb.toBlockNo (s.inodes ip).inodeNo)
        (fun d => e.intoBlock d (s.inodes ip).inodeNo) c' →
      M.In c' (insert (env.sb.toBlockNo (s.inodes ip).inodeNo) T) →
      Post R (fun s' => E s'.cache) ((f ()).exec (s.setFile ip c' e))) :
    Post R (fun s' => E s'.cache)
      ((inodeSync env (some ctx) ip true >>= f).exec (s.setFile ip c e)) := by
  unfold inodeSync copyEntry
  simp only [bind_assoc, if_true]
  refine post_getInode ?_
  rw [Fs.inodes_setFile]
  refine post_assert hno ?_
  rw [acquire_getInode]
  refine post_getInode ?_
  rw [Fs.inodes_setFile]
  exact met_updateBlock hE hin hs (hib.lt _ hno) (hib.own _ hno) hcard h

omit hE

/-- The results of `inode_map`: a new block adds two to the weight, and has been passed. -/
def MapBill (M : Meter env.cache B ctx cap) (ib : Nat) (s : Fs κ) (ip : Nat) (c : κ) (e : InodeEntry)
    (T : Finset Nat) (idx b : Nat) (s' : Fs κ) : Prop :=
  ∃ c' e' T', s' = s.setFile ip c' e' ∧ Mapped B env.sb (s.inodes ip).inodeNo c e idx b c' e' ∧
    M.In c' T' ∧ weight T' ib e'.indirect ≤
      weight T ib e.indirect + (if fileBlock (B.view c) e idx = 0 then 2 else 0) ∧
    (fileBlock (B.view c) e idx = 0 → b ∈ T')

include hE

theorem met_mapIndirect (s : Fs κ) (ip ib : Nat) (L : StoreLaws env.cache B)
    (hib : InodeBlocks B env.sb) (hF : B.Scarce c e → ∀ c', M.full c' → E c') {idx : Nat}
    (hin : M.In c T) (hs : B.Settled c) (h : FileOk B c e) (hind : e.indirect ≠ 0)
    (hidx : idx < INODE_NUM_INDIRECT)
    (hfits : weight T ib e.indirect +
      (if fileBlock (B.view c) e (idx + INODE_NUM_DIRECT) = 0 then 2 else 0) ≤ cap) :
    Post (MapBill M ib s ip c e T (idx + INODE_NUM_DIRECT)) (fun s' => E s'.cache)
      ((mapIndirect env (some ctx) ip idx).exec (s.setFile ip c e)) := by
  have hmem := indirect_mem_refs (v := B.view c) hind
  have hown := h.own L hmem
  have hnd : ¬ idx + INODE_NUM_DIRECT < INODE_NUM_DIRECT := by omega
  have hblock : fileBlock (B.view c) e (idx + INODE_NUM_DIRECT) =
      indirectAddr (B.view c e.indirect) idx := by
    rw [fileBlock_indirect hnd hind, Nat.add_sub_cancel]
  have hlt : e.indirect < 2 ^ 64 := Nat.lt_trans e.indirect_lt (by decide)
  unfold mapIndirect MapBill
  rw [hblock] at hfits ⊢
  refine post_getInode ?_
  rw [Fs.inodes_setFile]
  refine met_acquire hE hin hs hlt hown fun a c₁ h1 i1 => ?_
  rw [if_pos hidx]
  refine post_blockData L h1.ok h1.held_self ?_
  dsimp only [Fs.cache_setFile] at h1 ⊢
  rw [h1.view]
  by_cases h0 : indirectAddr (B.view c e.indirect) idx = 0
  · rw [if_pos h0] at hfits
    rw [if_pos h0, if_pos ⟨h0, nofun⟩]
    have hcard := card_le_weight T ib e.indirect
    refine met_alloc hE (fun hroom => hF ?_) i1 h1.ok
      (hs.holding_acquired (h.used _ hmem) hown h1) (by omega) fun b c2 m h2 i2 => ?_
    · have := length_refs_lt (v := B.view c) (e := e) (add_direct_lt hidx) (hblock.trans h0)
      rw [h1.room] at hroom
      omega
    have hw := weight_alloc T ib e.indirect b m
    have ha2 : B.held c2 a = some e.indirect := h2.held ▸ h1.held_self
    refine met_setBlockData hE i2 h2.ok ha2 hown fun c3 h3 i3 => ?_
    have ha3 : B.held c3 a = some e.indirect := h3.held ▸ ha2
    refine met_sync hE i3 h3.ok ha3 hown
      (((card_insert_indirect_le _ ib hind).trans hw).trans hfits) fun c4 h4 i4 => ?_
    have ha4 : B.held c4 a = some e.indirect := h4.held ▸ ha3
    refine met_release hE i4 h4.ok ha4 hown fun c5 h5 i5 => ?_
    exact ⟨c5, e, _, rfl, Mapped.indirect L hib hs h hind hidx h0
      (.of_steps hs (h.used _ hmem) hown h1 h2 h3 h4 h5), i5,
      (weight_insert_indirect _ ib hind).trans hw,
      fun _ => Finset.mem_insert_of_mem (Finset.mem_insert_self _ _)⟩
  · rw [if_neg h0, if_neg fun hc => h0 hc.1]
    refine met_release hE i1 h1.ok h1.held_self hown fun c2 h2 i2 => ?_
    refine ⟨c2, e, T, rfl, ?_, i2, Nat.le_refl _, fun hz => absurd hz h0⟩
    rw [← hblock]
    exact Mapped.of_same L hib hs.ok h (hblock ▸ h0)
      (hs.same_of_read (h.used _ hmem) hown h1 h2)

theorem met_inodeMap (L : StoreLaws env.cache B) (hib : InodeBlocks B env.sb)
    (hF : B.Scarce c e → ∀ c', M.full c' → E c') {offset : Nat} (hin : M.In c T)
    (hs : B.Settled c) (h : FileOk B c e) (hno : (s.inodes ip).inodeNo < env.sb.numInodes)
    (hoff : offset / BLOCK_SIZE < MAX_BLOCKS)
    (hfits : weight T (env.sb.toBlockNo (s.inodes ip).inodeNo) e.indirect +
      (if fileBlock (B.view c) e (offset / BLOCK_SIZE) = 0 then 2 else 0) ≤ cap) :
    Post (MapBill M (env.sb.toBlockNo (s.inodes ip).inodeNo) s ip c e T (offset / BLOCK_SIZE))
      (fun s' => E s'.cache) ((inodeMap env (some ctx) ip offset).exec (s.setFile ip c e)) := by
  generalize hblk : env.sb.toBlockNo (s.inodes ip).inodeNo = ib at hfits ⊢
  have hcard := card_le_weight T ib e.indirect
  unfold inodeMap
  refine post_getInode ?_
  rw [Fs.inodes_setFile]
  by_cases hd : offset / BLOCK_SIZE < INODE_NUM_DIRECT
  · rw [if_pos hd]
    unfold MapBill
    rw [fileBlock_direct hd] at hfits ⊢
    by_cases h0 : e.addr (offset / BLOCK_SIZE) = 0
    · rw [if_pos h0] at hfits
      rw [if_pos h0, if_pos ⟨h0, nofun⟩]
      refine met_alloc hE (fun hroom => hF ?_) hin hs.ok hs.holding (by omega)
        fun b c₁ m h1 i1 => ?_
      · have := length_refs_lt (v := B.view c) (e := e) hoff ((fileBlock_direct hd).trans h0)
        dsimp only [Fs.cache_setFile] at hroom
        omega
      have hw := weight_alloc T ib e.indirect b m
      have hind := indirect_setAddr e b hd
      refine post_setEntry (met_inodeSync hE hib i1 (hs.allocated h1) hno ?_ fun c2 h2 i2 => ?_)
      · rw [hblk]
        exact ((card_insert_inode_le ..).trans hw).trans hfits
      rw [hblk] at i2
      refine ⟨c2, _, _, rfl, Mapped.direct L hib hno hs h hd h0 h1 h2, i2, ?_,
        fun _ => Finset.mem_insert_of_mem (Finset.mem_insert_self _ _)⟩
      rw [hind]
      exact (weight_insert_inode ..).trans hw
    · rw [if_neg h0, if_neg fun hc => h0 hc.1]
      refine ⟨c, e, T, rfl, ?_, hin, Nat.le_refl _, fun hz => absurd hz h0⟩
      rw [← fileBlock_direct (v := B.view c) hd] at h0 ⊢
      exact Mapped.of_same L hib hs.ok h h0 (.refl hs)
  · rw [if_neg hd]
    have hidx : offset / BLOCK_SIZE - INODE_NUM_DIRECT < INODE_NUM_INDIRECT := by
      simp only [MAX_BLOCKS] at hoff
      omega
    have hsum := Nat.sub_add_cancel (Nat.le_of_not_lt hd)
    by_cases hi : e.indirect = 0
    · rw [if_pos hi, if_neg nofun]
      have hz : fileBlock (B.view c) e (offset / BLOCK_SIZE) = 0 := fileBlock_of_indirect_zero hd hi
      rw [if_pos hz, hi] at hfits
      rw [hi] at hcard
      refine met_alloc hE (fun hroom => hF ?_) hin hs.ok hs.holding (by omega)
        fun t c₁ m h1 i1 => ?_
      · have := length_refs_lt (v := B.view c) (e := e) hoff hz
        dsimp only [Fs.cache_setFile] at hroom
        omega
      have hw := weight_alloc_indirect T ib m h1.ne_zero
      have hfix : ¬ B.fixed t := fun hf => h1.fresh (L.used_of_fixed hs.ok hf)
      have hind : (e.setIndirect t).indirect = t := by
        rw [indirect_setIndirect, Nat.mod_eq_of_lt h1.lt]
      have hins : insert t (insert t (insert m T)) = insert t (insert m T) :=
        Finset.insert_eq_of_mem (Finset.mem_insert_self _ _)
      refine post_setEntry (post_getInode ?_)
      rw [Fs.inodes_setFile]
      rw [hind]
      refine met_updateBlock hE i1 (hs.allocated h1) (Nat.lt_trans h1.lt (by decide))
        (fun ho => hfix (L.fixed_of_own ho)) ?_ fun c2 h2 i2 => ?_
      · exact (card_insert_indirect_le _ ib h1.ne_zero).trans (by omega)
      rw [hins] at i2
      have hadd : IndirectAdded B env.sb (s.inodes ip).inodeNo c e t c2 :=
        .of_alloc L hib hs h hi h1 h2
      have hz2 : fileBlock (B.view c2) (e.setIndirect t) (offset / BLOCK_SIZE) = 0 := by
        rw [hadd.blocks _ hoff, hz]
      refine (met_mapIndirect hE s ip ib L hib (fun hroom => hF (hadd.room.symm.trans_lt hroom)) i2
        hadd.settled hadd.file hadd.ne_zero hidx ?_).imp ?_ fun _ hp => hp
      · rw [hsum, if_pos hz2, hind]
        omega
      rintro b s' ⟨c', e', T', rfl, hm, i', hb, hpass⟩
      rw [hsum] at hm hb hpass
      rw [if_pos hz2, hind] at hb
      refine ⟨c', e', T', rfl, hadd.mapped hd hoff hi hm, i', ?_, fun _ => hpass hz2⟩
      rw [if_pos hz, hi]
      omega
    · rw [if_neg hi]
      have hm := met_mapIndirect hE s ip ib L hib hF hin hs h hi hidx (by rwa [hsum])
      rwa [hsum] at hm

end

theorem post_inodeMap (L : StoreLaws env.cache B) (hib : InodeBlocks B env.sb)
    (hP : B.stops ∨ B.Scarce c e → P) {ctx offset : Nat}
    (hs : B.Settled c) (h : FileOk B c e) (hno : (s.inodes ip).inodeNo < env.sb.numInodes)
    (hoff : offset / BLOCK_SIZE < MAX_BLOCKS) :
    Post (MapPost B env.sb s ip c e (offset / BLOCK_SIZE)) (fun _ => P)
      ((inodeMap env (some ctx) ip offset).exec (s.setFile ip c e)) := by
  have hw := weight_empty_le (env.sb.toBlockNo (s.inodes ip).inodeNo) e.indirect
  refine (met_inodeMap (M := L.meter ctx 5) (E := fun _ => P) (T := ∅) (fun _ hst => hP (.inl hst)) L
    hib (fun hroom _ _ => hP (.inr hroom)) trivial hs h hno hoff ?_).imp ?_ fun _ hp => hp
  · split <;> omega
  · rintro b s' ⟨c', e', _, hs', hm, -⟩
    exact ⟨c', e', hs', hm⟩

theorem post_inodeMap_none (L : StoreLaws env.cache B) {offset : Nat} (hs : B.Settled c)
    (h : FileOk B c e) (hoff : offset / BLOCK_SIZE < MAX_BLOCKS) :
    Post (fun b s' => b = fileBlock (B.view c) e (offset / BLOCK_SIZE) ∧
        ∃ c', s' = s.setFile ip c' e ∧ B.Same c c') (fun _ => P)
      ((inodeMap env none ip offset).exec (s.setFile ip c e)) := by
  unfold inodeMap
  refine post_getInode ?_
  rw [Fs.inodes_setFile]
  by_cases hd : offset / BLOCK_SIZE < INODE_NUM_DIRECT
  · rw [if_pos hd, if_neg fun hc => hc.2 rfl]
    exact ⟨(fileBlock_direct hd).symm, c, rfl, .refl hs⟩
  rw [if_neg hd]
  have hidx : offset / BLOCK_SIZE - INODE_NUM_DIRECT < INODE_NUM_INDIRECT := by
    simp only [MAX_BLOCKS] at hoff
    omega
  by_cases hi : e.indirect = 0
  · rw [if_pos hi, if_pos rfl]
    exact ⟨(fileBlock_of_indirect_zero hd hi).symm, c, rfl, .refl hs⟩
  rw [if_neg hi]
  have hmem := indirect_mem_refs (v := B.view c) hi
  unfold mapIndirect
  refine post_getInode ?_
  rw [Fs.inodes_setFile]
  refine post_acquire L hs.ok (Nat.lt_trans e.indirect_lt (by decide)) (h.own L hmem)
    (hs.free _) fun a c₁ h1 => ?_
  rw [if_pos hidx]
  refine post_blockData L h1.ok h1.held_self ?_
  rw [if_neg fun hc => hc.2 rfl, h1.view, ← fileBlock_indirect hd hi]
  refine post_release L h1.ok h1.held_self (h.own L hmem) fun c2 h2 => ?_
  exact ⟨rfl, c2, rfl, hs.same_of_read (h.used _ hmem) (h.own L hmem) h1 h2⟩

/-! ## `inode_clear` -/

/-- The state after `i` turns of the first loop. -/
def DirectCleared (B : StoreView κ) (sb : SuperBlock) (s : Fs κ) (ip : Nat) (c : κ)
    (e : InodeEntry) (i : Nat) (s' : Fs κ) : Prop :=
  ∃ c' e', s' = s.setFile ip c' e' ∧ FileStep B sb (s.inodes ip).inodeNo c e c' e' ∧
    e.SameAttrs e' ∧ ∀ j < i, e'.addr j = 0

theorem triple_clearDirect (ctx : Nat) (L : StoreLaws env.cache B) (hib : InodeBlocks B env.sb)
    (hP : B.stops → P) {i : Nat} (hi : i < INODE_NUM_DIRECT) :
    Triple (DirectCleared B env.sb s ip c e i) (clearDirect env (some ctx) ip i)
      (fun _ => DirectCleared B env.sb s ip c e (i + 1)) (fun _ => P) := by
  rintro _ ⟨c', e', rfl, hstep, hattrs, hzero⟩
  have hlt : i < MAX_BLOCKS := Nat.lt_of_lt_of_le hi (Nat.le_add_right _ _)
  have hzero' : ∀ {e'' : InodeEntry}, (∀ j < i, e''.addr j = 0) → e''.addr i = 0 →
      ∀ j < i + 1, e''.addr j = 0 := fun h h' j hj => by
    rcases Nat.lt_or_eq_of_le (Nat.le_of_lt_succ hj) with hj | rfl
    · exact h j hj
    · exact h'
  unfold clearDirect
  refine post_getInode ?_
  rw [Fs.inodes_setFile]
  by_cases h0 : e'.addr i = 0
  · rw [if_neg (not_not.mpr h0)]
    exact ⟨c', e', rfl, hstep, hattrs, hzero' hzero h0⟩
  rw [if_pos h0]
  have hblock : fileBlock (B.view c') e' i = e'.addr i := fileBlock_direct hi
  have hmem : e'.addr i ∈ refs (B.view c') e' := hblock ▸ fileBlock_mem_refs hlt (hblock ▸ h0)
  refine post_free L hP hstep.settled.ok hstep.settled.holding (hstep.file.used _ hmem)
    (hstep.file.data _ hmem) fun c'' hf => ?_
  have hself : (e'.setAddr i 0).addr i = 0 := by
    rw [addr_setAddr_self e' 0 hi, Nat.zero_mod]
  have hview : ∀ x, B.used c' x → ¬ B.own x → B.view c'' x = B.view c' x := fun x hx hown =>
    (hf.keeps x hown (hstep.settled.safe hx hown)).2
  have hother : ∀ j < MAX_BLOCKS, j ≠ i →
      fileBlock (B.view c') e' j = fileBlock (B.view c'') (e'.setAddr i 0) j := by
    intro j _ hne
    unfold fileBlock
    rw [addr_setAddr_of_ne e' 0 hne, indirect_setAddr e' 0 hi]
    split
    · rfl
    · split
      next => rfl
      next hnz =>
        rw [hview _ (hstep.file.used _ (indirect_mem_refs hnz))
          (hstep.file.own L (indirect_mem_refs hnz))]
  have hshrink : FileStep B env.sb (s.inodes ip).inodeNo c' e' c'' (e'.setAddr i 0) :=
    .shrink L hib hstep.settled.ok [e'.addr i] hstep.file (hstep.settled.freed hf)
      (refs_fill hlt ((fileBlock_direct hi).trans hself) h0 hblock hother
        (indirect_setAddr e' 0 hi).symm)
      (fun x hx hown _ => hview x hx hown) (fun x => by rw [hf.used, mem_singleton]; rfl)
      hf.room
  rw [show { s.setFile ip c' e' with cache := c'' } = s.setFile ip c'' e' from rfl, exec_setEntry]
  refine ⟨c'', _, rfl, hstep.trans hshrink, hattrs.trans (.setAddr e' i 0),
    hzero' (fun j hj => ?_) hself⟩
  rw [addr_setAddr_of_ne e' 0 (Nat.ne_of_lt hj), hzero j hj]

/-- The cache after `i` turns of the second loop: the first `i` blocks of the table `t` are
free, and their places in the held block `ib` are empty. -/
structure TableCleared (B : StoreView κ) (c : κ) (ib a : Nat) (i : Nat) (c' : κ) : Prop where
  ok : B.Ok c'
  held : B.held c' = update (B.held c) a (some ib)
  keeps : ∀ x, x ≠ ib → ¬ B.own x → B.Keeps c c' x
  rest : ∀ j, i ≤ j → indirectAddr (B.view c' ib) j = indirectAddr (B.view c ib) j
  used : ∀ x, B.used c' x ↔
    x ∉ addrs (indirectAddr (B.view c ib)) i ∧ B.used c x
  room : B.room c' = B.room c + (addrs (indirectAddr (B.view c ib)) i).length

theorem not_mem_addrs {f : Nat → Nat} {n i : Nat} (h : (addrs f n).Nodup) (hi : i < n) :
    f i ∉ addrs f i := by
  intro hm
  obtain ⟨h0, j, hj, he⟩ := mem_addrs.mp hm
  have := addrs_inj h (Nat.lt_trans hj hi) hi (he ▸ h0) he
  omega

theorem triple_clearIndirect (s : Fs κ) (ip ctx a : Nat) (e : InodeEntry)
    (L : StoreLaws env.cache B) (hP : B.stops → P) {i ib : Nat}
    (hs : B.Settled c) (hib : B.used c ib) (hown : ¬ B.own ib)
    (hnodup : (ib :: addrs (indirectAddr (B.view c ib)) INODE_NUM_INDIRECT).Nodup)
    (hused : ∀ x ∈ addrs (indirectAddr (B.view c ib)) INODE_NUM_INDIRECT,
      B.used c x ∧ ¬ B.fixed x) (hi : i < INODE_NUM_INDIRECT) :
    Triple (fun s' => ∃ c', s' = s.setFile ip c' e ∧ TableCleared B c ib a i c')
      (clearIndirect env (some ctx) a i)
      (fun _ s' => ∃ c', s' = s.setFile ip c' e ∧ TableCleared B c ib a (i + 1) c')
      (fun _ => P) := by
  rintro _ ⟨c', rfl, hc⟩
  have ha : B.held c' a = some ib := by rw [hc.held, update_self]
  unfold clearIndirect
  refine post_blockData L hc.ok ha ?_
  dsimp only [Fs.cache_setFile]
  rw [hc.rest i (Nat.le_refl i)]
  by_cases h0 : indirectAddr (B.view c ib) i = 0
  · rw [if_neg (not_not.mpr h0)]
    refine ⟨c', rfl, hc.ok, hc.held, hc.keeps, fun j hj => hc.rest j (by omega), ?_, ?_⟩
    · rw [addrs_succ, if_pos h0, append_nil]
      exact hc.used
    · rw [addrs_succ, if_pos h0, append_nil]
      exact hc.room
  rw [if_pos h0]
  have hsub : ∀ {x}, x ∈ addrs (indirectAddr (B.view c ib)) i →
      x ∈ addrs (indirectAddr (B.view c ib)) INODE_NUM_INDIRECT := fun hx => by
    obtain ⟨hx0, j, hj, he⟩ := mem_addrs.mp hx
    exact mem_addrs.mpr ⟨hx0, j, Nat.lt_trans hj hi, he⟩
  obtain ⟨hnew, htable⟩ := nodup_cons.mp hnodup
  obtain ⟨hu, hfix⟩ := hused _ (mem_addrs.mpr ⟨h0, i, hi, rfl⟩)
  have hhold : B.Holding c' := fun a' b' hb' => by
    rw [hc.held] at hb'
    obtain rfl | ha' := eq_or_ne a' a
    · rw [update_self] at hb'
      cases hb'
      exact ⟨(hc.used ib).mpr ⟨fun hm => hnew (hsub hm), hib⟩, hown⟩
    · rw [update_of_ne ha', hs.idle] at hb'
      cases hb'
  refine post_free L hP hc.ok hhold ((hc.used _).mpr ⟨not_mem_addrs htable hi, hu⟩) hfix
    fun c2 h2 => ?_
  dsimp only [Fs.cache_setFile] at h2
  have ha2 : B.held c2 a = some ib := h2.held ▸ ha
  obtain ⟨c3, hexec, h3⟩ := L.setData (fun d => setIndirectAddr d i 0) h2.ok ha2 hown
  refine .of_ok (Q := fun _ s' => ∃ c', s' = s.setFile ip c' e ∧ TableCleared B c ib a (i + 1) c')
    (exec_onCache (s := s.setFile ip c2 e) hexec) ⟨c3, rfl, ?_⟩
  have htab : addrs (indirectAddr (B.view c ib)) (i + 1) =
      addrs (indirectAddr (B.view c ib)) i ++ [indirectAddr (B.view c ib) i] := by
    rw [addrs_succ, if_neg h0]
  refine ⟨h3.ok, ?_, fun x hne hox => ?_, fun j hj => ?_, fun x => ?_, ?_⟩
  · rw [h3.held, h2.held, hc.held]
  · exact ((hc.keeps x hne hox).trans (h2.keeps x hox)).trans (h3.keeps x hne)
  · rw [h3.view, indirectAddr_setIndirectAddr_of_ne _ _ (by omega),
      (h2.keeps ib hown (.inr ⟨a, ha⟩)).2, hc.rest j (by omega)]
  · rw [h3.used, h2.used, hc.used, htab, mem_append, mem_singleton]
    tauto
  · rw [h3.room, h2.room, hc.room, htab, length_append, length_singleton]
    omega

structure Emptied (B : StoreView κ) (sb : SuperBlock) (no : Nat) (c : κ) (e : InodeEntry) (c' : κ)
    (e' : InodeEntry) : Prop extends FileStep B sb no c e c' e' where
  direct : ∀ j < INODE_NUM_DIRECT, e'.addr j = 0
  indirect : e'.indirect = 0

theorem post_clearIndirects (L : StoreLaws env.cache B) (hib : InodeBlocks B env.sb)
    (hP : B.stops → P) {ctx : Nat} (hs : B.Settled c) (h : FileOk B c e)
    (hd : ∀ j < INODE_NUM_DIRECT, e.addr j = 0) :
    Post (fun _ s' => ∃ c' e', s' = s.setFile ip c' e' ∧ e.SameAttrs e' ∧
        Emptied B env.sb (s.inodes ip).inodeNo c e c' e') (fun _ => P)
      ((clearIndirects env (some ctx) ip).exec (s.setFile ip c e)) := by
  unfold clearIndirects
  refine post_getInode ?_
  rw [Fs.inodes_setFile]
  by_cases h0 : e.indirect = 0
  · rw [if_neg (not_not.mpr h0)]
    exact ⟨c, e, rfl, .refl e, .refl hs h, hd, h0⟩
  rw [if_pos h0]
  have hmem := indirect_mem_refs (v := B.view c) h0
  have hused := h.used _ hmem
  have hown := h.own L hmem
  have hrefs : refs (B.view c) e =
      e.indirect :: addrs (indirectAddr (B.view c e.indirect)) INODE_NUM_INDIRECT := by
    rw [refs, if_neg h0, addrs_fileBlock hd h0]
    rfl
  have hnodup := hrefs ▸ h.nodup
  refine post_acquire L hs.ok (Nat.lt_trans e.indirect_lt (by decide)) hown (hs.free _)
    fun a c₁ h1 => ?_
  have hloop := Triple.forM_range (n := INODE_NUM_INDIRECT)
    (I := fun i s' => ∃ c', s' = s.setFile ip c' e ∧ TableCleared B c e.indirect a i c') fun i hi =>
    triple_clearIndirect s ip ctx a e L hP hs hused hown hnodup
      (fun x hx => ⟨h.used x (hrefs ▸ mem_cons_of_mem _ hx),
        h.data x (hrefs ▸ mem_cons_of_mem _ hx)⟩) hi
  have hstart : TableCleared B c e.indirect a 0 c₁ :=
    ⟨h1.ok, h1.held, fun x _ _ => h1.keeps x, fun _ _ => by rw [h1.view]; rfl,
      fun x => by rw [h1.used]; simp [addrs], by rw [h1.room]; rfl⟩
  refine (hloop _ ⟨c₁, rfl, hstart⟩).bind ?_
  rintro _ _ ⟨c2, rfl, h2⟩
  have ha2 : B.held c2 a = some e.indirect := by rw [h2.held, update_self]
  refine post_release L h2.ok ha2 hown fun c3 h3 => ?_
  dsimp only [Fs.cache_setFile] at h3
  have hheld3 : B.held c3 = B.held c := by
    rw [h3.held, h2.held, update_idem, update_eq_self_iff, hs.idle]
  have hused3 : B.used c3 e.indirect :=
    h3.used ▸ (h2.used _).mpr ⟨(nodup_cons.mp hnodup).1, hused⟩
  refine post_free L hP h3.ok (fun a' b' hb' => ?_) hused3 (h.data _ hmem) fun c4 h4 => ?_
  · dsimp only at hb'
    rw [hheld3, hs.idle] at hb'
    cases hb'
  have hkeep : ∀ x, x ≠ e.indirect → ¬ B.own x → B.Keeps c c4 x := fun x hne hox =>
    ((h2.keeps x hne hox).trans (h3.keeps x hne)).trans (h4.keeps x hox)
  have hused4 : ∀ x, B.used c4 x ↔ x ∉ refs (B.view c) e ∧ B.used c x := fun x => by
    rw [h4.used, h3.used, h2.used, hrefs, mem_cons, not_or, and_assoc]
  have hset4 : B.Settled c4 := hs.of_keeps h4.ok (h4.held.trans hheld3) fun x hx hox => by
    obtain ⟨hnr, hu⟩ := (hused4 x).mp hx
    exact .inl ⟨hu, hkeep x (fun he => hnr (he ▸ hmem)) hox⟩
  have hdir : ∀ j < INODE_NUM_DIRECT, (e.setIndirect 0).addr j = 0 := fun j hj => by
    rw [addr_setIndirect e 0 hj, hd j hj]
  have hind : (e.setIndirect 0).indirect = 0 := by
    rw [indirect_setIndirect, Nat.zero_mod]
  have hnil : refs (B.view c4) (e.setIndirect 0) = [] := refs_eq_nil hdir hind
  rw [show { s.setFile ip c2 e with cache := c4 } = s.setFile ip c4 e from rfl, exec_setEntry]
  refine ⟨c4, _, rfl, .setIndirect e 0, ?_, hdir, hind⟩
  refine .shrink L hib hs.ok (refs (B.view c) e) h hset4 ?_ (fun x hx hox hnr => ?_) hused4 ?_
  · rw [hnil, append_nil]
  · exact (hkeep x (fun he => hnr (he ▸ hmem)) hox (hs.safe hx hox)).2
  · rw [h4.room, h3.room, h2.room, hrefs, length_cons, Nat.add_assoc]

/-- What `inode_clear` leaves. -/
structure Cleared (B : StoreView κ) (sb : SuperBlock) (no : Nat) (c : κ) (e : InodeEntry) (c' : κ)
    (e' : InodeEntry) : Prop extends Emptied B sb no c e c' e' where
  numBytes : e'.numBytes = 0
  type : e'.type = e.type
  numLinks : e'.numLinks = e.numLinks
  written : entryAt sb (B.view c') no = e'

theorem post_inodeClear (L : StoreLaws env.cache B) (hib : InodeBlocks B env.sb)
    (hP : B.stops → P) {ctx : Nat} (hs : B.Settled c) (h : FileOk B c e)
    (hno : (s.inodes ip).inodeNo < env.sb.numInodes) :
    Post (fun _ s' => ∃ c' e', s' = s.setFile ip c' e' ∧
        Cleared B env.sb (s.inodes ip).inodeNo c e c' e') (fun _ => P)
      ((inodeClear env (some ctx) ip).exec (s.setFile ip c e)) := by
  unfold inodeClear
  have hloop := Triple.forM_range (n := INODE_NUM_DIRECT)
    (I := DirectCleared B env.sb s ip c e) fun i hi =>
    triple_clearDirect ctx L hib hP hi
  refine (hloop _ ⟨c, e, rfl, .refl hs h, .refl e, fun j hj => absurd hj (Nat.not_lt_zero j)⟩).bind ?_
  rintro _ _ ⟨c₁, e1, rfl, h1, hattrs1, hd1⟩
  refine (post_clearIndirects L hib hP h1.settled h1.file hd1).bind ?_
  rintro _ _ ⟨c2, e2, rfl, hattrs2, h2⟩
  refine post_setEntry ?_
  rw [← bind_pure (inodeSync env (some ctx) ip true)]
  refine post_inodeSync L hib hP h2.settled hno fun c3 h3 => ?_
  have hentry : FileStep B env.sb (s.inodes ip).inodeNo c2 e2 c2 (e2.setNumBytes 0) :=
    .of_entry h2.settled h2.file (fun i _ => e2.addr_setNumBytes 0 i) (e2.indirect_setNumBytes 0)
  have hattrs := hattrs1.trans hattrs2
  refine ⟨c3, _, rfl, { ((h1.trans h2.toFileStep).trans hentry).trans
        (.of_sync L hib hno h2.settled.ok hentry.file h3) with
      direct := fun j hj => by rw [addr_setNumBytes, h2.direct j hj]
      indirect := by rw [indirect_setNumBytes, h2.indirect]
      numBytes := by rw [numBytes_setNumBytes, Nat.zero_mod]
      type := by rw [type_setNumBytes, hattrs.type]
      numLinks := by rw [numLinks_setNumBytes, hattrs.numLinks]
      written := by rw [entryAt, h3.self, ofBlock_intoBlock] }⟩

end OsKernel
