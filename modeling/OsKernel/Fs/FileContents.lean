import OsKernel.Fs.FileSteps

/-!
# The contents of a file

The bytes of a file are those of its blocks, one after another.  A file is *full* up to
`n` if each block with a byte below `n` exists.  `inode_read` returns the bytes of a full
file, and `inode_write` replaces a part of them and leaves the file full: a block that it
has to allocate lies past the bytes the file had, so that no old byte is in it.
-/

namespace OsKernel

open Prog InodeEntry

/-- Byte `j` of a file. -/
def byteAt (v : Nat → Data) (e : InodeEntry) (j : Nat) : UInt8 :=
  (v (fileBlock v e (j / BLOCK_SIZE))).get (j % BLOCK_SIZE)

/-- Every block with a byte below `n` exists. -/
def Full (v : Nat → Data) (e : InodeEntry) (n : Nat) : Prop :=
  ∀ i, i * BLOCK_SIZE < n → fileBlock v e i ≠ 0

theorem Full.at {v : Nat → Data} {e : InodeEntry} {n j : Nat} (h : Full v e n) (hj : j < n) :
    fileBlock v e (j / BLOCK_SIZE) ≠ 0 :=
  h _ (Nat.lt_of_le_of_lt (Nat.div_mul_le_self j BLOCK_SIZE) hj)

theorem div_lt_maxBlocks {j : Nat} (h : j < INODE_MAX_BYTES) : j / BLOCK_SIZE < MAX_BLOCKS := by
  simp only [INODE_MAX_BYTES, MAX_BLOCKS, INODE_NUM_DIRECT, INODE_NUM_INDIRECT, BLOCK_SIZE] at *
  omega

theorem lt_maxBlocks {i : Nat} (h : i * BLOCK_SIZE < INODE_MAX_BYTES) : i < MAX_BLOCKS :=
  Nat.lt_of_mul_lt_mul_right h

theorem div_mod_add {j k : Nat} (h : k < BLOCK_SIZE - j % BLOCK_SIZE) :
    (j + k) / BLOCK_SIZE = j / BLOCK_SIZE ∧ (j + k) % BLOCK_SIZE = j % BLOCK_SIZE + k := by
  simp only [BLOCK_SIZE] at *
  omega

variable {κ β : Type} {env : FsEnv κ} {B : StoreView κ} {s : Fs κ} {ip : Nat} {c c' : κ}
  {e e' : InodeEntry} {P : Prop}

theorem Full.of_same {bc : BlockCache κ} (L : StoreLaws bc B) {n : Nat} (h : FileOk B c e)
    (hs : B.Same c c') (hf : Full (B.view c) e n) : Full (B.view c') e n := fun i hi => by
  rw [h.fileBlock_same L hs]
  exact hf i hi

theorem byteAt_same {bc : BlockCache κ} (L : StoreLaws bc B) {n j : Nat} (h : FileOk B c e)
    (hs : B.Same c c') (hf : Full (B.view c) e n) (hj : j < n) (hn : n ≤ INODE_MAX_BYTES) :
    byteAt (B.view c') e j = byteAt (B.view c) e j := by
  have hmem := fileBlock_mem_refs (div_lt_maxBlocks (Nat.lt_of_lt_of_le hj hn)) (hf.at hj)
  rw [byteAt, byteAt, h.fileBlock_same L hs, hs.view _ (h.used _ hmem) (h.own L hmem)]

/-! ## Reading -/

/-- What the loop of `inode_read` has done after `n` bytes. -/
def ReadUpTo (B : StoreView κ) (c : κ) (e : InodeEntry) (offset : Nat) (dest₀ : Nat → UInt8)
    (n : Nat) (dest : Nat → UInt8) : Prop :=
  ∀ i, dest i = if i < n then byteAt (B.view c) e (offset + i) else dest₀ i

theorem post_readLoop (L : StoreLaws env.cache B) {offset count : Nat} {dest0 : Nat → UInt8}
    (h : FileOk B c e) (hf : Full (B.view c) e (offset + count))
    (hmax : offset + count ≤ INODE_MAX_BYTES) : ∀ (fuel n : Nat) (dest : Nat → UInt8) (c' : κ),
    n ≤ count → count - n ≤ fuel → B.Same c c' → ReadUpTo B c e offset dest0 n dest →
    Post (fun r s' => r.2 = count ∧ ReadUpTo B c e offset dest0 count r.1 ∧
        ∃ c'', s' = s.setFile ip c'' e ∧ B.Same c c'') (fun _ => P)
      ((readLoop env ip offset count fuel dest n).exec (s.setFile ip c' e)) := by
  intro fuel
  induction fuel with
  | zero =>
    intro n dest c' hn hfuel hsame hread
    obtain rfl : n = count := by omega
    exact ⟨rfl, hread, c', rfl, hsame⟩
  | succ fuel ih =>
    intro n dest c' hn hfuel hsame hread
    unfold readLoop
    by_cases hlt : n < count
    · rw [if_pos hlt]
      have hj : offset + n < offset + count := by omega
      have hj' := div_lt_maxBlocks (Nat.lt_of_lt_of_le hj hmax)
      refine (post_inodeMap_none L hsame.settled (h.of_same L hsame) hj').bind ?_
      rintro _ _ ⟨rfl, c₁, rfl, h1⟩
      rw [h.fileBlock_same L hsame, if_neg (hf.at hj)]
      have hmem := fileBlock_mem_refs hj' (hf.at hj)
      have hsame1 := hsame.trans h1
      refine post_readBlock L hsame1.settled
        (Nat.lt_trans (fileBlock_lt _ _ _) (by decide)) (hsame1.used ▸ h.used _ hmem)
        (h.own L hmem) fun c2 h2 => ?_
      dsimp only [Fs.cache_setFile] at h2 ⊢
      rw [hsame1.view _ (h.used _ hmem) (h.own L hmem)]
      have hpos : 0 < min (BLOCK_SIZE - (offset + n) % BLOCK_SIZE) (count - n) := by
        simp only [BLOCK_SIZE]
        omega
      refine ih _ _ c2 (by omega) (by omega) (hsame1.trans h2) fun i => ?_
      rw [memcpy, hread]
      by_cases hin : n ≤ i ∧ i < n + min (BLOCK_SIZE - (offset + n) % BLOCK_SIZE) (count - n)
      · obtain ⟨hdiv, hmod⟩ := div_mod_add (j := offset + n) (k := i - n) (by omega)
        have hi : offset + i = offset + n + (i - n) := by omega
        rw [if_pos hin, if_pos hin.2, byteAt, hi, hdiv, hmod]
      · rw [if_neg hin]
        exact if_congr (by omega) rfl rfl
    · rw [if_neg hlt]
      obtain rfl : n = count := by omega
      exact ⟨rfl, hread, c', rfl, hsame⟩

theorem post_inodeRead (L : StoreLaws env.cache B) {offset count : Nat} {dest : Nat → UInt8}
    (hs : B.Settled c) (h : FileOk B c e) (htype : e.type ≠ INODE_DEVICE)
    (hf : Full (B.view c) e e.numBytes) (hmax : e.numBytes ≤ INODE_MAX_BYTES)
    (hoff : offset ≤ e.numBytes) (hlt : offset + count < 2 ^ 64) :
    Post (fun r s' => r.2 = min count (e.numBytes - offset) ∧
        ReadUpTo B c e offset dest (min count (e.numBytes - offset)) r.1 ∧
        ∃ c', s' = s.setFile ip c' e ∧ B.Same c c') (fun _ => P)
      ((inodeRead env ip dest offset count).exec (s.setFile ip c e)) := by
  -- the subtraction of the source does not wrap around
  have hcount : (if e.numBytes < usize (count + offset) then usizeSub e.numBytes offset else count) =
      min count (e.numBytes - offset) := by
    rw [usizeSub, usize, usize, Nat.mod_eq_of_lt (Nat.add_comm count offset ▸ hlt)]
    split
    next hc =>
      rw [show e.numBytes + 2 ^ 64 - offset = e.numBytes - offset + 2 ^ 64 by omega,
        Nat.add_mod_right, Nat.mod_eq_of_lt (by omega)]
      omega
    next => omega
  have hend : usize (offset + min count (e.numBytes - offset)) =
      offset + min count (e.numBytes - offset) := Nat.mod_eq_of_lt (by omega)
  unfold inodeRead
  refine post_getInode ?_
  rw [Fs.inodes_setFile]
  dsimp only
  rw [if_neg htype, hcount, hend]
  refine post_assert hoff (post_assert (by omega) (post_assert (Nat.le_add_right _ _) ?_))
  exact post_readLoop L h (fun i hi => hf i (by omega)) (by omega) _ 0 dest c (Nat.zero_le _)
    (Nat.le_refl _) (.refl hs) fun i => by rw [if_neg (Nat.not_lt_zero i)]

/-- If the end of the part to read wraps around, `inode_read` stops at its last assertion. -/
theorem exec_inodeRead_overflow (env : FsEnv κ) {offset count : Nat} {dest : Nat → UInt8}
    (htype : (s.inodes ip).entry.type ≠ INODE_DEVICE)
    (hoff : offset ≤ (s.inodes ip).entry.numBytes) (hcount : count < 2 ^ 64)
    (hwrap : 2 ^ 64 ≤ offset + count) :
    (inodeRead env ip dest offset count).exec s = (.error .panic, s) := by
  have hassert : ∀ {p : Prop} [Decidable p], p → (assert p : FsM κ Unit).exec s = (.ok (), s) :=
    fun hp => by
      rw [assert, if_pos hp]
      rfl
  have hlt := (s.inodes ip).entry.numBytes_lt
  have hend : usize (offset + count) = offset + count - 2 ^ 64 := by
    rw [usize, Nat.mod_eq_sub_mod hwrap, Nat.mod_eq_of_lt (by omega)]
  have hget : (getInode ip : FsM κ Inode).exec s = (.ok (s.inodes ip), s) := rfl
  unfold inodeRead
  rw [exec_bind_ok hget, if_neg htype]
  dsimp only
  rw [Nat.add_comm count, hend, if_neg (by omega), exec_bind_ok (hassert hoff), hend,
    exec_bind_ok (hassert (by omega)), assert, if_neg (by omega)]
  rfl

/-! ## Writing -/

/-- The bytes below `n` are those of before, with those from `off` to `off + len` replaced. -/
def Spliced (v : Nat → Data) (e : InodeEntry) (off len : Nat) (src : Nat → UInt8) (n : Nat)
    (v' : Nat → Data) (e' : InodeEntry) : Prop :=
  ∀ j < n, byteAt v' e' j = if off ≤ j ∧ j < off + len then src (j - off) else byteAt v e j

section

variable {sb : SuperBlock} {no b p len n : Nat} {src : Nat → UInt8} {c₁ : κ}

/-- The bytes from `p` to `p + len` of a file that was full up to `n` are written.  If
they were there before, the entry stays as it is. -/
structure Written (B : StoreView κ) (sb : SuperBlock) (no : Nat) (c : κ) (e : InodeEntry)
    (p len : Nat) (src : Nat → UInt8) (n : Nat) (c' : κ) (e' : InodeEntry) : Prop
    extends FileStep B sb no c e c' e' where
  attrs : e.SameAttrs e'
  full : Full (B.view c') e' (max n (p + len))
  bytes : Spliced (B.view c) e p len src (max n (p + len)) (B.view c') e'
  same : p + len ≤ n → e' = e ∧ entryAt sb (B.view c') no = entryAt sb (B.view c) no

theorem Written.of_mapped {bc : BlockCache κ} (L : StoreLaws bc B) (hib : InodeBlocks B sb)
    (hno : no < sb.numInodes) (hok : B.Ok c) (h : FileOk B c e) (hp : p ≤ n)
    (hlen : 0 < len) (hblk : len ≤ BLOCK_SIZE - p % BLOCK_SIZE)
    (hmax : max n (p + len) ≤ INODE_MAX_BYTES) (hf : Full (B.view c) e n)
    (hm : Mapped B sb no c e (p / BLOCK_SIZE) b c₁ e')
    (hu : B.Updated c₁ b (fun d => d.splice (p % BLOCK_SIZE) len src) c') :
    Written B sb no c e p len src n c' e' := by
  have hidx : p / BLOCK_SIZE < MAX_BLOCKS := div_lt_maxBlocks (by omega)
  have hself := hm.self
  have h0 : fileBlock (B.view c₁) e' (p / BLOCK_SIZE) ≠ 0 := hself ▸ hm.ne_zero
  have hbmem : b ∈ refs (B.view c₁) e' := hself ▸ fileBlock_mem_refs hidx h0
  have hbind : b ≠ e'.indirect := hself ▸ fileBlock_ne_indirect hm.file.nodup hidx h0
  have hstep : FileStep B sb no c₁ e' c' e' := .of_data L hib hm.settled.ok hm.file hbmem hbind hu
  have hblock : ∀ i, fileBlock (B.view c') e' i = fileBlock (B.view c₁) e' i := fun i =>
    fileBlock_congr (fun _ _ => rfl) rfl fun hi =>
      hu.view _ (hm.file.used _ (indirect_mem_refs hi)) (hm.file.own L (indirect_mem_refs hi))
        hbind.symm
  -- another block that was there before
  have hold : ∀ i < MAX_BLOCKS, i ≠ p / BLOCK_SIZE → fileBlock (B.view c) e i ≠ 0 →
      B.view c' (fileBlock (B.view c) e i) = B.view c (fileBlock (B.view c) e i) := by
    intro i hi hne hi0
    have hx := hm.other i hi hne
    have hxb : fileBlock (B.view c) e i ≠ b := by
      rw [← hx, ← hself]
      exact fun he => hne (fileBlock_inj hm.file.nodup hi hidx (hx ▸ hi0) he)
    have hxmem : fileBlock (B.view c) e i ∈ refs (B.view c₁) e' :=
      hx ▸ fileBlock_mem_refs hi (hx ▸ hi0)
    rw [hu.view _ (hm.file.used _ hxmem) (hm.file.own L hxmem) hxb, hm.data i hi hi0]
  refine { hm.toFileStep.trans hstep with
    attrs := hm.attrs
    full := fun i hi => ?_
    bytes := fun j hj => ?_
    same := fun hle => ?_ }
  · rw [hblock]
    by_cases hi' : i = p / BLOCK_SIZE
    · rwa [hi']
    · rw [hm.other i (lt_maxBlocks (by omega)) hi']
      refine hf i ?_
      simp only [BLOCK_SIZE] at *
      omega
  · have hjmax := div_lt_maxBlocks (Nat.lt_of_lt_of_le hj hmax)
    rw [byteAt, byteAt, hblock]
    by_cases hin : p ≤ j ∧ j < p + len
    · obtain ⟨hdiv, hmod⟩ := div_mod_add (j := p) (k := j - p) (by omega)
      rw [Nat.add_sub_cancel' hin.1] at hdiv hmod
      rw [if_pos hin, hdiv, hself, hu.self, hmod,
        Bytes.get_splice_of_mem _ _ (by simp only [BLOCK_SIZE] at *; omega) (by omega) (by omega),
        Nat.add_sub_cancel_left]
    have hjn : j < n := by omega
    have hj0 := hf.at hjn
    rw [if_neg hin]
    by_cases hidx' : j / BLOCK_SIZE = p / BLOCK_SIZE
    · rw [hidx'] at hj0 ⊢
      obtain ⟨rfl, hsame⟩ := hm.same hj0
      have hmem := fileBlock_mem_refs hidx hj0
      rw [hself, hu.self, Bytes.get_splice_of_not_mem _ _ (by simp only [BLOCK_SIZE] at *; omega),
        ← hself, h.fileBlock_same L hsame, hsame.view _ (h.used _ hmem) (h.own L hmem)]
    · rw [hm.other _ hjmax hidx', hold _ hjmax hidx' hj0]
  · obtain ⟨rfl, hsame⟩ := hm.same (hf.at (j := p) (by omega))
    have hfix := hib.fixed no hno
    refine ⟨rfl, ?_⟩
    rw [entryAt, entryAt, hu.view _ (L.used_of_fixed hm.settled.ok hfix) (hib.own no hno)
      (hm.file.ne_toBlockNo hib hno hbmem).symm,
      hsame.view _ (L.used_of_fixed hok hfix) (hib.own no hno)]

theorem Written.refl (hs : B.Settled c) (h : FileOk B c e) (hf : Full (B.view c) e n)
    (hp : p ≤ n) : Written B sb no c e p 0 src n c e :=
  { FileStep.refl hs h with
    attrs := .refl e
    full := fun i hi => hf i (by omega)
    bytes := fun j _ => by rw [if_neg (by omega)]
    same := fun _ => ⟨rfl, rfl⟩ }

theorem Written.append {k : Nat} {c'' : κ} {e'' : InodeEntry} {src' : Nat → UInt8}
    (h : Written B sb no c e p len src n c' e')
    (h' : Written B sb no c' e' (p + len) k src' (max n (p + len)) c'' e'')
    (hsrc : ∀ i < k, src' i = src (len + i)) : Written B sb no c e p (len + k) src n c'' e'' :=
  { h.toFileStep.trans h'.toFileStep with
    attrs := h.attrs.trans h'.attrs
    full := fun i hi => h'.full i (by omega)
    bytes := fun j hj => by
      rw [h'.bytes j (by omega)]
      by_cases hin : p + len ≤ j ∧ j < p + len + k
      · rw [if_pos hin, if_pos (by omega), hsrc _ (by omega)]
        congr 1
        omega
      · rw [if_neg hin, h.bytes j (by omega)]
        exact if_congr (by omega) rfl rfl
    same := fun hle => by
      obtain ⟨rfl, he⟩ := h.same (by omega)
      obtain ⟨rfl, he'⟩ := h'.same (by omega)
      exact ⟨rfl, he'.trans he⟩ }

end

/-- What writing `k` bytes from `p` on may add: two for each block that is touched, and one for
a block that the file ends in. -/
def demand (p k : Nat) : Nat :=
  if k = 0 then 0
  else 2 * ((p % BLOCK_SIZE + k + (BLOCK_SIZE - 1)) / BLOCK_SIZE) - if p % BLOCK_SIZE = 0 then 0 else 1

theorem demand_turn {p k : Nat} (hk : 0 < k) :
    demand (p + min (BLOCK_SIZE - p % BLOCK_SIZE) k) (k - min (BLOCK_SIZE - p % BLOCK_SIZE) k) +
      (if p % BLOCK_SIZE = 0 then 2 else 1) ≤ demand p k := by
  unfold demand
  simp only [BLOCK_SIZE]
  split_ifs <;> omega

section

variable {ctx cap : Nat} {M : Meter env.cache B ctx cap} {T : Finset Nat} {E : κ → Prop}
  (hE : ∀ c, M.stop c → E c)

include hE

theorem met_writeLoop (L : StoreLaws env.cache B) (hib : InodeBlocks B env.sb)
    (hF : B.Scarce c e → ∀ c', M.full c' → E c') {offset count n : Nat} {src : Nat → UInt8}
    (hno : (s.inodes ip).inodeNo < env.sb.numInodes)
    (hmax : max n (offset + count) ≤ INODE_MAX_BYTES) :
    ∀ (fuel w : Nat) (c' : κ) (e' : InodeEntry) (T : Finset Nat), w ≤ count → count - w ≤ fuel →
    Written B env.sb (s.inodes ip).inodeNo c e offset w src n c' e' → M.In c' T →
    weight T (env.sb.toBlockNo (s.inodes ip).inodeNo) e'.indirect +
      demand (offset + w) (count - w) ≤ cap →
    Post (fun r s' => r = count ∧ ∃ c'' e'' T', s' = s.setFile ip c'' e'' ∧
        Written B env.sb (s.inodes ip).inodeNo c e offset count src n c'' e'' ∧ M.In c'' T' ∧
        weight T' (env.sb.toBlockNo (s.inodes ip).inodeNo) e''.indirect ≤ cap)
      (fun s' => E s'.cache)
      ((writeLoop env (some ctx) ip src offset count fuel w).exec (s.setFile ip c' e')) := by
  intro fuel
  induction fuel with
  | zero =>
    intro w c' e' T hw hfuel h hin hfits
    obtain rfl : w = count := by omega
    exact ⟨rfl, c', e', T, rfl, h, hin, by omega⟩
  | succ fuel ih =>
    intro w c' e' T hw hfuel h hin hfits
    unfold writeLoop
    by_cases hlt : w < count
    · rw [if_pos hlt]
      have hidx := div_lt_maxBlocks (j := offset + w) (by omega)
      have hturn := demand_turn (p := offset + w) (k := count - w) (by omega)
      -- a block that does not start here holds the bytes before
      have hstart : fileBlock (B.view c') e' ((offset + w) / BLOCK_SIZE) = 0 →
          (offset + w) % BLOCK_SIZE = 0 := by
        intro hz
        by_contra hne
        refine h.full ((offset + w) / BLOCK_SIZE) ?_ hz
        simp only [BLOCK_SIZE] at *
        omega
      refine (met_inodeMap hE L hib (fun hroom => hF (h.room.symm.trans_lt hroom)) hin h.settled
        h.file hno hidx ?_).bind ?_
      · by_cases hz : fileBlock (B.view c') e' ((offset + w) / BLOCK_SIZE) = 0
        · rw [if_pos (hstart hz)] at hturn
          rw [if_pos hz]
          omega
        · rw [if_neg hz]
          omega
      rintro b _ ⟨c₁, e1, T1, rfl, hm, i1, hbill, hpass⟩
      refine post_assert hm.ne_zero ?_
      have hb0 : fileBlock (B.view c₁) e1 ((offset + w) / BLOCK_SIZE) ≠ 0 := hm.self ▸ hm.ne_zero
      have hbmem : b ∈ refs (B.view c₁) e1 := hm.self ▸ fileBlock_mem_refs hidx hb0
      have hb64 : b < 2 ^ 64 := hm.self ▸ Nat.lt_trans (fileBlock_lt _ _ _) (by decide)
      -- the turn costs what `demand` says
      have hcost : weight (insert b T1) (env.sb.toBlockNo (s.inodes ip).inodeNo) e1.indirect ≤
          weight T (env.sb.toBlockNo (s.inodes ip).inodeNo) e'.indirect +
            if (offset + w) % BLOCK_SIZE = 0 then 2 else 1 := by
        by_cases hz : fileBlock (B.view c') e' ((offset + w) / BLOCK_SIZE) = 0
        · rw [if_pos hz] at hbill
          rwa [Finset.insert_eq_of_mem (hpass hz), if_pos (hstart hz)]
        · rw [if_neg hz] at hbill
          have hins := weight_insert T1 (env.sb.toBlockNo (s.inodes ip).inodeNo) e1.indirect b
          have hdue := due_le_one T1 b
          split <;> omega
      have hcard := card_le_weight (insert b T1) (env.sb.toBlockNo (s.inodes ip).inodeNo) e1.indirect
      refine met_updateBlock hE i1 hm.settled hb64 (hm.file.own L hbmem) (by omega)
        fun c2 h2 i2 => ?_
      have hpos : 0 < min (BLOCK_SIZE - (offset + w) % BLOCK_SIZE) (count - w) := by
        simp only [BLOCK_SIZE]
        omega
      refine ih _ c2 e1 _ (by omega) (by omega) (h.append
        (.of_mapped L hib hno h.settled.ok h.file (by omega) hpos (by omega) (by omega) h.full hm h2)
        fun i _ => rfl) i2 ?_
      rw [← Nat.add_assoc, Nat.sub_add_eq]
      omega
    · rw [if_neg hlt]
      obtain rfl : w = count := by omega
      exact ⟨rfl, c', e', T, rfl, h, hin, by omega⟩

end

/-- If the part to write ends past the longest file, `inode_write` stops at its second assertion. -/
theorem exec_inodeWrite_too_long (env : FsEnv κ) (ctx : Option Nat) (ip : Nat) (src : Nat → UInt8)
    {offset count : Nat} (htype : (s.inodes ip).entry.type ≠ INODE_DEVICE)
    (hoff : offset ≤ (s.inodes ip).entry.numBytes) (hlt : offset + count < 2 ^ 64)
    (hlong : INODE_MAX_BYTES < offset + count) :
    (inodeWrite env ctx ip src offset count).exec s = (.error .panic, s) := by
  have hend : usize (offset + count) = offset + count := Nat.mod_eq_of_lt hlt
  unfold inodeWrite
  rw [exec_bind_ok (exec_getInode ip s), if_neg htype, exec_bind_ok (exec_assert hoff s), hend, assert,
    if_neg (Nat.not_le.mpr hlong)]
  rfl

/-- What `inode_write` has done. -/
structure FileWritten (B : StoreView κ) (sb : SuperBlock) (no : Nat) (c : κ) (e : InodeEntry)
    (offset count : Nat) (src : Nat → UInt8) (c' : κ) (e' : InodeEntry) : Prop
    extends FileStep B sb no c e c' e' where
  type : e'.type = e.type
  numLinks : e'.numLinks = e.numLinks
  numBytes : e'.numBytes = max e.numBytes (offset + count)
  full : Full (B.view c') e' e'.numBytes
  bytes : Spliced (B.view c) e offset count src e'.numBytes (B.view c') e'
  written : entryAt sb (B.view c) no = e → entryAt sb (B.view c') no = e'

theorem Written.resize {bc : BlockCache κ} (L : StoreLaws bc B) {sb : SuperBlock}
    (hib : InodeBlocks B sb) {no : Nat} (hno : no < sb.numInodes) {offset count : Nat}
    {src : Nat → UInt8} {c₁ : κ} (hlt : e.numBytes < offset + count)
    (hmax : offset + count ≤ INODE_MAX_BYTES)
    (h : Written B sb no c e offset count src e.numBytes c₁ e')
    (hu : B.Updated c₁ (sb.toBlockNo no)
      (fun d => (e'.setNumBytes (offset + count)).intoBlock d no) c') :
    FileWritten B sb no c e offset count src c' (e'.setNumBytes (offset + count)) := by
  have hentry : FileStep B sb no c₁ e' c₁ (e'.setNumBytes (offset + count)) :=
    .of_entry h.settled h.file (fun i _ => addr_setNumBytes ..)
      (indirect_setNumBytes ..)
  have hsync := FileStep.of_sync L hib hno h.settled.ok hentry.file hu
  have hview : ∀ x ∈ refs (B.view c₁) e', B.view c' x = B.view c₁ x := fun x hx =>
    hu.view x (h.file.used x hx) (h.file.own L hx) (h.file.ne_toBlockNo hib hno hx)
  have hblock : ∀ i, fileBlock (B.view c') (e'.setNumBytes (offset + count)) i =
      fileBlock (B.view c₁) e' i := fun i =>
    fileBlock_congr (fun i _ => addr_setNumBytes ..)
      (indirect_setNumBytes ..) fun h0 => hview _ (indirect_mem_refs h0)
  have hnum : (e'.setNumBytes (offset + count)).numBytes = max e.numBytes (offset + count) := by
    rw [numBytes_setNumBytes, Nat.mod_eq_of_lt, Nat.max_eq_right (Nat.le_of_lt hlt)]
    exact Nat.lt_of_le_of_lt hmax (by decide)
  refine { (h.toFileStep.trans hentry).trans hsync with
    type := by rw [type_setNumBytes, h.attrs.type]
    numLinks := by rw [numLinks_setNumBytes, h.attrs.numLinks]
    numBytes := hnum
    full := fun i hi => ?_
    bytes := fun j hj => ?_
    written := fun _ => by rw [entryAt, hu.self, ofBlock_intoBlock] }
  · rw [hblock]
    exact h.full i (hnum ▸ hi)
  · rw [hnum] at hj
    have hmem := fileBlock_mem_refs (div_lt_maxBlocks (j := j) (by omega)) (h.full.at hj)
    rw [← h.bytes j hj, byteAt, byteAt, hblock, hview _ hmem]

theorem Written.fileWritten {sb : SuperBlock} {no offset count : Nat} {src : Nat → UInt8}
    (h : Written B sb no c e offset count src e.numBytes c' e') (hle : offset + count ≤ e.numBytes) :
    FileWritten B sb no c e offset count src c' e' := by
  have hmax := Nat.max_eq_left hle
  obtain ⟨rfl, hent⟩ := h.same hle
  exact
    { h.toFileStep with
      type := rfl
      numLinks := rfl
      numBytes := hmax.symm
      full := hmax ▸ h.full
      bytes := hmax ▸ h.bytes
      written := fun he => hent.trans he }

theorem met_inodeWrite (s : Fs κ) (ip : Nat) (src : Nat → UInt8) {ctx cap : Nat}
    {M : Meter env.cache B ctx cap} {T : Finset Nat} {E : κ → Prop} (hE : ∀ c, M.stop c → E c)
    (L : StoreLaws env.cache B) (hib : InodeBlocks B env.sb)
    (hF : B.Scarce c e → ∀ c', M.full c' → E c') {offset count : Nat} (hin : M.In c T)
    (hs : B.Settled c) (h : FileOk B c e) (hno : (s.inodes ip).inodeNo < env.sb.numInodes)
    (htype : e.type ≠ INODE_DEVICE) (hf : Full (B.view c) e e.numBytes)
    (hnum : e.numBytes ≤ INODE_MAX_BYTES) (hoff : offset ≤ e.numBytes)
    (hmax : offset + count ≤ INODE_MAX_BYTES)
    (hfits : weight T (env.sb.toBlockNo (s.inodes ip).inodeNo) e.indirect +
      demand offset count ≤ cap) :
    Post (fun r s' => r = count ∧ ∃ c' e' T', s' = s.setFile ip c' e' ∧
        FileWritten B env.sb (s.inodes ip).inodeNo c e offset count src c' e' ∧ M.In c' T' ∧
        T'.card ≤ cap)
      (fun s' => E s'.cache)
      ((inodeWrite env (some ctx) ip src offset count).exec (s.setFile ip c e)) := by
  have hend : usize (offset + count) = offset + count :=
    Nat.mod_eq_of_lt (Nat.lt_of_le_of_lt hmax (by decide))
  unfold inodeWrite
  refine post_getInode ?_
  rw [Fs.inodes_setFile]
  rw [if_neg htype, hend]
  refine post_assert hoff (post_assert hmax (post_assert (Nat.le_add_right _ _) ?_))
  refine (met_writeLoop hE L hib hF hno (by omega) count 0 c e T (Nat.zero_le _) (Nat.le_refl _)
    (.refl hs h hf hoff) hin hfits).bind ?_
  rintro w _ ⟨hw, c₁, e1, T1, rfl, h1, i1, w1⟩
  refine post_getInode ?_
  rw [Fs.inodes_setFile, hw]
  rw [h1.attrs.numBytes]
  split
  next hlt =>
    have hcard := (card_insert_inode_le T1 _ e1.indirect).trans w1
    refine post_setEntry (met_inodeSync hE hib i1 h1.settled hno hcard fun c2 h2 i2 => ?_)
    exact ⟨rfl, c2, _, _, rfl, h1.resize L hib hno hlt hmax h2, i2, hcard⟩
  next hle =>
    exact ⟨rfl, c₁, e1, T1, rfl, h1.fileWritten (Nat.not_lt.mp hle), i1,
      (card_le_weight ..).trans w1⟩

theorem post_inodeWrite (L : StoreLaws env.cache B) (hib : InodeBlocks B env.sb)
    (hP : B.stops ∨ B.Scarce c e → P)
    {ctx offset count : Nat} {src : Nat → UInt8} (hs : B.Settled c) (h : FileOk B c e)
    (hno : (s.inodes ip).inodeNo < env.sb.numInodes) (htype : e.type ≠ INODE_DEVICE)
    (hf : Full (B.view c) e e.numBytes) (hnum : e.numBytes ≤ INODE_MAX_BYTES)
    (hoff : offset ≤ e.numBytes) (hmax : offset + count ≤ INODE_MAX_BYTES) :
    Post (fun r s' => r = count ∧ ∃ c' e', s' = s.setFile ip c' e' ∧
        FileWritten B env.sb (s.inodes ip).inodeNo c e offset count src c' e') (fun _ => P)
      ((inodeWrite env (some ctx) ip src offset count).exec (s.setFile ip c e)) := by
  have hw := weight_empty_le (env.sb.toBlockNo (s.inodes ip).inodeNo) e.indirect
  refine (met_inodeWrite (M := L.meter ctx (3 + demand offset count)) (E := fun _ => P) (T := ∅) s ip
    src (fun _ hst => hP (.inl hst)) L hib (fun hroom _ _ => hP (.inr hroom)) trivial hs h hno htype hf
    hnum hoff hmax (Nat.add_le_add_right hw _)).imp ?_ fun _ hp => hp
  rintro r s' ⟨hr, c', e', _, hs', hwr, -⟩
  exact ⟨hr, c', e', hs', hwr⟩

theorem FileWritten.refl {sb : SuperBlock} {no offset : Nat} {src : Nat → UInt8} (hs : B.Settled c)
    (h : FileOk B c e) (hf : Full (B.view c) e e.numBytes) (hoff : offset ≤ e.numBytes) :
    FileWritten B sb no c e offset 0 src c e :=
  { FileStep.refl hs h with
    type := rfl
    numLinks := rfl
    numBytes := by omega
    full := hf
    bytes := fun j _ => by rw [if_neg (by omega)]
    written := fun he => he }

theorem FileWritten.append {sb : SuperBlock} {no offset len k : Nat} {src src' : Nat → UInt8}
    {c₁ : κ} {e1 : InodeEntry} (h : FileWritten B sb no c e offset len src c₁ e1)
    (h' : FileWritten B sb no c₁ e1 (offset + len) k src' c' e')
    (hsrc : ∀ i < k, src' i = src (len + i)) :
    FileWritten B sb no c e offset (len + k) src c' e' :=
  { h.toFileStep.trans h'.toFileStep with
    type := h'.type.trans h.type
    numLinks := h'.numLinks.trans h.numLinks
    numBytes := by
      rw [h'.numBytes, h.numBytes]
      omega
    full := h'.full
    bytes := fun j hj => by
      have hnum1 := h.numBytes
      have hnum := h'.numBytes
      rw [h'.bytes j hj]
      by_cases hin : offset + len ≤ j ∧ j < offset + len + k
      · rw [if_pos hin, if_pos (by omega), hsrc _ (by omega)]
        congr 1
        omega
      · rw [if_neg hin, h.bytes j (by omega)]
        exact if_congr (by omega) rfl rfl
    written := fun he => h'.written (h.written he) }

theorem FileWritten.of_same {bc : BlockCache κ} (L : StoreLaws bc B) {sb : SuperBlock}
    (hib : InodeBlocks B sb) {no : Nat} (hno : no < sb.numInodes) {offset count : Nat}
    {src : Nat → UInt8} {c₁ : κ} (hok : B.Ok c) (h : FileOk B c e)
    (hf : Full (B.view c) e e.numBytes) (hmax : e.numBytes ≤ INODE_MAX_BYTES)
    (hoff : offset ≤ e.numBytes) (hs : B.Same c c₁)
    (hw : FileWritten B sb no c₁ e offset count src c' e') :
    FileWritten B sb no c e offset count src c' e' :=
  { (FileStep.of_same L hib hok h hs).trans hw.toFileStep with
    type := hw.type
    numLinks := hw.numLinks
    numBytes := hw.numBytes
    full := hw.full
    bytes := fun j hj => by
      rw [hw.bytes j hj]
      split
      · rfl
      next hout =>
        rw [hw.numBytes] at hj
        exact byteAt_same L h hs hf (by omega) hmax
    written := fun he => hw.written (by
      rwa [entryAt, hs.view _ (L.used_of_fixed hok (hib.fixed no hno)) (hib.own no hno)]) }

theorem FileWritten.trans_same {bc : BlockCache κ} (L : StoreLaws bc B) {sb : SuperBlock}
    (hib : InodeBlocks B sb) {no : Nat} (hno : no < sb.numInodes) {offset count : Nat}
    {src : Nat → UInt8} {c₁ : κ} (hmax : e'.numBytes ≤ INODE_MAX_BYTES)
    (hw : FileWritten B sb no c e offset count src c₁ e') (hs : B.Same c₁ c') :
    FileWritten B sb no c e offset count src c' e' :=
  { hw.toFileStep.trans (.of_same L hib hw.settled.ok hw.file hs) with
    type := hw.type
    numLinks := hw.numLinks
    numBytes := hw.numBytes
    full := hw.full.of_same L hw.file hs
    bytes := fun j hj => by
      rw [byteAt_same L hw.file hs hw.full hj hmax]
      exact hw.bytes j hj
    written := fun he => by
      rw [entryAt, hs.view _ (L.used_of_fixed hw.settled.ok (hib.fixed no hno)) (hib.own no hno)]
      exact hw.written he }

end OsKernel
