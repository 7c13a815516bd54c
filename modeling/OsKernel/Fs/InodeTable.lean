import OsKernel.Fs.FileContents
import OsKernel.Fs.RefCounts

/-!
# The inodes of a volume

The inode blocks and the in-memory inodes together.  On a *volume* the blocks that an entry refers
to are allocated, and no block belongs to two files.  Between calls an in-memory inode is *resident*:
it is valid, its lock is free and its entry is the one in the inode blocks.  There is at most one
for each inode number.

For each of `inode_get`, `inode_share`, `inode_lock` and `inode_put` there is a lemma with what it
does to such a state, on a block store that does not stop.
-/

namespace OsKernel

open Prog Function List Fs

theorem InodeEntry.ofBlock_zero (no : Nat) : InodeEntry.ofBlock Bytes.zero no = Bytes.zero := by
  funext i
  exact Bytes.get_of_lt _ (Nat.lt_of_lt_of_le (Nat.add_lt_add_left i.isLt _)
    (InodeEntry.offset_le no))

/-- `no` is an inode number of the file system. -/
def SuperBlock.HasInode (sb : SuperBlock) (no : Nat) : Prop := 0 < no ∧ no < sb.numInodes

instance (sb : SuperBlock) (no : Nat) : Decidable (sb.HasInode no) :=
  inferInstanceAs (Decidable (_ ∧ _))

section

variable {κ : Type} {B : StoreView κ} {sb : SuperBlock} {c c' : κ} {no : Nat} {e' : InodeEntry}

structure Volume (B : StoreView κ) (sb : SuperBlock) (c : κ) : Prop where
  settled : B.Settled c
  file : ∀ no, sb.HasInode no → FileOk B c (entryAt sb (B.view c) no)
  apart : ∀ no no', sb.HasInode no → sb.HasInode no' → no ≠ no' →
    ∀ x ∈ refs (B.view c) (entryAt sb (B.view c) no), x ∉ refs (B.view c) (entryAt sb (B.view c) no')

/-- Type, size and blocks of inode `no` are as before, and so is what is in the blocks. -/
structure FileKept (B : StoreView κ) (sb : SuperBlock) (no : Nat) (c c' : κ) : Prop where
  type : (entryAt sb (B.view c') no).type = (entryAt sb (B.view c) no).type
  numBytes : (entryAt sb (B.view c') no).numBytes = (entryAt sb (B.view c) no).numBytes
  blocks : refs (B.view c') (entryAt sb (B.view c') no) = refs (B.view c) (entryAt sb (B.view c) no)
  data : ∀ x ∈ refs (B.view c) (entryAt sb (B.view c) no), B.view c' x = B.view c x
  used : ∀ x ∈ refs (B.view c) (entryAt sb (B.view c) no), B.used c' x

structure EntryKept (B : StoreView κ) (sb : SuperBlock) (no : Nat) (c c' : κ) : Prop where
  entry : entryAt sb (B.view c') no = entryAt sb (B.view c) no
  data : ∀ x ∈ refs (B.view c) (entryAt sb (B.view c) no), B.view c' x = B.view c x
  used : ∀ x ∈ refs (B.view c) (entryAt sb (B.view c) no), B.used c' x

theorem EntryKept.refs_eq (h : EntryKept B sb no c c') :
    refs (B.view c') (entryAt sb (B.view c') no) =
      refs (B.view c) (entryAt sb (B.view c) no) := by
  rw [h.entry]
  exact refs_congr (fun _ _ => rfl) rfl fun h0 => h.data _ (indirect_mem_refs h0)

theorem EntryKept.fileKept (h : EntryKept B sb no c c') : FileKept B sb no c c' where
  type := by rw [h.entry]
  numBytes := by rw [h.entry]
  blocks := h.refs_eq
  data := h.data
  used := h.used

theorem Volume.of_owner {owner : Nat} {bs : List Nat} (hs : B.Settled c) (hnodup : bs.Nodup)
    (hused : ∀ b ∈ bs, B.used c b) (hdata : ∀ b ∈ bs, ¬ B.fixed b)
    (hrefs : ∀ no, sb.HasInode no → refs (B.view c) (entryAt sb (B.view c) no) =
      if no = owner then bs else []) : Volume B sb c := by
  refine ⟨hs, fun no hno => ?_, fun no no' hno hno' hne x hx => ?_⟩
  · constructor <;> rw [hrefs no hno] <;> split
    · exact hnodup
    · exact nodup_nil
    · exact hused
    · exact fun x hx => nomatch hx
    · exact hdata
    · exact fun x hx => nomatch hx
  · rw [hrefs no hno] at hx
    rw [hrefs no' hno']
    split at hx
    next h =>
      rw [if_neg fun h' => hne (h.trans h'.symm)]
      exact fun hx' => nomatch hx'
    next => cases hx

variable {bc : BlockCache κ}

section

variable (L : StoreLaws bc B) (hib : InodeBlocks B sb) (hv : Volume B sb c)

include L hib hv

section

variable (hno : sb.HasInode no) (hstep : FileStep B sb no c (entryAt sb (B.view c) no) c' e')

include hno hstep

theorem Volume.other {no' : Nat}
    (hno' : sb.HasInode no') (hne : no' ≠ no) : EntryKept B sb no' c c' := by
  have hfile := hv.file no' hno'
  have hapart := hv.apart no' no hno' hno hne
  refine ⟨hstep.table no' hno'.2 hne, fun x hx => ?_, fun x hx => ?_⟩
  · exact hstep.view x (hfile.used x hx) (hfile.own L hx) (hapart x hx)
      (hfile.ne_toBlockNo hib hno.2 hx)
  · exact (hstep.used x).mpr (.inr ⟨hfile.used x hx, hapart x hx⟩)

theorem Volume.step (hent : entryAt sb (B.view c') no = e') : Volume B sb c' := by
  subst hent
  have hother := fun {no'} (h : sb.HasInode no') (hne : no' ≠ no) =>
    hv.other L hib hno hstep h hne
  -- a block of the changed file was its own or belonged to nobody
  have hself : ∀ {no'}, sb.HasInode no' → no' ≠ no →
      ∀ x ∈ refs (B.view c') (entryAt sb (B.view c') no),
        x ∉ refs (B.view c') (entryAt sb (B.view c') no') := by
    intro no' h hne x hx hx'
    rw [(hother h hne).refs_eq] at hx'
    rcases hstep.fresh x hx with hold | hnew
    · exact hv.apart no' no h hno hne x hx' hold
    · exact hnew ((hv.file no' h).used x hx')
  refine ⟨hstep.settled, fun no' h => ?_, fun no1 no2 h1 h2 hne x hx hx' => ?_⟩
  · obtain rfl | hne := eq_or_ne no' no
    · exact hstep.file
    · have hk := hother h hne
      have hfile := hv.file no' h
      refine ⟨hk.refs_eq ▸ hfile.nodup, ?_, hk.refs_eq ▸ hfile.data⟩
      rw [hk.refs_eq]
      exact hk.used
  · obtain rfl | hno1 := eq_or_ne no1 no
    · exact hself h2 hne.symm x hx hx'
    · obtain rfl | hno2 := eq_or_ne no2 no
      · exact hself h1 hne x hx' hx
      · rw [(hother h1 hno1).refs_eq] at hx
        rw [(hother h2 hno2).refs_eq] at hx'
        exact hv.apart no1 no2 h1 h2 hne x hx hx'

end

theorem EntryKept.of_same (hs : B.Same c c') (hno : sb.HasInode no) : EntryKept B sb no c c' := by
  have hfile := hv.file no hno
  refine ⟨?_, fun x hx => hs.view x (hfile.used x hx) (hfile.own L hx), fun x hx => ?_⟩
  · have hfix := hib.fixed no hno.2
    rw [entryAt, entryAt, hs.view _ (L.used_of_fixed hv.settled.ok hfix) (hib.own no hno.2)]
  · rw [hs.used]
    exact hfile.used x hx

theorem Volume.same (hs : B.Same c c') : Volume B sb c' := by
  have hk := fun {no} (hno : sb.HasInode no) => EntryKept.of_same L hib hv hs hno
  refine ⟨hs.settled, fun no hno => ?_, fun no no' hno hno' hne => ?_⟩
  · rw [(hk hno).entry]
    exact (hv.file no hno).of_same L hs
  · rw [(hk hno).refs_eq, (hk hno').refs_eq]
    exact hv.apart no no' hno hno' hne

end

end

/-! ## In-memory inodes -/

section

variable {κ : Type} {B : StoreView κ} {env : FsEnv κ} {s s' : Fs κ} {ip no : Nat}

structure Resident (sb : SuperBlock) (v : Nat → Data) (i : Inode) : Prop where
  lock : i.lock = .initSem 1
  inode : sb.HasInode i.inodeNo
  valid : i.valid = true
  entry : i.entry = entryAt sb v i.inodeNo

/-- The volume and the in-memory inodes between calls. -/
structure FsOk (B : StoreView κ) (sb : SuperBlock) (s : Fs κ) : Prop where
  volume : Volume B sb s.cache
  resident : ∀ ip ∈ s.inodeHead, Resident sb (B.view s.cache) (s.inodes ip)
  distinct : (s.inodeHead.map fun ip => (s.inodes ip).inodeNo).Nodup
  fresh : ∀ ip ∈ s.inodeHead, ip < s.inodeBrk

theorem FsOk.inj (h : FsOk B env.sb s) {ip jp : Nat} (hip : ip ∈ s.inodeHead)
    (hjp : jp ∈ s.inodeHead) (he : (s.inodes ip).inodeNo = (s.inodes jp).inodeNo) : ip = jp :=
  inj_on_of_nodup_map h.distinct hip hjp he

theorem FsOk.file (h : FsOk B env.sb s) (hip : ip ∈ s.inodeHead) :
    FileOk B s.cache (s.inodes ip).entry := by
  have hr := h.resident ip hip
  rw [hr.entry]
  exact h.volume.file _ hr.inode

theorem FsOk.find_eq (h : FsOk B env.sb s) (hip : ip ∈ s.inodeHead) :
    s.inodeHead.find? (fun jp => (s.inodes jp).inodeNo = (s.inodes ip).inodeNo) = some ip := by
  cases hf : s.inodeHead.find? fun jp => (s.inodes jp).inodeNo = (s.inodes ip).inodeNo with
  | none =>
    have := List.find?_eq_none.mp hf ip hip
    simp at this
  | some jp =>
    have hno : (s.inodes jp).inodeNo = (s.inodes ip).inodeNo := by simpa using List.find?_some hf
    rw [h.inj (mem_of_find?_eq_some hf) hip hno]

theorem Fs.inodes_setFile_of_ne (s : Fs κ) {ip jp : Nat} (c : κ) (e : InodeEntry) (h : jp ≠ ip) :
    (s.setFile ip c e).inodes jp = s.inodes jp := update_of_ne h ..

@[simp] theorem Fs.inodeNo_setFile (s : Fs κ) (ip jp : Nat) (c : κ) (e : InodeEntry) :
    ((s.setFile ip c e).inodes jp).inodeNo = (s.inodes jp).inodeNo := by
  obtain rfl | h := eq_or_ne jp ip
  · rw [inodes_setFile]
  · rw [s.inodes_setFile_of_ne c e h]

@[simp] theorem Fs.rc_setFile (s : Fs κ) (ip jp : Nat) (c : κ) (e : InodeEntry) :
    ((s.setFile ip c e).inodes jp).rc = (s.inodes jp).rc := by
  obtain rfl | h := eq_or_ne jp ip
  · rw [inodes_setFile]
  · rw [s.inodes_setFile_of_ne c e h]

/-- Another count of references for the inode at `ip`. -/
def Fs.addRef (s : Fs κ) (ip : Nat) (d : Int) : Fs κ :=
  { s with inodes := update s.inodes ip { s.inodes ip with rc := (s.inodes ip).rc + d } }

@[simp] theorem Fs.rc_addRef_self (s : Fs κ) (ip : Nat) (d : Int) :
    ((s.addRef ip d).inodes ip).rc = (s.inodes ip).rc + d := by
  simp [addRef]

theorem Fs.inodes_addRef_of_ne (s : Fs κ) {ip jp : Nat} (d : Int) (h : jp ≠ ip) :
    (s.addRef ip d).inodes jp = s.inodes jp := update_of_ne h ..

@[simp] theorem Fs.inodeNo_addRef (s : Fs κ) (ip jp : Nat) (d : Int) :
    ((s.addRef ip d).inodes jp).inodeNo = (s.inodes jp).inodeNo := by
  obtain rfl | h := eq_or_ne jp ip
  · simp [addRef]
  · rw [s.inodes_addRef_of_ne d h]

theorem FsOk.addRef (h : FsOk B env.sb s) (ip : Nat) (d : Int) : FsOk B env.sb (s.addRef ip d) := by
  refine ⟨h.volume, fun jp hjp => ?_, ?_, h.fresh⟩
  · have hr := h.resident jp hjp
    obtain rfl | hj := eq_or_ne jp ip
    · refine ⟨?_, ?_, ?_, ?_⟩ <;> simp only [Fs.addRef, update_self]
      exacts [hr.lock, hr.inode, hr.valid, hr.entry]
    · rw [s.inodes_addRef_of_ne d hj]
      exact hr
  · simp only [inodeNo_addRef]
    exact h.distinct

theorem FsOk.of_same (L : StoreLaws env.cache B) (hib : InodeBlocks B env.sb) (h : FsOk B env.sb s)
    {c : κ} (hs : B.Same s.cache c) (j : Nat → Nat → UInt8) :
    FsOk B env.sb { s with cache := c, junk := j } := by
  refine ⟨h.volume.same L hib hs, fun ip hip => ?_, h.distinct, h.fresh⟩
  have hr := h.resident ip hip
  exact ⟨hr.lock, hr.inode, hr.valid,
    hr.entry.trans (EntryKept.of_same L hib h.volume hs hr.inode).entry.symm⟩

/-! ### Locks -/

theorem exec_lockInode (h : (s.inodes ip).lock = .initSem 1) :
    (lockInode ip).exec s = (.ok (), s.setLock ip (.initSem 0)) := by
  rw [lockInode, exec_bind_ok (exec_getInode ip s), h]
  rfl

theorem exec_postInode (h : (s.inodes ip).lock = .initSem 0) :
    (postInode ip).exec s = (.ok (), s.setLock ip (.initSem 1)) := by
  rw [postInode, exec_bind_ok (exec_getInode ip s), h]
  rfl

theorem exec_inodeLock {v : Nat → Data} (h : Resident env.sb v (s.inodes ip))
    (hrc : 0 < (s.inodes ip).rc) :
    (inodeLock env ip).exec s = (.ok (), s.setLock ip (.initSem 0)) := by
  have hvalid : ((s.setLock ip (.initSem 0)).inodes ip).valid = true := by
    simp [setLock, h.valid]
  rw [inodeLock, exec_bind_ok (exec_getInode ip s), exec_bind_ok (exec_assert hrc s),
    exec_bind_ok (exec_lockInode h.lock), exec_bind_ok (exec_getInode ip _), if_pos hvalid]
  rfl

theorem exec_inodeUnlock (h : (s.inodes ip).lock = .initSem 0) (hrc : 0 < (s.inodes ip).rc) :
    (inodeUnlock ip).exec s = (.ok (), s.setLock ip (.initSem 1)) := by
  rw [inodeUnlock, exec_bind_ok (exec_getInode ip s), exec_bind_ok (exec_assert hrc s),
    exec_postInode h]

theorem Fs.setLock_setFile (h : (s.inodes ip).lock = .initSem 1) (c : κ) (e : InodeEntry) :
    ((s.setLock ip (.initSem 0)).setFile ip c e).setLock ip (.initSem 1) = s.setFile ip c e := by
  have hi : { s.inodes ip with lock := .initSem 1, entry := e } =
      { s.inodes ip with entry := e } := by
    rw [← h]
  simp only [setLock, setFile, update_self, update_idem, hi]

theorem Fs.inodes_setLock (s : Fs κ) (ip : Nat) (sem : Semaphore) :
    (s.setLock ip sem).inodes ip = { s.inodes ip with lock := sem } := update_self ..

theorem Fs.setLock_eq_setFile (s : Fs κ) (ip : Nat) (sem : Semaphore) :
    s.setLock ip sem = (s.setLock ip sem).setFile ip s.cache (s.inodes ip).entry := by
  have hself := (s.setLock ip sem).setFile_self ip
  rw [s.inodes_setLock] at hself
  exact hself.symm

theorem exec_inodeUnlock_setFile {v : Nat → Data} (h : Resident env.sb v (s.inodes ip))
    (hrc : 0 < (s.inodes ip).rc) (c : κ) (e : InodeEntry) :
    (inodeUnlock ip).exec ((s.setLock ip (.initSem 0)).setFile ip c e) =
      (.ok (), s.setFile ip c e) := by
  have hi : ((s.setLock ip (.initSem 0)).setFile ip c e).inodes ip =
      { s.inodes ip with lock := .initSem 0, entry := e } := by
    rw [inodes_setFile, s.inodes_setLock]
  rw [exec_inodeUnlock (by rw [hi]) (by rw [hi]; exact hrc), setLock_setFile h.lock]

/-! ### `inode_get` -/

theorem exec_inodeGet_hit (h : FsOk B env.sb s) (hip : ip ∈ s.inodeHead) :
    (inodeGet env (s.inodes ip).inodeNo).exec s = (.ok ip, s.addRef ip 1) := by
  have hno := (h.resident ip hip).inode
  rw [inodeGet, exec_bind_ok (exec_assert hno.1 s), exec_bind_ok (exec_assert hno.2 s),
    exec_bind_ok (exec_get s), h.find_eq hip]
  rfl

/-- `inode_get(no)` has made a new in-memory inode. -/
structure Loaded (B : StoreView κ) (sb : SuperBlock) (s : Fs κ) (no : Nat) (s' : Fs κ) : Prop where
  same : B.Same s.cache s'.cache
  head : s'.inodeHead = s.inodeBrk :: s.inodeHead
  brk : s'.inodeBrk = s.inodeBrk + 1
  cwd : s'.cwd = s.cwd
  new : s'.inodes s.inodeBrk = { initInode with
    inodeNo := no, rc := 1, valid := true, entry := entryAt sb (B.view s.cache) no }
  old : ∀ jp, jp ≠ s.inodeBrk → s'.inodes jp = s.inodes jp

theorem StoreView.Settled.same_of_sync {c c1 c2 c3 : κ} {a b : Nat} (h : B.Settled c)
    (hused : B.used c b) (hown : ¬ B.own b) (h1 : B.Acquired c b a c1) (h2 : B.Synced c1 b c2)
    (h3 : B.Released c2 a b c3) : B.Same c c3 := by
  have hk : ∀ x, B.Keeps c c3 x := by
    intro x
    obtain rfl | hx := eq_or_ne x b
    · exact ((h1.keeps x).trans (h2.keeps x)).trans (h3.keepsSynced h2.synced)
    · exact ((h1.keeps x).trans (h2.keeps x)).trans (h3.keeps x hx)
  have hu : B.used c3 = B.used c := h3.used.trans (h2.used.trans h1.used)
  exact
    { settled := h.of_keeps h3.ok (h1.held_released h2.held h3) fun x hx _ => .inl ⟨hu ▸ hx, hk x⟩
      view := fun x hx hox => (hk x (h.safe hx hox)).2
      used := hu
      room := h3.room.trans (h2.room.trans h1.room) }

section

variable (L : StoreLaws env.cache B)

include L

section

variable (hib : InodeBlocks B env.sb)

include hib

theorem exec_inodeSync_read
    (hnull : SyncsDirect env.cache B) (hs : B.Settled s.cache) (hno : (s.inodes ip).inodeNo < env.sb.numInodes) :
    ∃ c, (inodeSync env none ip false).exec s = (.ok (), { s with
        cache := c
        inodes := update s.inodes ip { s.inodes ip with
          entry := entryAt env.sb (B.view s.cache) (s.inodes ip).inodeNo, valid := true } }) ∧
      B.Same s.cache c := by
  have hown := hib.own _ hno
  have hused := L.used_of_fixed hs.ok (hib.fixed _ hno)
  obtain ⟨a, c1, hacq, h1⟩ := L.acquire hs.ok (hib.lt _ hno) hown (hs.free _)
  have hdata := L.data h1.ok h1.held_self
  obtain ⟨c2, hsync, h2⟩ := hnull h1.ok h1.held_self hown
  obtain ⟨c3, hrel, h3⟩ := L.release h2.ok (h2.held ▸ h1.held_self) hown
  refine ⟨c3, ?_, hs.same_of_sync hused hown h1 h2 h3⟩
  have hacq' : (acquire env (env.sb.toBlockNo (s.inodes ip).inodeNo)).exec s =
      (.ok a, { s with cache := c1 }) := by
    rw [← Nat.mod_eq_of_lt (hib.lt _ hno)] at hacq
    exact exec_onCache hacq
  let s2 : Fs κ := { s with
    cache := c1
    inodes := update s.inodes ip { s.inodes ip with
      entry := entryAt env.sb (B.view s.cache) (s.inodes ip).inodeNo, valid := true } }
  have hcopy : (copyEntry env ip a false).exec { s with cache := c1 } = (.ok (), s2) := by
    rw [copyEntry, exec_bind_ok (exec_getInode ip _), if_neg (by decide), blockData,
      exec_bind_ok (exec_onCache (s := { s with cache := c1 }) hdata), h1.view]
    rfl
  rw [inodeSync, exec_bind_ok (exec_getInode ip s), exec_bind_ok (exec_assert hno s),
    exec_bind_ok hacq', exec_bind_ok hcopy, sync, exec_bind_ok (exec_onCache (s := s2) hsync)]
  exact exec_onCache hrel

theorem exec_inodeGet_miss
    (hnull : SyncsDirect env.cache B) (hs : B.Settled s.cache) (hno : env.sb.HasInode no)
    (hnone : ∀ ip ∈ s.inodeHead, (s.inodes ip).inodeNo ≠ no) :
    ∃ s', (inodeGet env no).exec s = (.ok s.inodeBrk, s') ∧ Loaded B env.sb s no s' := by
  have hfind : s.inodeHead.find? (fun ip => (s.inodes ip).inodeNo = no) = none := by
    rw [List.find?_eq_none]
    intro ip hip
    simpa using hnone ip hip
  let s1 : Fs κ := { s with
    inodes := update s.inodes s.inodeBrk { initInode with inodeNo := no, rc := 1 }
    inodeHead := s.inodeBrk :: s.inodeHead
    inodeBrk := s.inodeBrk + 1
    loads := s.loads ++ [(s.cache, usize (env.sb.toBlockNo no))] }
  have hnew : s1.inodes s.inodeBrk = { initInode with inodeNo := no, rc := 1 } := update_self ..
  have hlt : (s1.inodes s.inodeBrk).inodeNo < env.sb.numInodes := by
    rw [hnew]
    exact hno.2
  obtain ⟨c, hexec, hsame⟩ := exec_inodeSync_read (s := s1) L hib hnull hs hlt
  rw [inodeGet, exec_bind_ok (exec_assert hno.1 s), exec_bind_ok (exec_assert hno.2 s),
    exec_bind_ok (exec_get s), hfind]
  refine ⟨_, exec_bind_ok hexec, hsame, rfl, rfl, rfl, ?_, fun jp hjp => ?_⟩
  · dsimp only
    rw [update_self, hnew]
  · dsimp only [s1]
    rw [update_of_ne hjp, update_of_ne hjp]

theorem FsOk.loaded (h : FsOk B env.sb s)
    (hno : env.sb.HasInode no) (hnone : ∀ ip ∈ s.inodeHead, (s.inodes ip).inodeNo ≠ no)
    (hl : Loaded B env.sb s no s') : FsOk B env.sb s' := by
  have hold : ∀ ip ∈ s.inodeHead, s'.inodes ip = s.inodes ip := fun ip hip =>
    hl.old ip (Nat.ne_of_lt (h.fresh ip hip))
  refine ⟨h.volume.same L hib hl.same, fun ip hip => ?_, ?_, fun ip hip => ?_⟩
  · rw [hl.head, mem_cons] at hip
    rcases hip with rfl | hip
    · rw [hl.new]
      exact ⟨rfl, hno, rfl, (EntryKept.of_same L hib h.volume hl.same hno).entry.symm⟩
    · have hr := h.resident ip hip
      rw [hold ip hip]
      refine ⟨hr.lock, hr.inode, hr.valid, ?_⟩
      rw [(EntryKept.of_same L hib h.volume hl.same hr.inode).entry]
      exact hr.entry
  · rw [hl.head, map_cons, hl.new, nodup_cons]
    have hmap : (s.inodeHead.map fun ip => (s'.inodes ip).inodeNo) =
        s.inodeHead.map fun ip => (s.inodes ip).inodeNo :=
      map_congr_left fun ip hip => by rw [hold ip hip]
    rw [hmap]
    refine ⟨fun hmem => ?_, h.distinct⟩
    obtain ⟨ip, hip, he⟩ := mem_map.mp hmem
    exact hnone ip hip he
  · rw [hl.head, mem_cons] at hip
    rw [hl.brk]
    rcases hip with rfl | hip
    · exact Nat.lt_succ_self _
    · exact Nat.lt_succ_of_lt (h.fresh ip hip)

/-! ### Changes of one inode -/

theorem FsOk.file_step (h : FsOk B env.sb s) (hip : ip ∈ s.inodeHead) {c : κ} {e : InodeEntry}
    (hstep : FileStep B env.sb (s.inodes ip).inodeNo s.cache (s.inodes ip).entry c e)
    (hent : entryAt env.sb (B.view c) (s.inodes ip).inodeNo = e) :
    FsOk B env.sb (s.setFile ip c e) := by
  have hr := h.resident ip hip
  rw [hr.entry] at hstep
  refine ⟨h.volume.step L hib hr.inode hstep hent, fun jp hjp => ?_, ?_, h.fresh⟩
  · have hrj := h.resident jp hjp
    obtain rfl | hj := eq_or_ne jp ip
    · rw [inodes_setFile]
      exact ⟨hr.lock, hr.inode, hr.valid, hent.symm⟩
    · have hne : (s.inodes jp).inodeNo ≠ (s.inodes ip).inodeNo := fun he => hj (h.inj hjp hip he)
      rw [s.inodes_setFile_of_ne c e hj]
      refine ⟨hrj.lock, hrj.inode, hrj.valid, ?_⟩
      rw [cache_setFile, (h.volume.other L hib hr.inode hstep hrj.inode hne).entry]
      exact hrj.entry
  · simp only [inodeNo_setFile]
    exact h.distinct

end

end

/-- `inode_put(ip)` has freed the inode. -/
structure PutFreed (B : StoreView κ) (sb : SuperBlock) (s : Fs κ) (ip : Nat) (s' : Fs κ) : Prop where
  step : FileStep B sb (s.inodes ip).inodeNo s.cache (s.inodes ip).entry s'.cache
    (entryAt sb (B.view s'.cache) (s.inodes ip).inodeNo)
  type : (entryAt sb (B.view s'.cache) (s.inodes ip).inodeNo).type = INODE_INVALID
  numBytes : (entryAt sb (B.view s'.cache) (s.inodes ip).inodeNo).numBytes = 0
  blocks : refs (B.view s'.cache) (entryAt sb (B.view s'.cache) (s.inodes ip).inodeNo) = []
  head : s'.inodeHead = s.inodeHead.erase ip
  brk : s'.inodeBrk = s.inodeBrk
  cwd : s'.cwd = s.cwd
  old : ∀ jp, jp ≠ ip → s'.inodes jp = s.inodes jp

theorem FsOk.nodup_head (h : FsOk B env.sb s) : s.inodeHead.Nodup := h.distinct.of_map

theorem FsOk.put_freed (L : StoreLaws env.cache B) (hib : InodeBlocks B env.sb)
    (h : FsOk B env.sb s) (hip : ip ∈ s.inodeHead) (hf : PutFreed B env.sb s ip s') :
    FsOk B env.sb s' := by
  have hr := h.resident ip hip
  have hstep := hf.step
  rw [hr.entry] at hstep
  have hmem : ∀ {jp}, jp ∈ s'.inodeHead → jp ≠ ip ∧ jp ∈ s.inodeHead := fun hjp => by
    rw [hf.head] at hjp
    exact h.nodup_head.mem_erase_iff.mp hjp
  have hmap : (s'.inodeHead.map fun jp => (s'.inodes jp).inodeNo) =
      s'.inodeHead.map fun jp => (s.inodes jp).inodeNo :=
    map_congr_left fun jp hjp => by rw [hf.old jp (hmem hjp).1]
  refine ⟨h.volume.step L hib hr.inode hstep rfl, fun jp hjp => ?_, ?_, fun jp hjp => ?_⟩
  · obtain ⟨hj, hjp⟩ := hmem hjp
    have hrj := h.resident jp hjp
    have hne : (s.inodes jp).inodeNo ≠ (s.inodes ip).inodeNo := fun he => hj (h.inj hjp hip he)
    rw [hf.old jp hj]
    refine ⟨hrj.lock, hrj.inode, hrj.valid, ?_⟩
    rw [(h.volume.other L hib hr.inode hstep hrj.inode hne).entry]
    exact hrj.entry
  · rw [hmap, hf.head]
    exact h.distinct.sublist (erase_sublist.map _)
  · rw [hf.brk]
    exact h.fresh jp (hmem hjp).2

/-! ### `inode_put` -/

/-- The state in which `inode_put` looks at the counts. -/
def Fs.dropping (s : Fs κ) (ip : Nat) : Fs κ := (s.setLock ip (.initSem 0)).addRef ip (-1)

theorem exec_inodePut (ctx : Option Nat) (hlock : (s.inodes ip).lock = .initSem 1) :
    (inodePut env ctx ip).exec s =
      (if (s.inodes ip).rc = 1 ∧ (s.inodes ip).entry.numLinks = 0 then do
          setEntry ip fun e => e.setType INODE_INVALID
          inodeClear env ctx ip
          inodeSync env ctx ip true
          modify fun s => { s with inodeHead := s.inodeHead.erase ip }
          postInode ip
        else postInode ip : FsM κ Unit).exec (s.dropping ip) := by
  have hset : (setInode ip fun i => { i with rc := i.rc - 1 }).exec (s.setLock ip (.initSem 0)) =
      (.ok (), s.dropping ip) := rfl
  have hinode : (s.dropping ip).inodes ip =
      { s.inodes ip with lock := .initSem 0, rc := (s.inodes ip).rc + -1 } := by
    simp [dropping, addRef, setLock]
  have hcond : ((s.inodes ip).rc + -1 = 0 ∧ (s.inodes ip).entry.numLinks = 0) ↔
      (s.inodes ip).rc = 1 ∧ (s.inodes ip).entry.numLinks = 0 := and_congr_left fun _ => by omega
  rw [inodePut, exec_bind_ok (exec_lockInode hlock), exec_bind_ok hset,
    exec_bind_ok (exec_getInode ip _), hinode]
  simp only [hcond]

theorem exec_inodePut_kept (ctx : Option Nat) (hlock : (s.inodes ip).lock = .initSem 1)
    (hkeep : ¬ ((s.inodes ip).rc = 1 ∧ (s.inodes ip).entry.numLinks = 0)) :
    (inodePut env ctx ip).exec s = (.ok (), s.addRef ip (-1)) := by
  have hlock' : ((s.dropping ip).inodes ip).lock = .initSem 0 := by
    simp [dropping, addRef, setLock]
  have hi : { s.inodes ip with lock := .initSem 1, rc := (s.inodes ip).rc + -1 } =
      { s.inodes ip with rc := (s.inodes ip).rc + -1 } := by
    rw [← hlock]
  rw [exec_inodePut ctx hlock, if_neg hkeep, exec_postInode hlock']
  simp only [dropping, addRef, setLock, update_self, update_idem, hi]

/-- The put of the last reference to an inode without links frees it, unless the store stops it. -/
theorem post_inodePut_freed (ctx : Nat) (L : StoreLaws env.cache B) (hib : InodeBlocks B env.sb)
    (h : FsOk B env.sb s) (hip : ip ∈ s.inodeHead) (hrc : (s.inodes ip).rc = 1)
    (hlinks : (s.inodes ip).entry.numLinks = 0) :
    Post (fun _ s' => PutFreed B env.sb s ip s') (fun _ => B.stops)
      ((inodePut env (some ctx) ip).exec s) := by
  have hr := h.resident ip hip
  have hinode : (s.dropping ip).inodes ip =
      { s.inodes ip with lock := .initSem 0, rc := (s.inodes ip).rc + -1 } := by
    simp [dropping, addRef, setLock]
  have hdrop : s.dropping ip = (s.dropping ip).setFile ip s.cache (s.inodes ip).entry := by
    have hself := (s.dropping ip).setFile_self ip
    rw [hinode] at hself
    exact hself.symm
  have hlt : ((s.dropping ip).inodes ip).inodeNo < env.sb.numInodes := by
    rw [hinode]
    exact hr.inode.2
  have hset : FileStep B env.sb (s.inodes ip).inodeNo s.cache (s.inodes ip).entry s.cache
      ((s.inodes ip).entry.setType INODE_INVALID) :=
    .of_entry h.volume.settled (h.file hip) (fun i _ => by simp) (by simp)
  rw [exec_inodePut (some ctx) hr.lock, if_pos ⟨hrc, hlinks⟩, hdrop]
  refine post_setEntry ?_
  refine (post_inodeClear L hib id hset.settled hset.file hlt).bind ?_
  rintro _ _ ⟨c1, e1, rfl, h1⟩
  refine post_inodeSync L hib id h1.settled hlt fun c2 h2 => ?_
  rw [hinode] at h1 h2
  have hstep := (hset.trans h1.toFileStep).trans
    (.of_sync L hib hr.inode.2 h1.settled.ok h1.file h2)
  have hent : entryAt env.sb (B.view c2) (s.inodes ip).inodeNo = e1 := by
    rw [entryAt, h2.self, InodeEntry.ofBlock_intoBlock]
  have hlock : ((s.dropping ip).setFile ip c2 e1).inodes ip =
      { s.inodes ip with lock := .initSem 0, rc := (s.inodes ip).rc + -1, entry := e1 } := by
    rw [inodes_setFile, hinode]
  rw [exec_bind_ok (exec_modify _ _), exec_postInode (by rw [hlock])]
  have hfreed : FileStep B env.sb (s.inodes ip).inodeNo s.cache (s.inodes ip).entry c2
        (entryAt env.sb (B.view c2) (s.inodes ip).inodeNo) ∧
      (entryAt env.sb (B.view c2) (s.inodes ip).inodeNo).type = INODE_INVALID ∧
      (entryAt env.sb (B.view c2) (s.inodes ip).inodeNo).numBytes = 0 ∧
      refs (B.view c2) (entryAt env.sb (B.view c2) (s.inodes ip).inodeNo) = [] := by
    rw [hent]
    refine ⟨hstep, ?_, h1.numBytes, refs_eq_nil h1.direct h1.indirect⟩
    rw [h1.type, InodeEntry.type_setType]
    rfl
  obtain ⟨hstep, htype, hbytes, hrefs⟩ := hfreed
  refine ⟨hstep, htype, hbytes, hrefs, rfl, rfl, rfl, fun jp hjp => ?_⟩
  simp [setLock, setFile, dropping, addRef, hjp]

end

end OsKernel
