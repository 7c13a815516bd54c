import OsKernel.Fs.InodeTable
import OsKernel.Fs.Operations

/-!
# The life of an inode

Runs of `inode_get`, `inode_share`, `inode_put` and changes of `num_links` under the lock of the
inode, by callers that hold a reference to the inode they name.  `balance no` counts the references
to inode `no` that have been given out and not been put back.  It is the count of the only in-memory
inode with that number, and `0` if there is none.

The blocks of a file are given back by the put that takes the last reference to an inode without
links, and by no other call.  An inode with links stays in memory without references.
-/

namespace OsKernel

open Prog Function InodeEntry

inductive InodeCall where
  | get (no : Nat)
  | share (ip : Nat)
  | put (ip : Nat)
  | setNumLinks (ip n : Nat)

namespace InodeCall

variable {κ : Type}

def run (env : FsEnv κ) (ctx : Nat) : InodeCall → FsM κ Unit
  | .get no => do
    let _ ← inodeGet env no
    return ()
  | .share ip => do
    let _ ← inodeShare ip
    return ()
  | .put ip => inodePut env (some ctx) ip
  | .setNumLinks ip n => do
    inodeLock env ip
    setEntry ip fun e => e.setNumLinks n
    inodeSync env (some ctx) ip true
    inodeUnlock ip

/-- The references given out for each inode number after a call. -/
def count (s : Fs κ) (balance : Nat → Int) : InodeCall → Nat → Int
  | .get no => update balance no (balance no + 1)
  | .share ip => update balance (s.inodes ip).inodeNo (balance (s.inodes ip).inodeNo + 1)
  | .put ip => update balance (s.inodes ip).inodeNo (balance (s.inodes ip).inodeNo + -1)
  | .setNumLinks _ _ => balance

/-- `inode_get` is called with an inode number of the file system, the others by a caller that has a
reference. -/
def Ok (sb : SuperBlock) (s : Fs κ) : InodeCall → Prop
  | .get no => sb.HasInode no
  | .share ip | .put ip | .setNumLinks ip _ => ip ∈ s.inodeHead ∧ 0 < (s.inodes ip).rc

instance (sb : SuperBlock) (s : Fs κ) : (call : InodeCall) → Decidable (call.Ok sb s)
  | .get no => inferInstanceAs (Decidable (sb.HasInode no))
  | .share _ | .put _ | .setNumLinks _ _ => inferInstanceAs (Decidable (_ ∧ _))

/-- The call is the put of the last reference to inode `no`, which has no links. -/
def Last (s : Fs κ) (no : Nat) : InodeCall → Prop
  | .put ip => (s.inodes ip).inodeNo = no ∧ (s.inodes ip).rc = 1 ∧ (s.inodes ip).entry.numLinks = 0
  | .get _ | .share _ | .setNumLinks _ _ => False

end InodeCall

/-- The file system and the references given out. -/
structure InodeRun (κ : Type) where
  fs : Fs κ
  balance : Nat → Int

namespace InodeRun

variable {κ : Type}

def step (env : FsEnv κ) (ctx : Nat) (st : InodeRun κ) (call : InodeCall) :
    Except Halt (InodeRun κ) :=
  (((call.run env ctx).exec st.fs).1).map fun _ =>
    ⟨((call.run env ctx).exec st.fs).2, call.count st.fs st.balance⟩

def Init (B : StoreView κ) (sb : SuperBlock) (st : InodeRun κ) : Prop :=
  FsOk B sb st.fs ∧ st.fs.inodeHead = [] ∧ st.balance = fun _ => 0

/-- The balance of an inode number is the count of its in-memory inode. -/
structure Balanced (s : Fs κ) (balance : Nat → Int) : Prop where
  rc : ∀ ip ∈ s.inodeHead, (s.inodes ip).rc = balance (s.inodes ip).inodeNo
  none : ∀ no, (∀ ip ∈ s.inodeHead, (s.inodes ip).inodeNo ≠ no) → balance no = 0

end InodeRun

/-- Inode `no` has been freed. -/
structure InodeFreed {κ : Type} (B : StoreView κ) (sb : SuperBlock) (no : Nat) (c c' : κ) : Prop where
  type : (entryAt sb (B.view c') no).type = INODE_INVALID
  blocks : refs (B.view c') (entryAt sb (B.view c') no) = []
  freed : ∀ x ∈ refs (B.view c) (entryAt sb (B.view c) no), ¬ B.used c' x

/-! ## What a call does -/

section

variable {κ : Type} {B : StoreView κ} {env : FsEnv κ} {s s' : Fs κ} {ip no ctx : Nat}
  {balance : Nat → Int} {call : InodeCall}

open InodeRun

/-- What a call leaves: the put of the last reference to an inode without links frees it, and
otherwise every file is as before. -/
structure Lived (B : StoreView κ) (sb : SuperBlock) (s : Fs κ) (balance : Nat → Int)
    (call : InodeCall) (s' : Fs κ) : Prop where
  ok : FsOk B sb s'
  balanced : Balanced s' (call.count s balance)
  kept : ∀ no, sb.HasInode no → ¬ call.Last s no → FileKept B sb no s.cache s'.cache
  freed : ∀ no, call.Last s no → InodeFreed B sb no s.cache s'.cache

theorem FileKept.refl (h : FsOk B env.sb s) (hno : env.sb.HasInode no) :
    FileKept B env.sb no s.cache s.cache :=
  ⟨rfl, rfl, rfl, fun _ _ => rfl, (h.volume.file no hno).used⟩

theorem FileKept.of_entry (L : StoreLaws env.cache B) (hib : InodeBlocks B env.sb)
    (h : FsOk B env.sb s) (hip : ip ∈ s.inodeHead) {c : κ} {e : InodeEntry}
    (htype : e.type = (s.inodes ip).entry.type) (hnum : e.numBytes = (s.inodes ip).entry.numBytes)
    (hd : ∀ i < INODE_NUM_DIRECT, e.addr i = (s.inodes ip).entry.addr i)
    (hi : e.indirect = (s.inodes ip).entry.indirect)
    (hu : B.Updated s.cache (env.sb.toBlockNo (s.inodes ip).inodeNo)
      (fun d => e.intoBlock d (s.inodes ip).inodeNo) c) :
    FileKept B env.sb (s.inodes ip).inodeNo s.cache c := by
  have hr := h.resident ip hip
  have hfile := h.file hip
  have hdata : ∀ x ∈ refs (B.view s.cache) (s.inodes ip).entry, B.view c x = B.view s.cache x :=
    fun x hx => hu.view x (hfile.used x hx) (hfile.own L hx) (hfile.ne_toBlockNo hib hr.inode.2 hx)
  have hent : entryAt env.sb (B.view c) (s.inodes ip).inodeNo = e := by
    rw [entryAt, hu.self, ofBlock_intoBlock]
  rw [hr.entry] at htype hnum hd hi hdata hfile
  refine ⟨hent ▸ htype, hent ▸ hnum, ?_, hdata, ?_⟩
  · rw [hent]
    exact refs_congr hd hi fun h0 => hdata _ (indirect_mem_refs h0)
  · rw [hu.used]
    exact hfile.used

theorem InodeRun.Balanced.addRef (hb : Balanced s balance) (h : FsOk B env.sb s)
    (hip : ip ∈ s.inodeHead) (d : Int) :
    Balanced (s.addRef ip d) (update balance (s.inodes ip).inodeNo
      (balance (s.inodes ip).inodeNo + d)) := by
  refine ⟨fun jp hjp => ?_, fun no hno => ?_⟩
  · obtain rfl | hj := eq_or_ne jp ip
    · rw [Fs.rc_addRef_self, Fs.inodeNo_addRef, update_self, hb.rc jp hjp]
    · have hne : (s.inodes jp).inodeNo ≠ (s.inodes ip).inodeNo := fun he => hj (h.inj hjp hip he)
      rw [s.inodes_addRef_of_ne d hj, update_of_ne hne, hb.rc jp hjp]
  · simp only [Fs.inodeNo_addRef] at hno
    rw [update_of_ne (hno ip hip).symm]
    exact hb.none no hno

theorem Loaded.balanced (hl : Loaded B env.sb s no s') (h : FsOk B env.sb s)
    (hb : Balanced s balance) (hnone : ∀ ip ∈ s.inodeHead, (s.inodes ip).inodeNo ≠ no) :
    Balanced s' (update balance no (balance no + 1)) := by
  have hold : ∀ ip ∈ s.inodeHead, s'.inodes ip = s.inodes ip := fun ip hip =>
    hl.old ip (Nat.ne_of_lt (h.fresh ip hip))
  refine ⟨fun ip hip => ?_, fun no' hno' => ?_⟩
  · rw [hl.head, List.mem_cons] at hip
    rcases hip with rfl | hip
    · rw [hl.new, update_self, hb.none no hnone]
      rfl
    · rw [hold ip hip, update_of_ne (hnone ip hip), hb.rc ip hip]
  · simp only [hl.head, List.mem_cons, forall_eq_or_imp, hl.new] at hno'
    rw [update_of_ne (Ne.symm hno'.1)]
    exact hb.none no' fun ip hip => hold ip hip ▸ hno'.2 ip hip

theorem lived_get (L : StoreLaws env.cache B) (hib : InodeBlocks B env.sb)
    (hnull : SyncsDirect env.cache B) (h : FsOk B env.sb s) (hb : Balanced s balance)
    (hno : env.sb.HasInode no) :
    ∃ ip s', (inodeGet env no).exec s = (.ok ip, s') ∧
      Lived B env.sb s balance (.get no) s' := by
  by_cases hmem : ∃ ip ∈ s.inodeHead, (s.inodes ip).inodeNo = no
  · obtain ⟨ip, hip, rfl⟩ := hmem
    exact ⟨ip, _, exec_inodeGet_hit h hip, h.addRef ip 1, hb.addRef h hip 1,
      fun no hno _ => .refl h hno, fun _ hl => absurd hl id⟩
  have hnone : ∀ ip ∈ s.inodeHead, (s.inodes ip).inodeNo ≠ no := fun ip hip he =>
    hmem ⟨ip, hip, he⟩
  obtain ⟨s', hexec, hl⟩ := exec_inodeGet_miss L hib hnull h.volume.settled hno hnone
  exact ⟨_, s', hexec, h.loaded L hib hno hnone hl, hl.balanced h hb hnone,
    fun no' h' _ => (EntryKept.of_same L hib h.volume hl.same h').fileKept,
    fun _ hl => absurd hl id⟩

theorem lived_share (h : FsOk B env.sb s) (hb : Balanced s balance) (hip : ip ∈ s.inodeHead) :
    Lived B env.sb s balance (.share ip) (s.addRef ip 1) :=
  ⟨h.addRef ip 1, hb.addRef h hip 1, fun _ hno _ => .refl h hno, fun _ hl => absurd hl id⟩

theorem lived_put (ctx : Nat) (L : StoreLaws env.cache B) (hib : InodeBlocks B env.sb)
    (h : FsOk B env.sb s) (hb : Balanced s balance) (hip : ip ∈ s.inodeHead) :
    Post (fun _ => Lived B env.sb s balance (.put ip)) (fun _ => B.stops)
      ((inodePut env (some ctx) ip).exec s) := by
  have hr := h.resident ip hip
  by_cases hlast : (s.inodes ip).rc = 1 ∧ (s.inodes ip).entry.numLinks = 0
  · refine (post_inodePut_freed ctx L hib h hip hlast.1 hlast.2).imp (fun _ s' hf => ?_) fun _ => id
    have hstep := hf.step
    rw [hr.entry] at hstep
    have hmem : ∀ {jp}, jp ∈ s'.inodeHead ↔ jp ≠ ip ∧ jp ∈ s.inodeHead := by
      rw [hf.head]
      exact h.nodup_head.mem_erase_iff
    refine ⟨h.put_freed L hib hip hf, ⟨fun jp hjp => ?_, fun no hno => ?_⟩,
      fun no hno hl => ?_, fun no hl => ?_⟩
    · obtain ⟨hj, hjp⟩ := hmem.mp hjp
      have hne : (s.inodes jp).inodeNo ≠ (s.inodes ip).inodeNo := fun he => hj (h.inj hjp hip he)
      rw [hf.old jp hj, InodeCall.count, update_of_ne hne, hb.rc jp hjp]
    · by_cases hn : no = (s.inodes ip).inodeNo
      · rw [hn, InodeCall.count, update_self, ← hb.rc ip hip, hlast.1]
        rfl
      rw [InodeCall.count, update_of_ne hn]
      refine hb.none no fun jp hjp he => ?_
      have hj : jp ≠ ip := by
        rintro rfl
        exact hn he.symm
      exact hno jp (hmem.mpr ⟨hj, hjp⟩) (by rw [hf.old jp hj, he])
    · have hne : no ≠ (s.inodes ip).inodeNo := by
        rintro rfl
        exact hl ⟨rfl, hlast⟩
      exact (h.volume.other L hib hr.inode hstep hno hne).fileKept
    · obtain ⟨rfl, -⟩ := hl
      refine ⟨hf.type, hf.blocks, fun x hx hu => ?_⟩
      rw [hstep.used, hf.blocks] at hu
      rcases hu with hu | hu
      · cases hu
      · exact hu.2 hx
  · exact .of_ok (exec_inodePut_kept (some ctx) hr.lock hlast) ⟨h.addRef ip (-1),
      hb.addRef h hip (-1), fun _ hno _ => .refl h hno, fun no hl => absurd hl.2 hlast⟩

/-- The lock is taken, `num_links` is changed, the entry is synced and the lock is released. -/
theorem lived_setNumLinks (ctx n : Nat) (L : StoreLaws env.cache B) (hib : InodeBlocks B env.sb)
    (h : FsOk B env.sb s) (hb : Balanced s balance) (hip : ip ∈ s.inodeHead)
    (hrc : 0 < (s.inodes ip).rc) :
    Post (fun _ => Lived B env.sb s balance (.setNumLinks ip n)) (fun _ => B.stops)
      (((InodeCall.setNumLinks ip n).run env ctx).exec s) := by
  have hr := h.resident ip hip
  have hlt : ((s.setLock ip (.initSem 0)).inodes ip).inodeNo < env.sb.numInodes := by
    rw [s.inodes_setLock]
    exact hr.inode.2
  have hset : FileStep B env.sb (s.inodes ip).inodeNo s.cache (s.inodes ip).entry s.cache
      ((s.inodes ip).entry.setNumLinks n) :=
    .of_entry h.volume.settled (h.file hip) (fun i _ => by simp) (by simp)
  rw [InodeCall.run, exec_bind_ok (exec_inodeLock hr hrc), s.setLock_eq_setFile]
  refine post_setEntry (post_inodeSync L hib id hset.settled hlt fun c h1 => ?_)
  rw [s.inodes_setLock] at h1
  rw [exec_inodeUnlock_setFile hr hrc]
  have hstep := hset.trans (.of_sync L hib hr.inode.2 hset.settled.ok hset.file h1)
  have hent : entryAt env.sb (B.view c) (s.inodes ip).inodeNo =
      (s.inodes ip).entry.setNumLinks n := by
    rw [entryAt, h1.self, ofBlock_intoBlock]
  refine ⟨h.file_step L hib hip hstep hent, ⟨fun jp hjp => ?_, fun no hno => ?_⟩,
    fun no hno _ => ?_, fun _ hl => absurd hl id⟩
  · rw [Fs.rc_setFile, Fs.inodeNo_setFile]
    exact hb.rc jp hjp
  · simp only [Fs.inodeNo_setFile] at hno
    exact hb.none no hno
  · rw [Fs.cache_setFile]
    obtain rfl | hn := eq_or_ne no ((s.inodes ip).inodeNo)
    · exact .of_entry L hib h hip (by simp) (by simp) (fun i _ => by simp) (by simp) h1
    · rw [hr.entry] at hstep
      exact (h.volume.other L hib hr.inode hstep hno hn).fileKept

theorem InodeCall.lived (ctx : Nat) (L : StoreLaws env.cache B) (hib : InodeBlocks B env.sb)
    (hnull : SyncsDirect env.cache B) (h : FsOk B env.sb s) (hb : Balanced s balance)
    (hok : call.Ok env.sb s) :
    Post (fun _ => Lived B env.sb s balance call) (fun _ => B.stops) ((call.run env ctx).exec s) := by
  cases call with
  | get no =>
    obtain ⟨ip, s', hexec, hl⟩ := lived_get L hib hnull h hb hok
    rw [run, exec_bind_ok hexec]
    exact hl
  | share ip => exact lived_share h hb hok.1
  | put ip => exact lived_put ctx L hib h hb hok.1
  | setNumLinks ip n => exact lived_setNumLinks ctx n L hib h hb hok.1 hok.2

theorem InodeRun.step_eq_ok {st st' : InodeRun κ} (h : step env ctx st call = .ok st') :
    (call.run env ctx).exec st.fs = (.ok (), st'.fs) ∧
      st'.balance = call.count st.fs st.balance := by
  rw [step] at h
  rcases hx : (call.run env ctx).exec st.fs with ⟨_ | _, s1⟩
  · rw [hx] at h
    cases h
  · rw [hx] at h
    cases h
    exact ⟨rfl, rfl⟩

theorem InodeRun.of_reach (L : StoreLaws env.cache B) (hib : InodeBlocks B env.sb)
    (hnull : SyncsDirect env.cache B) {st : InodeRun κ}
    (h : Runs.Reach (step env ctx) (fun st call => call.Ok env.sb st.fs) (Init B env.sb) st) :
    FsOk B env.sb st.fs ∧ Balanced st.fs st.balance := by
  refine h.invariant (I := fun st => FsOk B env.sb st.fs ∧ Balanced st.fs st.balance) ?_ ?_
  · rintro st ⟨hfs, hhead, hbal⟩
    refine ⟨hfs, fun ip hip => ?_, fun no _ => by rw [hbal]⟩
    rw [hhead] at hip
    cases hip
  rintro st call st' ⟨hfs, hbal⟩ hok hstep
  obtain ⟨hexec, hcount⟩ := step_eq_ok hstep
  have hl := call.lived ctx L hib hnull hfs hbal hok
  rw [hexec] at hl
  exact ⟨hl.ok, hcount ▸ hl.balanced⟩

/-- The life of an inode, on every block store on which a `sync` without a context returns.  After
every run there is at most one in-memory inode for each inode number, and its count is the number of
its gets and shares less that of its puts.  The next call returns, unless the store stops it: the put
of the last reference to an inode without links makes its entry invalid and frees all its blocks, and
in every other case type, size, blocks and contents of the inode stay. -/
theorem inode_lifetime (ctx : Nat) (L : StoreLaws env.cache B) (hib : InodeBlocks B env.sb)
    (hnull : SyncsDirect env.cache B) {st : InodeRun κ}
    (h : Runs.Reach (InodeRun.step env ctx) (fun st call => call.Ok env.sb st.fs)
      (InodeRun.Init B env.sb) st) :
    (st.fs.inodeHead.map fun ip => (st.fs.inodes ip).inodeNo).Nodup ∧
      (∀ ip ∈ st.fs.inodeHead, (st.fs.inodes ip).rc = st.balance (st.fs.inodes ip).inodeNo) ∧
      (∀ no, (∀ ip ∈ st.fs.inodeHead, (st.fs.inodes ip).inodeNo ≠ no) → st.balance no = 0) ∧
      ∀ call : InodeCall, call.Ok env.sb st.fs →
        Post (fun _ s' =>
            (∀ no, call.Last st.fs no → InodeFreed B env.sb no st.fs.cache s'.cache) ∧
            ∀ no, env.sb.HasInode no → ¬ call.Last st.fs no →
              FileKept B env.sb no st.fs.cache s'.cache)
          (fun _ => B.stops) ((call.run env ctx).exec st.fs) := by
  obtain ⟨hfs, hbal⟩ := InodeRun.of_reach L hib hnull h
  refine ⟨hfs.distinct, hbal.rc, hbal.none, fun call hok => ?_⟩
  exact (call.lived ctx L hib hnull hfs hbal hok).imp (fun _ _ hl => ⟨hl.freed, hl.kept⟩) fun _ => id

end

/-! ## A file with blocks all over the disk -/

namespace Wide

/-- A disk with ten bitmap blocks. -/
def superBlock : SuperBlock where
  numBlocks := 40960
  numDataBlocks := 40884
  numInodes := 8
  numLogBlocks := 63
  logStart := 2
  inodeStart := 65
  bitmapStart := 66

theorem layout : superBlock.Layout := by
  have hbitmap : ∀ x, superBlock.IsBitmap x → 66 ≤ x ∧ x < 76 := by
    rintro x ⟨b, hb, rfl⟩
    have hb : b < 40960 := hb
    show 66 ≤ 66 + b / 4096 ∧ 66 + b / 4096 < 76
    omega
  have hinode : ∀ no < superBlock.numInodes, superBlock.toBlockNo no = 65 := by decide
  have hstart : superBlock.dataStart = 76 := rfl
  refine ⟨by decide, fun x hx => ?_, fun x hx ha => ?_, fun no hno => ?_⟩
  · rcases hx with ha | hb
    · have := area_lt rfl ha
      omega
    · have := hbitmap x hb
      omega
  · have := area_lt rfl ha
    have := hbitmap x hx
    omega
  · rw [hinode no hno]
    refine ⟨by decide, ?_⟩
    rintro (ha | hb)
    · exact absurd (area_lt rfl ha) (by decide)
    · exact absurd (hbitmap _ hb) (by decide)

/-- A regular file without links, with `k` blocks whose bits are in different bitmap blocks. -/
def file (k : Nat) : InodeEntry :=
  (List.range k).foldl (fun e i => e.setAddr i (100 + 4096 * i))
    (InodeEntry.setType Bytes.zero INODE_REGULAR)

/-- The file is inode 2; the first blocks of each bitmap block are in use. -/
def image (k : Nat) : Nat → Data := fun b =>
  if b = 65 then (file k).intoBlock Bytes.zero 2
  else if 66 ≤ b ∧ b < 76 then fun i => if i.val < 13 then 255 else 0
  else Bytes.zero

/-- An operation has begun, and no inode is in memory. -/
def start (k : Nat) : InodeRun Cache where
  fs := {
    cache := ((cacheBeginOp stackCtx).exec (rebooted superBlock (powerOn (image k)))).2
    inodes := fun _ => initInode
    inodeHead := []
    inodeBrk := 0
    cwd := 0
    junk := fun _ _ => 0
    loads := [] }
  balance := fun _ => 0

/-- The first 104 blocks of each bitmap block. -/
theorem bit_image (k : Nat) {b : Nat} (hlt : b < 40960) (hb : b % 4096 < 104) :
    (rebooted superBlock (powerOn (image k))).bit superBlock b = true := by
  have hblock : image k (66 + b / 4096) = fun i => if i.val < 13 then 255 else 0 := by
    rw [image, if_neg (by omega), if_pos (by omega)]
  have hbits : ∀ j < 104, Bitmap.bit (fun i => if i.val < 13 then 255 else 0) j = true := by
    decide +kernel
  show Bitmap.bit (image k (66 + b / 4096)) (b % 4096) = true
  rw [hblock]
  exact hbits _ hb

theorem start_init {k : Nat} (hk : k ≤ 10) (hrefs : ∀ no < 8, refs (image k)
      (entryAt superBlock (image k) no) = if no = 2 then (List.range k).map (100 + 4096 * ·) else []) :
    InodeRun.Init (kernelView superBlock) superBlock (start k) := by
  have hstart : superBlock.dataStart = 76 := rfl
  obtain ⟨hs, hidle⟩ := @settled_rebooted superBlock (image k)
    LogHeader.numBlocks_ofData_zero fun b hb => bit_image k (by omega) (by omega)
  have hmem : ∀ b ∈ (List.range k).map (100 + 4096 * ·), ∃ i < 10, b = 100 + 4096 * i := by
    intro b hb
    obtain ⟨i, hi, rfl⟩ := List.mem_map.mp hb
    exact ⟨i, Nat.lt_of_lt_of_le (List.mem_range.mp hi) hk, rfl⟩
  have hv : Volume (kernelView superBlock) superBlock (rebooted superBlock (powerOn (image k))) := by
    refine .of_owner hs (List.nodup_range.map fun i j hij => ?_) (fun b hb => .inr ?_) (fun b hb => ?_)
      fun no hno => hrefs no hno.2
    · have hij : 100 + 4096 * i = 100 + 4096 * j := hij
      omega
    · obtain ⟨i, hi, rfl⟩ := hmem b hb
      exact bit_image k (by omega) (by omega)
    · obtain ⟨i, hi, rfl⟩ := hmem b hb
      show ¬ (100 + 4096 * i < 76 ∨ 40960 ≤ 100 + 4096 * i)
      omega
  obtain ⟨c, hbegin, hsame, -⟩ := (kernelOps layout).beginOp hs hidle
  have hc : (start k).fs.cache = c := congrArg Prod.snd hbegin
  refine ⟨⟨?_, (fun _ h => nomatch h), List.nodup_nil, fun _ h => nomatch h⟩, rfl, rfl⟩
  rw [hc]
  exact hv.same (kernelLaws layout) (kernelBlocks layout) hsame

/-- The only reference to the inode is put back after these calls. -/
def calls : List InodeCall := [.get 2, .share 0, .setNumLinks 0 1, .put 0, .setNumLinks 0 0]

/-- The file has nine blocks.  One of two references is put back; the next put frees the inode. -/
theorem inode_lifetime_nine :
    ∃ st s', Runs.Reach (InodeRun.step (.kernel superBlock) stackCtx)
        (fun st call => call.Ok superBlock st.fs) (InodeRun.Init (kernelView superBlock) superBlock) st ∧
      st.balance 2 = 1 ∧ (entryAt superBlock st.fs.cache.contents 2).type = INODE_REGULAR ∧
      (inodePut (.kernel superBlock) (some stackCtx) 0).exec st.fs = (.ok (), s') ∧
      (entryAt superBlock s'.cache.contents 2).type = INODE_INVALID ∧
      s'.cache.bit superBlock (100 + 4096 * 8) = false := by
  obtain ⟨st, hst, htest⟩ := Runs.Reach.of_guardedTest
    (start_init (k := 9) (by decide) (by decide +kernel))
    (show Runs.execTest (Runs.guarded (InodeRun.step (.kernel superBlock) stackCtx)
        (fun st call => decide (call.Ok superBlock st.fs)) .panic) (start 9) calls
      (fun st => st.balance 2 = 1 ∧ (InodeCall.put 0).Ok superBlock st.fs ∧
        (st.fs.inodes 0).inodeNo = 2 ∧ (st.fs.inodes 0).rc = 1 ∧
        (st.fs.inodes 0).entry.numLinks = 0 ∧
        (entryAt superBlock st.fs.cache.contents 2).type = INODE_REGULAR ∧
        100 + 4096 * 8 ∈ refs st.fs.cache.contents (entryAt superBlock st.fs.cache.contents 2) ∧
        ((inodePut (.kernel superBlock) (some stackCtx) 0).exec st.fs).1 = .ok ()) = true by
      decide +kernel)
  obtain ⟨hbal, hok, hno, hrc, hlinks, htype, hmem, hret⟩ := of_decide_eq_true htest
  obtain ⟨-, -, -, hcalls⟩ := inode_lifetime stackCtx (kernelLaws layout) (kernelBlocks layout)
    (kernel_syncsDirect superBlock) hst
  have hexec : (inodePut (.kernel superBlock) (some stackCtx) 0).exec st.fs = (.ok (), _) :=
    Prod.ext hret rfl
  have hpost := hcalls (.put 0) hok
  rw [InodeCall.run, hexec] at hpost
  have hf := hpost.1 2 ⟨hno, hrc, hlinks⟩
  refine ⟨st, _, hst, hbal, htype, hexec, hf.type, ?_⟩
  exact Bool.eq_false_iff.mpr fun hu => hf.freed _ hmem (.inr hu)

/-- With a block in every bitmap block the last put does not return: it would pass eleven blocks to
`cache_sync`. -/
theorem put_of_ten_panics :
    ∃ st s', Runs.Reach (InodeRun.step (.kernel superBlock) stackCtx)
        (fun st call => call.Ok superBlock st.fs) (InodeRun.Init (kernelView superBlock) superBlock) st ∧
      (InodeCall.put 0).Ok superBlock st.fs ∧ (InodeCall.put 0).Last st.fs 2 ∧
      (inodePut (.kernel superBlock) (some stackCtx) 0).exec st.fs = (.error .panic, s') := by
  obtain ⟨st, hst, htest⟩ := Runs.Reach.of_guardedTest
    (start_init (k := 10) (by decide) (by decide +kernel))
    (show Runs.execTest (Runs.guarded (InodeRun.step (.kernel superBlock) stackCtx)
        (fun st call => decide (call.Ok superBlock st.fs)) .panic) (start 10) [.get 2]
      (fun st => (InodeCall.put 0).Ok superBlock st.fs ∧ (st.fs.inodes 0).inodeNo = 2 ∧
        (st.fs.inodes 0).rc = 1 ∧ (st.fs.inodes 0).entry.numLinks = 0 ∧
        ((inodePut (.kernel superBlock) (some stackCtx) 0).exec st.fs).1 = .error .panic) = true by
      decide +kernel)
  obtain ⟨hok, hno, hrc, hlinks, hpanic⟩ := of_decide_eq_true htest
  exact ⟨st, _, hst, hok, ⟨hno, hrc, hlinks⟩, Prod.ext hpanic rfl⟩

end Wide

end OsKernel
