import Mathlib.Data.List.Find
import OsKernel.Fs.FileArray

/-!
# Directories are finite maps

A directory is a file of entries of sixteen bytes.  Entry `k` is *live* if its inode number
is not `0`; a removed entry keeps its name.  As long as no two live entries have the same name
(`UniqueNames`) a directory is a finite map from names to inode numbers (`dirMap`), and
`inode_lookup`, `inode_insert` and `inode_remove` are the operations of that map:

* a lookup compares the name with `strncmp` and returns the only live entry with it,
* an insert of a name that is there changes nothing, and one of a new name appends an entry,
* a remove of the entry that a lookup has found writes the entry back with inode number `0`.
-/

namespace OsKernel

open Prog Function List Bytes DirEntry

variable {k no : Nat}

abbrev FileName := { name : List UInt8 //
  0 < name.length ∧ name.length < FILE_NAME_MAX_LENGTH ∧ ∀ c ∈ name, c ≠ 0 }

def FileName.str (name : FileName) : Nat → UInt8 := cstr name.1

namespace DirEntry

/-- The entry is live and its name is `name`. -/
def Binds (d : DirEntry) (name : FileName) : Prop :=
  d.inodeNo ≠ 0 ∧ ∀ j ≤ name.1.length, d.name j = name.1.getD j 0

instance (d : DirEntry) (name : FileName) : Decidable (d.Binds name) :=
  inferInstanceAs (Decidable (_ ∧ ∀ j ≤ name.1.length, _))

/-- The entry is live and `strncmp` does not tell its name from the one in the buffer. -/
def Matches (d : DirEntry) (nm : Nat → UInt8) : Prop :=
  d.inodeNo ≠ 0 ∧ strncmp nm d.name FILE_NAME_MAX_LENGTH = 0

instance (d : DirEntry) (nm : Nat → UInt8) : Decidable (d.Matches nm) :=
  inferInstanceAs (Decidable (_ ∧ _))

theorem matches_str (d : DirEntry) (name : FileName) : d.Matches name.str ↔ d.Binds name := by
  rw [Binds, Matches, FileName.str, strncmp_cstr_eq_zero name.2.2.1 name.2.2.2]

theorem Binds.unique {d : DirEntry} {name name' : FileName} (h : d.Binds name)
    (h' : d.Binds name') : name = name' := by
  have hlt : ∀ {m m' : FileName}, d.Binds m → d.Binds m' → ¬ m.1.length < m'.1.length := by
    intro m m' hm hm' hlt
    have h1 := hm.2 m.1.length (Nat.le_refl _)
    have h2 := hm'.2 m.1.length (Nat.le_of_lt hlt)
    rw [getD_eq_default _ _ (Nat.le_refl _)] at h1
    rw [getD_eq_getElem _ _ hlt] at h2
    exact m'.2.2.2 _ (getElem_mem hlt) (h2.symm.trans h1)
  have hlen := Nat.le_antisymm (Nat.le_of_not_lt (hlt h' h)) (Nat.le_of_not_lt (hlt h h'))
  refine Subtype.ext (ext_getElem hlen fun j hj hj' => ?_)
  have h1 := h.2 j (Nat.le_of_lt hj)
  have h2 := h'.2 j (Nat.le_of_lt hj')
  rw [getD_eq_getElem _ _ hj] at h1
  rw [getD_eq_getElem _ _ hj'] at h2
  exact h1.symm.trans h2

/-- The inode number is stored in sixteen bits. -/
theorem inodeNo_new (name : Nat → UInt8) (no : Nat) :
    (DirEntry.new name no).inodeNo = no % 65536 := by
  have hbytes : ∀ k < 2, (new name no).get k = (writeLE zero 0 2 no : DirEntry).get k :=
    fun k hk => by
      rw [new, get_splice_of_not_mem _ _ (by omega),
        get_splice_of_not_mem _ _ (by omega)]
  rw [inodeNo, readLE_congr fun k _ hk => hbytes k (by omega),
    readLE_writeLE_self _ _ (by decide)]
  rfl

/-- The name of a new entry, whose last byte is always `NUL`. -/
theorem name_new (nm : Nat → UInt8) {j : Nat} (hj : j < FILE_NAME_MAX_LENGTH) :
    (DirEntry.new nm no).name j = if j = 13 then 0 else strncpy nm j := by
  have hj : j < 14 := hj
  have hlt : 2 + j < DIR_ENTRY_BYTES := by
    show 2 + j < 16
    omega
  rw [DirEntry.name, DirEntry.new]
  split
  next hj' => rw [get_splice_of_mem _ _ hlt (by omega) (by omega)]
  next hj' =>
    rw [get_splice_of_not_mem _ _ (by omega),
      get_splice_of_mem _ _ hlt (by omega) (by simp only [FILE_NAME_MAX_LENGTH]; omega),
      Nat.add_sub_cancel_left]

theorem binds_new (name : FileName) (h0 : 0 < no) (h : no < 65536) :
    (DirEntry.new name.str no).Binds name := by
  refine ⟨by rw [inodeNo_new]; omega, fun j hj => ?_⟩
  have hlen : name.1.length < 14 := name.2.2.1
  rw [name_new _ (Nat.lt_of_le_of_lt hj name.2.2.1)]
  split
  next hj' => rw [getD_eq_default _ _ (by omega)]
  next => rw [FileName.str, strncpy_cstr name.2.2.2]

end DirEntry

/-! ## The map of a directory -/

/-- Entry `k` of a directory. -/
def dirEntry (v : Nat → Data) (e : InodeEntry) (k : Nat) : DirEntry := fun i =>
  byteAt v e (DIR_ENTRY_BYTES * k + i)

def dirSize (e : InodeEntry) : Nat := e.numBytes / DIR_ENTRY_BYTES

/-- The index of the first live entry with a name. -/
def dirFind (v : Nat → Data) (e : InodeEntry) (name : FileName) : Option Nat :=
  (List.range (dirSize e)).find? fun k => (dirEntry v e k).Binds name

/-- The index of the first entry that `inode_lookup` takes for the name in a buffer. -/
def dirSearch (v : Nat → Data) (e : InodeEntry) (nm : Nat → UInt8) : Option Nat :=
  (List.range (dirSize e)).find? fun k => (dirEntry v e k).Matches nm

/-- The inode number of the first live entry with a name. -/
def dirMap (v : Nat → Data) (e : InodeEntry) (name : FileName) : Option Nat :=
  (dirFind v e name).map fun k => (dirEntry v e k).inodeNo

def UniqueNames (v : Nat → Data) (e : InodeEntry) : Prop :=
  ∀ name, ∀ k < dirSize e, ∀ k' < dirSize e,
    (dirEntry v e k).Binds name → (dirEntry v e k').Binds name → k = k'

section

variable {v v' : Nat → Data} {e e' : InodeEntry} {name : FileName} {k : Nat}

theorem dirFind_eq_some (h : dirFind v e name = some k) :
    k < dirSize e ∧ (dirEntry v e k).Binds name :=
  ⟨mem_range.mp (mem_of_find?_eq_some h), by simpa using List.find?_some h⟩

theorem dirFind_eq_none :
    dirFind v e name = none ↔ ∀ k < dirSize e, ¬ (dirEntry v e k).Binds name := by
  simp [dirFind]

theorem dirSearch_str : dirSearch v e name.str = dirFind v e name := by
  simp only [dirSearch, dirFind, matches_str]

theorem dirSearch_eq_some {nm : Nat → UInt8} (h : dirSearch v e nm = some k) : k < dirSize e :=
  mem_range.mp (mem_of_find?_eq_some h)

theorem dirFind_of_binds (hu : UniqueNames v e) (hk : k < dirSize e)
    (hb : (dirEntry v e k).Binds name) : dirFind v e name = some k := by
  cases hf : dirFind v e name with
  | none => exact absurd hb (dirFind_eq_none.mp hf k hk)
  | some k' =>
    obtain ⟨hk', hb'⟩ := dirFind_eq_some hf
    rw [hu name k' hk' k hk hb' hb]

theorem dirMap_eq_some (hu : UniqueNames v e) : dirMap v e name = some no ↔
      ∃ k < dirSize e, (dirEntry v e k).Binds name ∧ (dirEntry v e k).inodeNo = no := by
  rw [dirMap, Option.map_eq_some_iff]
  constructor
  · rintro ⟨k, hf, hno⟩
    obtain ⟨hk, hb⟩ := dirFind_eq_some hf
    exact ⟨k, hk, hb, hno⟩
  · rintro ⟨k, hk, hb, hno⟩
    exact ⟨k, dirFind_of_binds hu hk hb, hno⟩

theorem dirMap_eq_none :
    dirMap v e name = none ↔ ∀ k < dirSize e, ¬ (dirEntry v e k).Binds name := by
  rw [dirMap, Option.map_eq_none_iff, dirFind_eq_none]

theorem dirMap_congr (hu : UniqueNames v e) (hu' : UniqueNames v' e') {name : FileName}
    (h : ∀ no, (∃ k < dirSize e, (dirEntry v e k).Binds name ∧ (dirEntry v e k).inodeNo = no) ↔
      ∃ k < dirSize e', (dirEntry v' e' k).Binds name ∧ (dirEntry v' e' k).inodeNo = no) :
    dirMap v' e' name = dirMap v e name := by
  refine Option.ext fun no => ?_
  rw [dirMap_eq_some hu, dirMap_eq_some hu', h]

theorem dirMap_append (hu : UniqueNames v e) (hsize : dirSize e' = dirSize e + 1)
    (hold : ∀ k < dirSize e, dirEntry v' e' k = dirEntry v e k)
    (hnew : (dirEntry v' e' (dirSize e)).Binds name)
    (hno : (dirEntry v' e' (dirSize e)).inodeNo = no) (hnone : dirMap v e name = none) :
    UniqueNames v' e' ∧ dirMap v' e' = update (dirMap v e) name (some no) := by
  have hcase : ∀ {k}, k < dirSize e' → k < dirSize e ∨ k = dirSize e := fun hk => by omega
  have hnone := dirMap_eq_none.mp hnone
  have hne : ∀ {k name'}, k < dirSize e → (dirEntry v e k).Binds name' →
      ¬ (dirEntry v' e' (dirSize e)).Binds name' := fun {k name'} hk hb hb' => by
    obtain rfl := hnew.unique hb'
    exact hnone k hk hb
  have hu' : UniqueNames v' e' := by
    intro name' k hk k' hk' hb hb'
    rcases hcase hk with hk | rfl <;> rcases hcase hk' with hk' | rfl
    · rw [hold k hk] at hb
      rw [hold k' hk'] at hb'
      exact hu name' k hk k' hk' hb hb'
    · rw [hold k hk] at hb
      exact absurd hb' (hne hk hb)
    · rw [hold k' hk'] at hb'
      exact absurd hb (hne hk' hb')
    · rfl
  refine ⟨hu', funext fun name' => ?_⟩
  obtain rfl | hn := eq_or_ne name' name
  · rw [update_self, dirMap_eq_some hu']
    exact ⟨dirSize e, by omega, hnew, hno⟩
  rw [update_of_ne hn]
  refine dirMap_congr hu hu' fun no' => ⟨?_, ?_⟩
  · rintro ⟨k, hk, hb⟩
    exact ⟨k, by omega, by rwa [hold k hk]⟩
  · rintro ⟨k, hk, hb, hno'⟩
    rcases hcase hk with hk | rfl
    · rw [hold k hk] at hb hno'
      exact ⟨k, hk, hb, hno'⟩
    · exact absurd (hnew.unique hb).symm hn

theorem dirMap_erase (hu : UniqueNames v e) (hsize : dirSize e' = dirSize e) (hk : k < dirSize e)
    (hb : (dirEntry v e k).Binds name) (hdead : (dirEntry v' e' k).inodeNo = 0)
    (hold : ∀ j < dirSize e, j ≠ k → dirEntry v' e' j = dirEntry v e j) :
    UniqueNames v' e' ∧ dirMap v' e' = update (dirMap v e) name none := by
  have hback : ∀ {j name'}, j < dirSize e' → (dirEntry v' e' j).Binds name' →
      j ≠ k ∧ j < dirSize e ∧ (dirEntry v e j).Binds name' := fun {j name'} hj hbj => by
    have hne : j ≠ k := by
      rintro rfl
      exact hbj.1 hdead
    rw [hsize] at hj
    exact ⟨hne, hj, hold j hj hne ▸ hbj⟩
  have hu' : UniqueNames v' e' := by
    intro name' j hj j' hj' hbj hbj'
    obtain ⟨-, hj, hbj⟩ := hback hj hbj
    obtain ⟨-, hj', hbj'⟩ := hback hj' hbj'
    exact hu name' j hj j' hj' hbj hbj'
  refine ⟨hu', funext fun name' => ?_⟩
  obtain rfl | hn := eq_or_ne name' name
  · rw [update_self, dirMap_eq_none]
    intro j hj hbj
    obtain ⟨hne, hj, hbj⟩ := hback hj hbj
    exact hne (hu name' j hj k hk hbj hb)
  rw [update_of_ne hn]
  refine dirMap_congr hu hu' fun no' => ⟨?_, ?_⟩
  · rintro ⟨j, hj, hbj, hno⟩
    have hne : j ≠ k := by
      rintro rfl
      exact hn (hbj.unique hb)
    rw [← hold j hj hne] at hbj hno
    exact ⟨j, hsize ▸ hj, hbj, hno⟩
  · rintro ⟨j, hj, hbj, hno⟩
    obtain ⟨hne, hj', hbj'⟩ := hback hj hbj
    exact ⟨j, hj', hbj', hold j hj' hne ▸ hno⟩

end

/-! ## The calls -/

section

variable {κ : Type} {env : FsEnv κ} {B : StoreView κ} {s : Fs κ} {ip : Nat} {c c' : κ}
  {e e' : InodeEntry} {P : Prop} {name : FileName}

/-- The entry is that of a directory without holes, of whole entries. -/
structure DirFile (B : StoreView κ) (c : κ) (e : InodeEntry) : Prop where
  settled : B.Settled c
  file : FileOk B c e
  type : e.type = INODE_DIRECTORY
  size : e.numBytes = DIR_ENTRY_BYTES * dirSize e
  fits : e.numBytes ≤ INODE_MAX_BYTES
  full : Full (B.view c) e e.numBytes

theorem DirFile.not_device (h : DirFile B c e) : e.type ≠ INODE_DEVICE := by
  rw [h.type]
  decide

theorem DirFile.byte_lt (h : DirFile B c e) {i : Nat} (hk : k < dirSize e)
    (hi : i < DIR_ENTRY_BYTES) : DIR_ENTRY_BYTES * k + i < e.numBytes := by
  have := h.size
  simp only [DIR_ENTRY_BYTES] at *
  omega

section

variable (L : StoreLaws env.cache B) (h : DirFile B c e) (hs : B.Same c c')

include L h hs

theorem DirFile.dirEntry_same (hk : k < dirSize e) : dirEntry (B.view c') e k = dirEntry (B.view c) e k :=
  funext fun i => byteAt_same L h.file hs h.full (h.byte_lt hk i.isLt) h.fits

theorem DirFile.same : DirFile B c' e :=
  { h with
    settled := hs.settled
    file := h.file.of_same L hs
    full := h.full.of_same L h.file hs }

end

theorem dirFind_congr {v v' : Nat → Data}
    (h : ∀ k < dirSize e, dirEntry v' e k = dirEntry v e k) (name : FileName) :
    dirFind v' e name = dirFind v e name :=
  List.find?_congr fun k hk => by rw [h k (mem_range.mp hk)]

theorem post_uninit {β : Type} {f : (Nat → UInt8) → FsM κ β} {R : β → Fs κ → Prop}
    (h : ∀ d j, Post R (fun _ => P) ((f d).exec { s with junk := j })) :
    Post R (fun _ => P) ((uninit >>= f).exec s) := h _ _

/-- The state after a call that only reads a file, apart from the uninitialised variables. -/
def LookedAt (B : StoreView κ) (s : Fs κ) (ip : Nat) (c : κ) (e : InodeEntry) (s' : Fs κ) : Prop :=
  ∃ j c', s' = { s with junk := j }.setFile ip c' e ∧ B.Same c c'

theorem post_lookupFrom (L : StoreLaws env.cache B) (h : DirFile B c e) (nm : Nat → UInt8)
    {ks : List Nat} : ∀ {s : Fs κ} {c' : κ}, B.Same c c' → (∀ k ∈ ks, k < dirSize e) →
    Post (fun r s' => r = (ks.find? fun k => (dirEntry (B.view c) e k).Matches nm).map
          (fun k => ((dirEntry (B.view c) e k).inodeNo, DIR_ENTRY_BYTES * k)) ∧
        LookedAt B s ip c e s') (fun _ => P)
      ((lookupFrom env ip nm (ks.map (DIR_ENTRY_BYTES * ·))).exec (s.setFile ip c' e)) := by
  induction ks with
  | nil => exact fun {s c'} hsame _ => ⟨rfl, s.junk, c', rfl, hsame⟩
  | cons k ks ih =>
    intro s c' hsame hks
    have hk := hks k mem_cons_self
    have hsize := h.size
    have h' := h.same L hsame
    refine post_uninit fun d j => ?_
    have hn : min DIR_ENTRY_BYTES (e.numBytes - DIR_ENTRY_BYTES * k) = DIR_ENTRY_BYTES := by
      simp only [DIR_ENTRY_BYTES] at *
      omega
    refine (post_inodeRead (s := { s with junk := j }) L hsame.settled h'.file h'.not_device
      h'.full h'.fits (by simp only [DIR_ENTRY_BYTES] at *; omega) ?_).bind ?_
    · refine Nat.lt_of_le_of_lt (Nat.le_trans ?_ h.fits) (by decide)
      simp only [DIR_ENTRY_BYTES] at *
      omega
    rintro ⟨dest, n⟩ _ ⟨-, hdest, c1, rfl, h1⟩
    rw [hn] at hdest
    have hde : (fun i : Fin DIR_ENTRY_BYTES => dest i) = dirEntry (B.view c) e k := by
      rw [← h.dirEntry_same L hsame hk]
      exact funext fun i => (hdest i).trans (if_pos i.isLt)
    dsimp only
    rw [hde]
    by_cases hb : (dirEntry (B.view c) e k).Matches nm
    · rw [List.find?_cons_of_pos (by simpa using hb), if_pos (by exact hb)]
      exact ⟨rfl, j, c1, rfl, hsame.trans h1⟩
    rw [List.find?_cons_of_neg (by simpa using hb), if_neg (by exact hb)]
    refine (ih (hsame.trans h1) fun k' hk' => hks k' (mem_cons_of_mem _ hk')).imp ?_
      fun _ hp => hp
    rintro r s' ⟨hr, j', c2, rfl, h2⟩
    exact ⟨hr, j', c2, rfl, h2⟩

/-- A lookup of what a buffer has, with or without a `NUL`. -/
theorem post_inodeLookup_buf (L : StoreLaws env.cache B) (h : DirFile B c e) (nm : Nat → UInt8) :
    Post (fun r s' => r = (dirSearch (B.view c) e nm).map
          (fun k => ((dirEntry (B.view c) e k).inodeNo, DIR_ENTRY_BYTES * k)) ∧
        LookedAt B s ip c e s') (fun _ => P)
      ((inodeLookup env ip nm).exec (s.setFile ip c e)) := by
  have hn : (e.numBytes + (DIR_ENTRY_BYTES - 1)) / DIR_ENTRY_BYTES = dirSize e := by
    have := h.size
    simp only [DIR_ENTRY_BYTES] at *
    omega
  unfold inodeLookup
  refine post_getInode ?_
  rw [Fs.inodes_setFile]
  refine post_assert h.type ?_
  rw [hn]
  exact post_lookupFrom L h nm (.refl h.settled) fun k hk => mem_range.mp hk

theorem post_inodeLookup (L : StoreLaws env.cache B) (h : DirFile B c e) (name : FileName) :
    Post (fun r s' => r = (dirFind (B.view c) e name).map
          (fun k => ((dirEntry (B.view c) e k).inodeNo, DIR_ENTRY_BYTES * k)) ∧
        LookedAt B s ip c e s') (fun _ => P)
      ((inodeLookup env ip name.str).exec (s.setFile ip c e)) := by
  rw [← dirSearch_str]
  exact post_inodeLookup_buf L h name.str

/-! Sixteen bytes are written at an entry, or after the last one. -/

section

variable {sb : SuperBlock} {no k : Nat} {src : Nat → UInt8}

section

variable (h : DirFile B c e) (hk : k ≤ dirSize e)

include h hk

theorem dirSize_written
    (hw : FileWritten B sb no c e (DIR_ENTRY_BYTES * k) DIR_ENTRY_BYTES src c' e') :
    e'.numBytes = DIR_ENTRY_BYTES * max (dirSize e) (k + 1) ∧
      dirSize e' = max (dirSize e) (k + 1) := by
  have hsize := h.size
  have hnum := hw.numBytes
  simp only [dirSize, DIR_ENTRY_BYTES] at *
  omega

theorem DirFile.written (hmax : DIR_ENTRY_BYTES * k + DIR_ENTRY_BYTES ≤ INODE_MAX_BYTES)
    (hw : FileWritten B sb no c e (DIR_ENTRY_BYTES * k) DIR_ENTRY_BYTES src c' e') :
    DirFile B c' e' where
  settled := hw.settled
  file := hw.file
  type := hw.type.trans h.type
  size := by rw [(dirSize_written h hk hw).2, (dirSize_written h hk hw).1]
  fits := hw.numBytes ▸ Nat.max_le.mpr ⟨h.fits, hmax⟩
  full := hw.full

theorem dirEntry_written
    (hw : FileWritten B sb no c e (DIR_ENTRY_BYTES * k) DIR_ENTRY_BYTES src c' e') {j : Nat}
    (hj : j < dirSize e') : dirEntry (B.view c') e' j =
      if j = k then (fun i => src i : DirEntry) else dirEntry (B.view c) e j := by
  obtain ⟨hnum, hsize⟩ := dirSize_written h hk hw
  funext i
  have hi : i.val < 16 := i.isLt
  have hlt : DIR_ENTRY_BYTES * j + i < e'.numBytes := by
    simp only [DIR_ENTRY_BYTES] at *
    omega
  rw [dirEntry, hw.bytes _ hlt]
  obtain rfl | hjk := eq_or_ne j k
  · rw [if_pos rfl, if_pos ⟨Nat.le_add_right _ _, Nat.add_lt_add_left i.isLt _⟩,
      Nat.add_sub_cancel_left]
  · rw [if_neg hjk, if_neg (by simp only [DIR_ENTRY_BYTES]; omega)]
    rfl

end

end

theorem post_inodeInsert_found (L : StoreLaws env.cache B) (h : DirFile B c e) {ctx : Nat}
    {nm : Nat → UInt8} (hfind : dirSearch (B.view c) e nm = some k) :
    Post (fun r s' => r = DIR_ENTRY_BYTES * k ∧ LookedAt B s ip c e s') (fun _ => P)
      ((inodeInsert env (some ctx) ip nm no).exec (s.setFile ip c e)) := by
  unfold inodeInsert
  refine post_getInode ?_
  rw [Fs.inodes_setFile]
  refine post_assert h.type ((post_inodeLookup_buf L h nm).bind ?_)
  rintro _ s' ⟨rfl, hs'⟩
  rw [hfind]
  exact ⟨rfl, hs'⟩

section

variable (L : StoreLaws env.cache B) (hib : InodeBlocks B env.sb) (hP : B.stops ∨ B.Scarce c e → P)
  (h : DirFile B c e) (hno : (s.inodes ip).inodeNo < env.sb.numInodes)

include L hib hP h hno

theorem post_inodeInsert_new {ctx : Nat} {nm : Nat → UInt8}
    (hmax : e.numBytes + DIR_ENTRY_BYTES ≤ INODE_MAX_BYTES)
    (hfind : dirSearch (B.view c) e nm = none) :
    Post (fun r s' => r = dirSize e ∧ ∃ j c' e', s' = { s with junk := j }.setFile ip c' e' ∧
        FileWritten B env.sb (s.inodes ip).inodeNo c e (DIR_ENTRY_BYTES * dirSize e)
          DIR_ENTRY_BYTES (DirEntry.new nm no).get c' e') (fun _ => P)
      ((inodeInsert env (some ctx) ip nm no).exec (s.setFile ip c e)) := by
  unfold inodeInsert
  refine post_getInode ?_
  rw [Fs.inodes_setFile]
  refine post_assert h.type ((post_inodeLookup_buf L h nm).bind ?_)
  rintro _ _ ⟨rfl, j, c1, rfl, h1⟩
  rw [hfind]
  have hd := h.same L h1
  have hroom : B.room c1 + (refs (B.view c1) e).length = B.room c + (refs (B.view c) e).length :=
    (FileStep.of_same L hib h.settled.ok h.file h1 : FileStep B env.sb 0 c e c1 e).room
  refine post_getInode ?_
  rw [Fs.inodes_setFile]
  dsimp only [Option.map_none]
  have hoff : e.numBytes / DIR_ENTRY_BYTES * DIR_ENTRY_BYTES = e.numBytes := by
    rw [Nat.mul_comm]
    exact h.size.symm
  have hidx := div_lt_maxBlocks (j := e.numBytes) (by simp only [DIR_ENTRY_BYTES] at hmax; omega)
  rw [hoff]
  refine (post_inodeMap (s := { s with junk := j }) L hib
    (fun hst => hP (hst.imp_right hroom.symm.trans_lt)) hd.settled hd.file hno
    hidx).bind ?_
  rintro b _ ⟨c2, e2, rfl, hm⟩
  refine post_assert hm.ne_zero ?_
  have hb0 : fileBlock (B.view c2) e2 (e.numBytes / BLOCK_SIZE) ≠ 0 := hm.self ▸ hm.ne_zero
  have hbmem : b ∈ refs (B.view c2) e2 := hm.self ▸ fileBlock_mem_refs hidx hb0
  have hb64 : b < 2 ^ 64 := hm.self ▸ Nat.lt_trans (fileBlock_lt _ _ _) (by decide)
  refine post_updateBlock L (fun hst => hP (.inl hst)) hm.settled hb64 (hm.file.own L hbmem)
    fun c3 h3 => ?_
  -- an entry does not cross the end of a block
  have hblk : DIR_ENTRY_BYTES ≤ BLOCK_SIZE - e.numBytes % BLOCK_SIZE := by
    simp only [DIR_ENTRY_BYTES, BLOCK_SIZE] at *
    omega
  have hw := Written.of_mapped L hib hno hd.settled.ok hd.file (Nat.le_refl _) (by decide) hblk
    (by omega) hd.full hm h3
  refine post_setEntry (post_inodeSync L hib (fun hst => hP (.inl hst)) hw.settled hno
    fun c4 h4 => ?_)
  rw [hm.attrs.numBytes] at h4 ⊢
  refine ⟨rfl, j, c4, _, rfl, .of_same L hib hno h.settled.ok h.file h.full h.fits
    (Nat.le_of_eq h.size.symm) h1 ?_⟩
  rw [← h.size]
  exact hw.resize L hib hno (Nat.lt_add_of_pos_right (by decide)) hmax h4

theorem post_inodeRemove {ctx : Nat} (hk : k < dirSize e) :
    Post (fun _ s' => ∃ src j c' e', s' = { s with junk := j }.setFile ip c' e' ∧
        src 0 = 0 ∧ src 1 = 0 ∧ FileWritten B env.sb (s.inodes ip).inodeNo c e
          (DIR_ENTRY_BYTES * k) DIR_ENTRY_BYTES src c' e') (fun _ => P)
      ((inodeRemove env (some ctx) ip (DIR_ENTRY_BYTES * k)).exec (s.setFile ip c e)) := by
  have hsize := h.size
  have hend : DIR_ENTRY_BYTES * k + DIR_ENTRY_BYTES ≤ e.numBytes := by
    simp only [DIR_ENTRY_BYTES] at *
    omega
  have hoff := Nat.le_trans (Nat.le_add_right _ _) hend
  unfold inodeRemove
  refine post_uninit fun d j => ?_
  refine (post_inodeRead (s := { s with junk := j }) L h.settled h.file h.not_device h.full h.fits
    hoff (Nat.lt_of_le_of_lt (Nat.le_trans hend h.fits) (by decide))).bind ?_
  rintro ⟨curr, n⟩ _ ⟨-, -, c1, rfl, h1⟩
  have hd := h.same L h1
  have hroom : B.room c1 + (refs (B.view c1) e).length = B.room c + (refs (B.view c) e).length :=
    (FileStep.of_same L hib h.settled.ok h.file h1 : FileStep B env.sb 0 c e c1 e).room
  refine (post_inodeWrite (s := { s with junk := j }) L hib
    (fun hst => hP (hst.imp_right hroom.symm.trans_lt)) hd.settled hd.file hno
    hd.not_device hd.full hd.fits hoff (Nat.le_trans hend h.fits)).bind ?_
  rintro _ _ ⟨-, c2, e2, rfl, h2⟩
  exact ⟨_, j, c2, e2, rfl, rfl, rfl,
    .of_same L hib hno h.settled.ok h.file h.full h.fits hoff h1 h2⟩

end

end

/-! ## Sequences of calls -/

/-- A finite map from names to inode numbers, and the number of entries it takes. -/
structure NameMap where
  bindings : FileName → Option Nat
  slots : Nat

/-- An insert, or a remove at the index that a lookup finds. -/
inductive DirOp where
  | insert (name : FileName) (no : Nat)
  | remove (name : FileName)

namespace DirOp

def apply (m : NameMap) : DirOp → NameMap
  | .insert name no =>
    match m.bindings name with
    | some _ => m
    | none => ⟨update m.bindings name (some no), m.slots + 1⟩
  | .remove name => { m with bindings := update m.bindings name none }

/-- The inode number fits a `u16` and is not `0`, and the entries fit a file. -/
def Fits (m : NameMap) : DirOp → Prop
  | .insert name no => 0 < no ∧ no < 65536 ∧
      (m.bindings name = none → DIR_ENTRY_BYTES * (m.slots + 1) ≤ INODE_MAX_BYTES)
  | .remove _ => True

instance (m : NameMap) : (op : DirOp) → Decidable (op.Fits m)
  | .insert _ _ => inferInstanceAs (Decidable (_ ∧ _ ∧ (_ → _)))
  | .remove _ => .isTrue trivial

def AllFit : NameMap → List DirOp → Prop
  | _, [] => True
  | m, op :: ops => op.Fits m ∧ AllFit (op.apply m) ops

instance decidableAllFit : (m : NameMap) → (ops : List DirOp) → Decidable (AllFit m ops)
  | _, [] => .isTrue trivial
  | m, op :: ops =>
    have := decidableAllFit (op.apply m) ops
    inferInstanceAs (Decidable (_ ∧ _))

/-- The call on the directory at `ip`. -/
def run {κ : Type} (env : FsEnv κ) (ctx ip : Nat) : DirOp → FsM κ Unit
  | .insert name no => do
    let _ ← inodeInsert env (some ctx) ip name.str no
    return ()
  | .remove name => do
    let found ← inodeLookup env ip name.str
    match found with
    | some (_, index) => inodeRemove env (some ctx) ip index
    | none => return ()

end DirOp

section

variable {κ : Type} {env : FsEnv κ} {B : StoreView κ} {s : Fs κ} {ip ctx : Nat} {c c' : κ}
  {e e' : InodeEntry} {m : NameMap} {name : FileName} {sb : SuperBlock} {no : Nat}

/-- The entry is that of a directory with the bindings of `m`, on a store with room for the
longest file. -/
structure DirIs (B : StoreView κ) (c : κ) (e : InodeEntry) (m : NameMap) : Prop
    extends DirFile B c e where
  unique : UniqueNames (B.view c) e
  bindings : dirMap (B.view c) e = m.bindings
  slots : dirSize e = m.slots
  room : MAX_BLOCKS + 1 ≤ B.room c + (refs (B.view c) e).length

theorem DirIs.stops (h : DirIs B c e m) (hst : B.stops ∨ B.Scarce c e) : B.stops :=
  hst.resolve_right (Nat.not_lt.mpr h.room)

theorem DirIs.same (L : StoreLaws env.cache B) (hib : InodeBlocks B env.sb) (h : DirIs B c e m)
    (hs : B.Same c c') : DirIs B c' e m := by
  have hde := fun k hk => h.toDirFile.dirEntry_same L hs (k := k) hk
  refine { h.toDirFile.same L hs with
    unique := fun name k hk k' hk' hb hb' => ?_
    bindings := ?_
    slots := h.slots
    room := ?_ }
  · rw [hde k hk] at hb
    rw [hde k' hk'] at hb'
    exact h.unique name k hk k' hk' hb hb'
  · rw [← h.bindings]
    funext name
    rw [dirMap, dirMap, dirFind_congr hde]
    refine Option.map_congr fun k hk => ?_
    rw [hde k (dirFind_eq_some hk).1]
  · rw [(FileStep.of_same L hib h.settled.ok h.file hs : FileStep B env.sb 0 c e c' e).room]
    exact h.room

theorem DirIs.inserted (h : DirIs B c e m) (hfit : (DirOp.insert name no).Fits m)
    {dirNo : Nat} (hnone : dirMap (B.view c) e name = none)
    (hw : FileWritten B sb dirNo c e (DIR_ENTRY_BYTES * dirSize e) DIR_ENTRY_BYTES
      (DirEntry.new name.str no).get c' e') :
    DirIs B c' e' ⟨update m.bindings name (some no), m.slots + 1⟩ := by
  obtain ⟨hno0, hno, hfits⟩ := hfit
  have hle := Nat.le_refl (dirSize e)
  have hsize : dirSize e' = dirSize e + 1 := by
    rw [(dirSize_written h.toDirFile hle hw).2]
    omega
  have hde := fun k (hk : k < dirSize e + 1) =>
    dirEntry_written h.toDirFile hle hw (j := k) (hsize ▸ hk)
  have hnew : dirEntry (B.view c') e' (dirSize e) = new name.str no := by
    rw [hde _ (Nat.lt_succ_self _), if_pos rfl]
    exact funext fun i => dif_pos i.isLt
  obtain ⟨hunique, hmap⟩ := dirMap_append h.unique hsize
    (fun k hk => by rw [hde k (Nat.lt_succ_of_lt hk), if_neg (Nat.ne_of_lt hk)])
    (hnew ▸ binds_new name hno0 hno)
    (by rw [hnew, inodeNo_new, Nat.mod_eq_of_lt hno]) hnone
  have hmax : DIR_ENTRY_BYTES * dirSize e + DIR_ENTRY_BYTES ≤ INODE_MAX_BYTES := by
    rw [h.bindings] at hnone
    rw [h.slots]
    exact hfits hnone
  exact { h.toDirFile.written hle hmax hw with
    unique := hunique
    bindings := by rw [hmap, h.bindings]
    slots := by rw [hsize, h.slots]
    room := hw.room ▸ h.room }

theorem DirIs.removed (h : DirIs B c e m) {dirNo : Nat} {src : Nat → UInt8}
    (hfind : dirFind (B.view c) e name = some k) (h0 : src 0 = 0) (h1 : src 1 = 0)
    (hw : FileWritten B sb dirNo c e (DIR_ENTRY_BYTES * k) DIR_ENTRY_BYTES src c' e') :
    DirIs B c' e' { m with bindings := update m.bindings name none } := by
  obtain ⟨hk, hb⟩ := dirFind_eq_some hfind
  have hle := Nat.le_of_lt hk
  have hsize : dirSize e' = dirSize e := by
    rw [(dirSize_written h.toDirFile hle hw).2]
    omega
  have hde := fun j (hj : j < dirSize e) =>
    dirEntry_written h.toDirFile hle hw (j := j) (hsize ▸ hj)
  have hdead : (dirEntry (B.view c') e' k).inodeNo = 0 := by
    rw [hde k hk, if_pos rfl, inodeNo]
    simp [Bytes.readLE, Bytes.get, h0, h1]
  obtain ⟨hunique, hmap⟩ := dirMap_erase h.unique hsize hk hb hdead
    fun j hj hne => by rw [hde j hj, if_neg hne]
  have hmax : DIR_ENTRY_BYTES * k + DIR_ENTRY_BYTES ≤ INODE_MAX_BYTES := by
    refine Nat.le_trans ?_ (h.size ▸ h.fits)
    simp only [DIR_ENTRY_BYTES]
    omega
  exact { h.toDirFile.written hle hmax hw with
    unique := hunique
    bindings := by rw [hmap, h.bindings]
    slots := by rw [hsize, h.slots]
    room := hw.room ▸ h.room }

namespace DirOp

/-- After a call that fits the directory has the bindings of the map after the call.  A call does
not return only if the store stops it. -/
theorem post_run (L : StoreLaws env.cache B) (hib : InodeBlocks B env.sb)
    (hno : (s.inodes ip).inodeNo < env.sb.numInodes) (h : DirIs B c e m) {op : DirOp}
    (hfit : op.Fits m) :
    Post (fun _ s' => ∃ j c' e', s' = { s with junk := j }.setFile ip c' e' ∧
        DirIs B c' e' (op.apply m))
      (fun _ => B.stops) ((op.run env ctx ip).exec (s.setFile ip c e)) := by
  have hmap : ∀ name, m.bindings name =
      (dirFind (B.view c) e name).map fun k => (dirEntry (B.view c) e k).inodeNo := fun name => by
    rw [← h.bindings, dirMap]
  cases op with
  | insert name no =>
    rw [apply, hmap]
    cases hfind : dirFind (B.view c) e name with
    | some k =>
      refine (post_inodeInsert_found L h.toDirFile (dirSearch_str.trans hfind)).bind ?_
      rintro _ _ ⟨-, j, c', rfl, hs⟩
      exact ⟨j, c', e, rfl, h.same L hib hs⟩
    | none =>
      have hnone : dirMap (B.view c) e name = none := by rw [dirMap, hfind, Option.map_none]
      have hmax : e.numBytes + DIR_ENTRY_BYTES ≤ INODE_MAX_BYTES := by
        rw [h.size, h.slots]
        exact hfit.2.2 (h.bindings ▸ hnone)
      refine (post_inodeInsert_new L hib h.stops h.toDirFile hno hmax
        (dirSearch_str.trans hfind)).bind ?_
      rintro _ _ ⟨-, j, c', e', rfl, hw⟩
      exact ⟨j, c', e', rfl, h.inserted hfit hnone hw⟩
  | remove name =>
    refine (post_inodeLookup L h.toDirFile name).bind ?_
    rintro _ _ ⟨rfl, j, c1, rfl, hs⟩
    have h₁ := h.same L hib hs
    have hfind1 := dirFind_congr (fun k hk => h.toDirFile.dirEntry_same L hs hk) name
    cases hfind : dirFind (B.view c) e name with
    | some k =>
      rw [hfind] at hfind1
      refine (post_inodeRemove (s := { s with junk := j }) L hib h₁.stops h₁.toDirFile
        hno (dirFind_eq_some hfind1).1).imp ?_ fun _ hst => hst
      rintro _ _ ⟨src, j', c', e', rfl, h0, h1, hw⟩
      exact ⟨j', c', e', rfl, h₁.removed hfind1 h0 h1 hw⟩
    | none =>
      have hsame : update m.bindings name none = m.bindings :=
        update_eq_self_iff.mpr (by rw [hmap, hfind, Option.map_none])
      rw [apply, hsame]
      exact ⟨j, c1, e, rfl, h₁⟩

theorem post_runs (ctx : Nat) (L : StoreLaws env.cache B) (hib : InodeBlocks B env.sb)
    {ops : List DirOp} :
    ∀ {s : Fs κ} {c : κ} {e : InodeEntry} {m : NameMap},
    (s.inodes ip).inodeNo < env.sb.numInodes → DirIs B c e m → AllFit m ops →
    Post (fun _ s' => ∃ j c' e', s' = { s with junk := j }.setFile ip c' e' ∧
        DirIs B c' e' (ops.foldl apply m))
      (fun _ => B.stops) ((ops.forM fun op => op.run env ctx ip).exec (s.setFile ip c e)) := by
  induction ops with
  | nil => exact fun {s c e m} _ h _ => ⟨s.junk, c, e, rfl, h⟩
  | cons op ops ih =>
    rintro s c e m hno h ⟨hop, hrest⟩
    refine (post_run L hib hno h hop).bind ?_
    rintro _ _ ⟨j, c', e', rfl, h'⟩
    refine (ih (s := { s with junk := j }) hno h' hrest).imp ?_ fun _ hst => hst
    rintro _ _ ⟨j', c'', e'', rfl, h''⟩
    exact ⟨j', c'', e'', rfl, h''⟩

end DirOp

/-- Directories are finite maps: from a directory of whole entries without holes, in which no
two live entries have the same name, and with room for the longest file, the calls return, unless
the store stops one of them, and leave the bindings and the size of the map that the same calls
give.  A lookup returns the inode number of the only live entry with
the name, at its index, or nothing if there is none; an insert of a name that is there changes
neither the entry of the directory nor its bytes. -/
theorem directory_is_finite_map (ctx : Nat) (ops : List DirOp) (L : StoreLaws env.cache B)
    (hib : InodeBlocks B env.sb)
    (hno : (s.inodes ip).inodeNo < env.sb.numInodes)
    (h : DirIs B s.cache (s.inodes ip).entry m) (hops : DirOp.AllFit m ops) :
    Post (fun _ s' =>
      let e' := (s'.inodes ip).entry
      let m' := ops.foldl DirOp.apply m
      DirIs B s'.cache e' m' ∧ e'.numBytes = DIR_ENTRY_BYTES * m'.slots ∧
      (∀ name, match m'.bindings name with
        | none => (∀ k < dirSize e', ¬ (dirEntry (B.view s'.cache) e' k).Binds name) ∧
            ∃ s'', (inodeLookup env ip name.str).exec s' = (.ok none, s'')
        | some no => ∃ k < dirSize e', (dirEntry (B.view s'.cache) e' k).Binds name ∧
            (∀ k' < dirSize e', (dirEntry (B.view s'.cache) e' k').Binds name → k' = k) ∧
            (dirEntry (B.view s'.cache) e' k).inodeNo = no ∧
            ∃ s'', (inodeLookup env ip name.str).exec s' =
              (.ok (some (no, DIR_ENTRY_BYTES * k)), s'')) ∧
      ∀ name no, m'.bindings name ≠ none →
        ∃ index s'', (inodeInsert env (some ctx) ip name.str no).exec s' = (.ok index, s'') ∧
          (s''.inodes ip).entry = e' ∧
          ∀ j < e'.numBytes, byteAt (B.view s''.cache) e' j = byteAt (B.view s'.cache) e' j)
      (fun _ => B.stops) ((ops.forM fun op => op.run env ctx ip).exec s) := by
  have hpost := DirOp.post_runs ctx L hib hno h hops
  rw [Fs.setFile_self] at hpost
  refine hpost.imp ?_ fun _ hst => hst
  rintro _ _ ⟨j, c', e', rfl, hd⟩
  dsimp only
  rw [Fs.inodes_setFile, Fs.cache_setFile]
  have hmap := hd.bindings
  refine ⟨hd, by rw [hd.size, hd.slots], fun name => ?_, fun name no hb => ?_⟩
  · obtain ⟨_, s'', hexec', rfl, -⟩ :=
      (post_inodeLookup (P := False) L hd.toDirFile name).returns fun _ hf => hf
    rw [← hmap, dirMap]
    cases hfind : dirFind (B.view c') e' name with
    | none =>
      rw [hfind] at hexec'
      exact ⟨dirFind_eq_none.mp hfind, s'', hexec'⟩
    | some k =>
      rw [hfind] at hexec'
      obtain ⟨hk, hbinds⟩ := dirFind_eq_some hfind
      exact ⟨k, hk, hbinds, fun k' hk' hb' => hd.unique name k' hk' k hk hb' hbinds, rfl, s'',
        hexec'⟩
  · rw [← hmap, dirMap, Ne, Option.map_eq_none_iff, ← Ne, Option.ne_none_iff_exists'] at hb
    obtain ⟨k, hfind⟩ := hb
    obtain ⟨_, _, hexec', rfl, j', c'', rfl, hs⟩ :=
      (post_inodeInsert_found (P := False) L hd.toDirFile (dirSearch_str.trans hfind)).returns
        fun _ hf => hf
    refine ⟨_, _, hexec', ?_, fun i hi => byteAt_same L hd.file hs hd.full hi hd.fits⟩
    rw [Fs.inodes_setFile]

end

namespace MockCache

def emptyDir : Fs MockCache :=
  start.setFile 0 start.cache (InodeEntry.setType Bytes.zero INODE_DIRECTORY)

theorem emptyDir_is : DirIs view emptyDir.cache (emptyDir.inodes 0).entry ⟨fun _ => none, 0⟩ := by
  have hzero : ∀ off k, 2 ≤ off →
      readLE (InodeEntry.setType zero INODE_DIRECTORY) off k = 0 := fun off k h => by
    rw [InodeEntry.setType, readLE_writeLE_of_disjoint _ _ (.inr h), readLE_zero]
  have htype : (InodeEntry.setType zero INODE_DIRECTORY).type = INODE_DIRECTORY := by
    rw [InodeEntry.type_setType]
    rfl
  have hnum : (InodeEntry.setType zero INODE_DIRECTORY).numBytes = 0 := hzero _ _ (by decide)
  have hf : FileIs view emptyDir.cache (emptyDir.inodes 0).entry [] :=
    .empty settled_start (htype ▸ by decide) (fun i _ => hzero _ _ (by omega))
      (hzero _ _ (by decide)) hnum (by rw [emptyDir, Fs.cache_setFile, room_start]; decide)
  have hsize : dirSize (emptyDir.inodes 0).entry = 0 := by
    show InodeEntry.numBytes _ / _ = 0
    rw [hf.size]
    rfl
  exact {
    settled := hf.settled
    file := hf.file
    type := htype
    size := by rw [hsize]; exact hnum
    fits := hf.size ▸ hf.fits
    full := hf.size ▸ hf.full
    unique := fun _ k hk => absurd (hsize ▸ hk) (Nat.not_lt_zero k)
    bindings := funext fun name =>
      dirMap_eq_none.mpr fun k hk => absurd (hsize ▸ hk) (Nat.not_lt_zero k)
    slots := hsize
    room := hf.room }

def nameA : FileName :=
  ⟨[97], Nat.succ_pos 0, by decide, List.forall_mem_singleton.mpr (by decide)⟩

def nameB : FileName :=
  ⟨[98], Nat.succ_pos 0, by decide, List.forall_mem_singleton.mpr (by decide)⟩

/-- The name `b` is inserted twice, and `a` is removed. -/
def dirCalls : List DirOp := [.insert nameA 5, .insert nameB 7, .remove nameA, .insert nameB 9]

theorem directory_is_finite_map_mock :
    ∃ s', (dirCalls.forM fun op => op.run env 0 0).exec emptyDir = (.ok (), s') ∧
      (s'.inodes 0).entry.numBytes = 32 ∧
      (∃ s'', (inodeLookup env 0 nameA.str).exec s' = (.ok none, s'')) ∧
      ∃ index s'', (inodeLookup env 0 nameB.str).exec s' = (.ok (some (7, index)), s'') := by
  obtain ⟨_, s', hexec, -, hsize, hlookup, -⟩ := (directory_is_finite_map 0 dirCalls
    (show StoreLaws env.cache view from laws) inodeBlocks (by decide) emptyDir_is
    (by decide)).returns fun _ hst => hst
  obtain ⟨-, hA⟩ := hlookup nameA
  obtain ⟨k, -, -, -, -, s'', hB⟩ := hlookup nameB
  exact ⟨s', hexec, hsize, hA, _, s'', hB⟩

/-- A directory with two live entries of the name `a`. -/
def twoEntries : Fs MockCache := emptyDir.setFile 0 { emptyDir.cache with
      blocks := fun b =>
        if b = BLOCK_START then
          (Bytes.zero.splice 0 16 (DirEntry.new nameA.str 5).get).splice 16 16
            (DirEntry.new nameA.str 7).get
        else Bytes.zero
      used := fun b => b == BLOCK_START }
    (((InodeEntry.setType Bytes.zero INODE_DIRECTORY).setAddr 0 BLOCK_START).setNumBytes 32)

/-- Without distinct names a remove leaves a binding of the name: the lookup finds inode 5 at
index 0 before, and inode 7 at index 16 after it. -/
theorem inode_remove_leaves_name : (twoEntries.inodes 0).entry.numBytes = 32 ∧
      fileBlock (view.view twoEntries.cache) (twoEntries.inodes 0).entry 0 ≠ 0 ∧
      ((inodeLookup env 0 nameA.str).exec twoEntries).1 = .ok (some (5, 0)) ∧
      ∃ s', (DirOp.run env 0 0 (.remove nameA)).exec twoEntries = (.ok (), s') ∧
        ((inodeLookup env 0 nameA.str).exec s').1 = .ok (some (7, 16)) := by
  refine ⟨?_, ?_, ?_, _, Prod.ext ?_ rfl, ?_⟩
  all_goals decide +kernel

end MockCache

end OsKernel
