import OsKernel.Fs.PathNames

/-!
# Names and positions in a directory

An entry that `inode_insert` has added is found again by `inode_lookup` under the same name if and
only if the name is shorter than `FILE_NAME_MAX_LENGTH`: of a longer one `inode_insert` replaces the last
byte with a `NUL`, and `inode_lookup` compares it.  The position that the first function returns is
the number of the entry, the one that the second stores is its offset in bytes, which is also what
`inode_remove` expects.
-/

namespace OsKernel

open Prog

/-- The name in the buffer ends before the buffer does. -/
def Terminated (nm : Nat → UInt8) : Prop := ∃ j < FILE_NAME_MAX_LENGTH, nm j = 0

instance (nm : Nat → UInt8) : Decidable (Terminated nm) :=
  inferInstanceAs (Decidable (∃ j < FILE_NAME_MAX_LENGTH, nm j = 0))

theorem strncpy_of_ne_zero {nm : Nat → UInt8} {j : Nat} (h : ∀ k < j, nm k ≠ 0) :
    strncpy nm j = nm j := by
  rw [strncpy, if_pos]
  exact List.all_eq_true.mpr fun k hk => bne_iff_ne.mpr (h k (List.mem_range.mp hk))

/-- `inode_lookup` takes a new entry for the name it was made of if and only if the name is
terminated and the sixteen bits of the inode number are not all `0`. -/
theorem DirEntry.matches_new {nm : Nat → UInt8} {no : Nat} :
    (DirEntry.new nm no).Matches nm ↔ Terminated nm ∧ no % 65536 ≠ 0 := by
  rw [Matches, inodeNo_new, and_comm, strncmp, strncmpFrom_eq_zero]
  simp only [Nat.zero_add]
  refine and_congr_left fun _ => ⟨fun h => ?_, ?_⟩
  · by_contra hnul
    have hne : ∀ k < FILE_NAME_MAX_LENGTH, nm k ≠ 0 := fun k hk h0 => hnul ⟨k, hk, h0⟩
    have hlast := h 13 (by decide) fun k hk => hne k (Nat.lt_trans hk (by decide))
    rw [name_new nm (by decide), if_pos rfl] at hlast
    exact hne 13 (by decide) hlast
  · rintro ⟨i, hi, h0⟩ j hj hk
    rw [name_new nm hj]
    split
    next hlast =>
      -- the byte that `inode_insert` overwrites is the `NUL`
      obtain hij | hij := Nat.lt_or_ge i j
      · exact absurd h0 (hk i hij)
      · obtain rfl : i = j := by
          simp only [FILE_NAME_MAX_LENGTH] at hi
          omega
        exact h0
    next => exact (strncpy_of_ne_zero hk).symm

theorem terminated_of_skipelem {path rest : List UInt8} {buf nm : Nat → UInt8}
    (h : skipelem path buf = some (rest, nm)) :
    Terminated nm ↔ (pathElem path).length < FILE_NAME_MAX_LENGTH := by
  constructor
  · rintro ⟨j, hj, h0⟩
    by_contra hlen
    rw [skipelem_eq] at h
    split at h
    next => cases h
    cases h
    have hlt := Nat.lt_of_lt_of_le hj (Nat.le_of_not_lt hlen)
    rw [elemBuffer, if_pos (Nat.le_of_not_lt hlen), memcpy,
      if_pos ⟨Nat.zero_le j, (Nat.zero_add _).symm ▸ hj⟩, Nat.sub_zero, cstr,
      List.getD_eq_getElem _ _ hlt] at h0
    exact (nameChar_of_mem_pathElem (List.getElem_mem hlt)).2 h0
  · intro hlen
    obtain ⟨name, _, hnames⟩ := names_of_skipelem h hlen
    refine ⟨name.1.length, name.2.2.1, ?_⟩
    rw [hnames _ (Nat.le_refl _), FileName.str, cstr, List.getD_eq_default _ _ (Nat.le_refl _)]

section

variable {κ : Type} {env : FsEnv κ} {B : StoreView κ} {s : Fs κ} {ip ctx : Nat} {c c' : κ}
  {e e' : InodeEntry} {nm nm' : Nat → UInt8} {no : Nat}

/-- A directory to which a new name has been added. -/
structure Appended (B : StoreView κ) (c : κ) (e : InodeEntry) (nm : Nat → UInt8) (no : Nat) (c' : κ)
    (e' : InodeEntry) : Prop where
  dir : DirFile B c' e'
  size : dirSize e' = dirSize e + 1
  old : ∀ k < dirSize e, dirEntry (B.view c') e' k = dirEntry (B.view c) e k
  new : dirEntry (B.view c') e' (dirSize e) = DirEntry.new nm no
  room : B.room c' + (refs (B.view c') e').length = B.room c + (refs (B.view c) e).length

theorem Appended.of_written {sb : SuperBlock} {dirNo : Nat} (h : DirFile B c e)
    (hmax : e.numBytes + DIR_ENTRY_BYTES ≤ INODE_MAX_BYTES)
    (hw : FileWritten B sb dirNo c e (DIR_ENTRY_BYTES * dirSize e) DIR_ENTRY_BYTES
      (DirEntry.new nm no).get c' e') : Appended B c e nm no c' e' := by
  have hle := Nat.le_refl (dirSize e)
  have hsize : dirSize e' = dirSize e + 1 := by
    rw [(dirSize_written h hle hw).2]
    omega
  have hde := fun k (hk : k < dirSize e + 1) => dirEntry_written h hle hw (j := k) (hsize ▸ hk)
  refine ⟨h.written hle (h.size ▸ hmax) hw, hsize, fun k hk => ?_, ?_, hw.room⟩
  · rw [hde k (Nat.lt_succ_of_lt hk), if_neg (Nat.ne_of_lt hk)]
  · rw [hde _ (Nat.lt_succ_self _), if_pos rfl]
    exact funext fun i => dif_pos i.isLt

/-- The new entry is the only one that can be found under its name. -/
theorem Appended.dirSearch (h : Appended B c e nm no c' e')
    (hnone : dirSearch (B.view c) e nm = none) : dirSearch (B.view c') e' nm =
      if Terminated nm ∧ no % 65536 ≠ 0 then some (dirSize e) else none := by
  rw [OsKernel.dirSearch, List.find?_eq_none] at hnone
  have hold : (List.range (dirSize e)).find?
      (fun k => (dirEntry (B.view c') e' k).Matches nm) = none := by
    rw [List.find?_eq_none]
    intro k hk
    rw [h.old k (List.mem_range.mp hk)]
    exact hnone k hk
  rw [OsKernel.dirSearch, h.size, List.range_succ, List.find?_append, hold, Option.none_or,
    List.find?_singleton, h.new]
  simp only [decide_eq_true_eq, DirEntry.matches_new]

/-- What a lookup of a buffer returns. -/
theorem exec_inodeLookup_buf (s : Fs κ) (ip : Nat) (L : StoreLaws env.cache B) (h : DirFile B c e)
    (nm : Nat → UInt8) :
    ∃ s', (inodeLookup env ip nm).exec (s.setFile ip c e) =
        (.ok ((dirSearch (B.view c) e nm).map fun k =>
          ((dirEntry (B.view c) e k).inodeNo, DIR_ENTRY_BYTES * k)), s') ∧
      LookedAt B s ip c e s' := by
  have hpost : Post _ (fun _ => False) ((inodeLookup env ip nm).exec (s.setFile ip c e)) :=
    post_inodeLookup_buf L h nm
  obtain ⟨_, s', hexec, rfl, hs'⟩ := hpost.returns fun _ hf => hf
  exact ⟨s', hexec, hs'⟩

theorem exec_inodeLookup (s : Fs κ) (ip : Nat) (L : StoreLaws env.cache B) (h : DirFile B c e)
    (name : FileName) :
    ∃ s', (inodeLookup env ip name.str).exec (s.setFile ip c e) =
        (.ok ((dirFind (B.view c) e name).map fun k =>
          ((dirEntry (B.view c) e k).inodeNo, DIR_ENTRY_BYTES * k)), s') ∧
      LookedAt B s ip c e s' := by
  rw [← dirSearch_str]
  exact exec_inodeLookup_buf s ip L h name.str

theorem dirSearch_of_lookup {r : Option (Nat × Nat)} (L : StoreLaws env.cache B)
    (h : DirFile B s.cache (s.inodes ip).entry)
    (hr : ((inodeLookup env ip nm).exec s).1 = .ok r) :
    (dirSearch (B.view s.cache) (s.inodes ip).entry nm).map (fun k =>
      ((dirEntry (B.view s.cache) (s.inodes ip).entry k).inodeNo, DIR_ENTRY_BYTES * k)) = r := by
  obtain ⟨s', hexec, _⟩ := exec_inodeLookup_buf s ip L h nm
  rw [Fs.setFile_self] at hexec
  rw [hexec] at hr
  exact Except.ok.inj hr

/-- An insert of a new name returns the number of the new entry, unless the store stops it or has
too few blocks. -/
theorem post_inodeInsert_lookup (ctx : Nat) (L : StoreLaws env.cache B) (hib : InodeBlocks B env.sb)
    (h : DirFile B s.cache (s.inodes ip).entry)
    (hfits : (s.inodes ip).entry.numBytes + DIR_ENTRY_BYTES ≤ INODE_MAX_BYTES)
    (hip : (s.inodes ip).inodeNo < env.sb.numInodes)
    (hnone : dirSearch (B.view s.cache) (s.inodes ip).entry nm = none) :
    Post (fun index s' => index = dirSize (s.inodes ip).entry ∧
        ∃ j c' e', s' = { s with junk := j }.setFile ip c' e' ∧
          Appended B s.cache (s.inodes ip).entry nm no c' e')
      (fun _ => B.stops ∨ B.Scarce s.cache (s.inodes ip).entry)
      ((inodeInsert env (some ctx) ip nm no).exec s) := by
  have hpost : Post _ _ ((inodeInsert env (some ctx) ip nm no).exec
      (s.setFile ip s.cache (s.inodes ip).entry)) :=
    post_inodeInsert_new L hib id h hip hfits hnone
  rw [Fs.setFile_self] at hpost
  refine hpost.imp ?_ fun _ hst => hst
  rintro _ _ ⟨rfl, j, c', e', rfl, hw⟩
  exact ⟨rfl, j, c', e', rfl, .of_written h hfits hw⟩

theorem Appended.exec_inodeLookup (L : StoreLaws env.cache B) (h : Appended B c e nm no c' e')
    (hnone : OsKernel.dirSearch (B.view c) e nm = none) (s : Fs κ) (ip : Nat) :
    ∃ s', (inodeLookup env ip nm).exec (s.setFile ip c' e') =
      (.ok (if Terminated nm ∧ no % 65536 ≠ 0 then
        some (no % 65536, DIR_ENTRY_BYTES * dirSize e) else none), s') := by
  obtain ⟨s', hexec, _⟩ := exec_inodeLookup_buf s ip L h.dir nm
  rw [h.dirSearch hnone, apply_ite (Option.map _), Option.map_some, Option.map_none, h.new,
    DirEntry.inodeNo_new] at hexec
  exact ⟨s', hexec⟩

/-- An insert of a name that is there returns the offset of its entry and changes nothing. -/
theorem exec_inodeInsert_found {k : Nat} (L : StoreLaws env.cache B) (h : DirFile B c e)
    (hfind : dirSearch (B.view c) e nm = some k) (s : Fs κ) (ip ctx no : Nat) :
    ∃ s', (inodeInsert env (some ctx) ip nm no).exec (s.setFile ip c e) =
        (.ok (DIR_ENTRY_BYTES * k), s') ∧ (s'.inodes ip).entry = e ∧
      ∀ j < e.numBytes, byteAt (B.view s'.cache) e j = byteAt (B.view c) e j := by
  have hpost : Post _ (fun _ => False)
      ((inodeInsert env (some ctx) ip nm no).exec (s.setFile ip c e)) :=
    post_inodeInsert_found L h hfind
  obtain ⟨_, _, hexec, rfl, j, c2, rfl, hs⟩ := hpost.returns fun _ hf => hf
  refine ⟨_, hexec, ?_, fun i hi => byteAt_same L h.file hs h.full hi h.fits⟩
  rw [Fs.inodes_setFile]

/-- When a name that is created can be found: after `inode_insert` of a path component that is not
in the directory, a lookup of it finds the inode number if and only if the component has at most 13
bytes and the number fits sixteen bits.  Then so does a lookup through every other buffer with the
component, and a second insert leaves the directory as it is.  The insert returns, unless
the store stops it or has too few blocks for the directory. -/
theorem inserted_name_found {path rest : List UInt8} {buf : Nat → UInt8} (ctx : Nat)
    (L : StoreLaws env.cache B) (hib : InodeBlocks B env.sb)
    (h : DirFile B s.cache (s.inodes ip).entry)
    (hfits : (s.inodes ip).entry.numBytes + DIR_ENTRY_BYTES ≤ INODE_MAX_BYTES)
    (hip : (s.inodes ip).inodeNo < env.sb.numInodes) (hno0 : 0 < no)
    (hskip : skipelem path buf = some (rest, nm))
    (hnew : ((inodeLookup env ip nm).exec s).1 = .ok none) :
    Post (fun _ s' =>
        ((∃ off s'', (inodeLookup env ip nm).exec s' = (.ok (some (no, off)), s'')) ↔
          (pathElem path).length < FILE_NAME_MAX_LENGTH ∧ no < 65536) ∧
        ((pathElem path).length < FILE_NAME_MAX_LENGTH → no < 65536 →
          ∀ path' rest' buf' nm', pathElem path' = pathElem path →
          skipelem path' buf' = some (rest', nm') →
          (∃ off s'', (inodeLookup env ip nm').exec s' = (.ok (some (no, off)), s'')) ∧
          ∀ no', ∃ index' s'',
            (inodeInsert env (some ctx) ip nm' no').exec s' = (.ok index', s'') ∧
            (s''.inodes ip).entry = (s'.inodes ip).entry ∧
            ∀ j < (s'.inodes ip).entry.numBytes, byteAt (B.view s''.cache) (s'.inodes ip).entry j =
              byteAt (B.view s'.cache) (s'.inodes ip).entry j))
      (fun _ => B.stops ∨ B.Scarce s.cache (s.inodes ip).entry)
      ((inodeInsert env (some ctx) ip nm no).exec s) := by
  have hnone := Option.map_eq_none_iff.mp (dirSearch_of_lookup L h hnew)
  refine (post_inodeInsert_lookup ctx L hib h hfits hip hnone).imp ?_ fun _ hst => hst
  rintro _ _ ⟨-, j, c', e', rfl, happ⟩
  obtain ⟨s₁, hexec⟩ := happ.exec_inodeLookup L hnone { s with junk := j } ip
  simp only [terminated_of_skipelem hskip] at hexec
  refine ⟨⟨?_, ?_⟩, fun hlen hno path' rest' buf' nm' helem hskip' => ?_⟩
  · rintro ⟨off, s'', hfound⟩
    rw [hexec, Prod.mk.injEq, Except.ok.injEq] at hfound
    split at hfound
    next hif =>
      have hno := (Prod.mk.inj (Option.some.inj hfound.1)).1
      exact ⟨hif.1, by omega⟩
    next => cases hfound.1
  · rintro ⟨hlen, hno⟩
    rw [hexec, if_pos ⟨hlen, by omega⟩, Nat.mod_eq_of_lt hno]
    exact ⟨_, _, rfl⟩
  · -- both buffers have the same name, and what stands behind the `NUL` does not matter
    obtain ⟨name, hname, hnames⟩ := names_of_skipelem hskip hlen
    obtain ⟨name', hname', hnames'⟩ := names_of_skipelem hskip' (helem ▸ hlen)
    obtain rfl : name' = name := Subtype.ext (hname'.trans (helem.trans hname.symm))
    have hlookup : inodeLookup env ip nm' = inodeLookup env ip nm := by
      rw [hnames'.inodeLookup_eq, hnames.inodeLookup_eq]
    have hinsert : ∀ no', inodeInsert env (some ctx) ip nm' no' =
        inodeInsert env (some ctx) ip nm no' := fun no' => by
      rw [hnames'.inodeInsert_eq, hnames.inodeInsert_eq]
    have hif : (pathElem path).length < FILE_NAME_MAX_LENGTH ∧ no % 65536 ≠ 0 :=
      ⟨hlen, by omega⟩
    rw [hlookup, hexec, if_pos hif, Nat.mod_eq_of_lt hno]
    refine ⟨⟨_, _, rfl⟩, fun no' => ?_⟩
    have hfind := happ.dirSearch hnone
    simp only [terminated_of_skipelem hskip, if_pos hif] at hfind
    rw [hinsert, Fs.inodes_setFile, Fs.cache_setFile]
    exact ⟨_, exec_inodeInsert_found L happ.dir hfind _ ip ctx no'⟩

end

namespace MockCache

theorem emptyDir_not_scarce :
    ¬ (view.stops ∨ view.Scarce emptyDir.cache (emptyDir.inodes 0).entry) := by
  rintro (hst | hroom)
  · exact hst
  · exact Nat.not_lt.mpr emptyDir_is.room hroom

theorem emptyDir_fits : (emptyDir.inodes 0).entry.numBytes + DIR_ENTRY_BYTES ≤ INODE_MAX_BYTES := by
  rw [emptyDir_is.size, emptyDir_is.slots]
  decide

/-- The path `/a/b`. -/
theorem inserted_name_found_mock :
    ∃ nm index s' off s'', skipelem [47, 97, 47, 98] (fun _ => 0) = some ([98], nm) ∧
      (inodeInsert env (some 0) 0 nm 5).exec emptyDir = (.ok index, s') ∧
      (inodeLookup env 0 nm).exec s' = (.ok (some (5, off)), s'') := by
  have hskip : skipelem [47, 97, 47, 98] (fun _ => 0) =
      some ([98], elemBuffer [97] fun _ => 0) := rfl
  have hnew : ((inodeLookup env 0 (elemBuffer [97] fun _ => 0)).exec emptyDir).1 = .ok none := by
    decide +kernel
  obtain ⟨index, s', hexec, hfound, _⟩ := (inserted_name_found 0
    (show StoreLaws env.cache view from laws) inodeBlocks emptyDir_is.toDirFile emptyDir_fits
    (by decide) (show 0 < 5 by decide) hskip hnew).returns fun _ => emptyDir_not_scarce
  obtain ⟨off, s'', hlookup⟩ := hfound.mpr (by decide)
  exact ⟨_, index, s', off, s'', hskip, hexec, hlookup⟩

/-- A name of fourteen characters is not found after it has been inserted, and is inserted again. -/
theorem inserted_name_lost :
    ∃ nm s' s'', skipelem (List.replicate 14 97) (fun _ => 0) = some ([], nm) ∧
      ((inodeLookup env 0 nm).exec emptyDir).1 = .ok none ∧
      (inodeInsert env (some 0) 0 nm 5).exec emptyDir = (.ok 0, s') ∧
      ((inodeLookup env 0 nm).exec s').1 = .ok none ∧
      (inodeInsert env (some 0) 0 nm 5).exec s' = (.ok 1, s'') ∧
      (s''.inodes 0).entry.numBytes = 32 := by
  refine ⟨elemBuffer (List.replicate 14 97) fun _ => 0, _, _, rfl, ?_, Prod.ext ?_ rfl, ?_,
    Prod.ext ?_ rfl, ?_⟩
  all_goals decide +kernel

end MockCache

/-! ## Positions -/

section

variable {κ : Type} {env : FsEnv κ} {B : StoreView κ} {s : Fs κ} {ip ctx : Nat} {c c' : κ}
  {e e' : InodeEntry} {nm : Nat → UInt8} {no : Nat}

/-- `inode_remove` at the offset of the new entry takes its inode number away and leaves the other
entries alone. -/
theorem Appended.post_inodeRemove (L : StoreLaws env.cache B) (hib : InodeBlocks B env.sb)
    (h : Appended B c e nm no c' e') {s : Fs κ}
    (hip : (s.inodes ip).inodeNo < env.sb.numInodes) (ctx : Nat) :
    Post (fun _ s' => dirSize (s'.inodes ip).entry = dirSize e + 1 ∧
        (dirEntry (B.view s'.cache) (s'.inodes ip).entry (dirSize e)).inodeNo = 0 ∧
        ∀ k < dirSize e, dirEntry (B.view s'.cache) (s'.inodes ip).entry k =
          dirEntry (B.view c) e k)
      (fun _ => B.stops ∨ B.Scarce c e)
      ((inodeRemove env (some ctx) ip (DIR_ENTRY_BYTES * dirSize e)).exec (s.setFile ip c' e')) := by
  have hk : dirSize e < dirSize e' := by
    rw [h.size]
    exact Nat.lt_succ_self _
  have hP : B.stops ∨ B.Scarce c' e' → B.stops ∨ B.Scarce c e := by
    rw [StoreView.Scarce, h.room]
    exact id
  refine (OsKernel.post_inodeRemove L hib hP h.dir hip hk).imp ?_ fun _ hst => hst
  rintro _ _ ⟨src, j, c2, e2, rfl, h0, h1, hw⟩
  have hsize : dirSize e2 = dirSize e' := by
    rw [(dirSize_written h.dir (Nat.le_of_lt hk) hw).2]
    omega
  have hde := fun k (hk' : k < dirSize e') =>
    dirEntry_written h.dir (Nat.le_of_lt hk) hw (j := k) (hsize ▸ hk')
  refine ⟨?_, ?_, fun k hlt => ?_⟩
  · rw [Fs.inodes_setFile, hsize, h.size]
  · rw [Fs.inodes_setFile, Fs.cache_setFile, hde _ hk, if_pos rfl, DirEntry.inodeNo]
    simp [Bytes.readLE, Bytes.get, h0, h1]
  · rw [Fs.inodes_setFile, Fs.cache_setFile, hde k (Nat.lt_trans hlt hk), if_neg (Nat.ne_of_lt hlt),
      h.old k hlt]

/-- The positions of `inode_insert` and `inode_lookup`.  For a name that is there `inode_insert`
returns the offset that a lookup stores, never `(usize)-1`.  For a new name it returns the number
`index` of the new entry: a lookup stores the same position if and only if the name has at most 13
bytes, the inode number is not `0` in sixteen bits and the directory was empty, and `inode_remove`
at the offset of the new entry deletes that entry and no other. -/
theorem directory_index_agrees (ctx no : Nat) (nm : Nat → UInt8) (L : StoreLaws env.cache B)
    (hib : InodeBlocks B env.sb) (h : DirFile B s.cache (s.inodes ip).entry)
    (hfits : (s.inodes ip).entry.numBytes + DIR_ENTRY_BYTES ≤ INODE_MAX_BYTES)
    (hip : (s.inodes ip).inodeNo < env.sb.numInodes) :
    (∀ old off, ((inodeLookup env ip nm).exec s).1 = .ok (some (old, off)) →
      ∃ s₁, (inodeInsert env (some ctx) ip nm no).exec s = (.ok off, s₁) ∧ off ≠ 2 ^ 64 - 1) ∧
    (((inodeLookup env ip nm).exec s).1 = .ok none →
      Post (fun index s₁ =>
          ((∃ found s₂, (inodeLookup env ip nm).exec s₁ = (.ok (some (found, index)), s₂)) ↔
            Terminated nm ∧ no % 65536 ≠ 0 ∧ (s.inodes ip).entry.numBytes = 0) ∧
          Post (fun _ s₃ => dirSize (s₃.inodes ip).entry = dirSize (s.inodes ip).entry + 1 ∧
              (dirEntry (B.view s₃.cache) (s₃.inodes ip).entry index).inodeNo = 0 ∧
              ∀ k < dirSize (s.inodes ip).entry,
                dirEntry (B.view s₃.cache) (s₃.inodes ip).entry k =
                  dirEntry (B.view s.cache) (s.inodes ip).entry k)
            (fun _ => B.stops ∨ B.Scarce s.cache (s.inodes ip).entry)
            ((inodeRemove env (some ctx) ip (DIR_ENTRY_BYTES * index)).exec s₁))
        (fun _ => B.stops ∨ B.Scarce s.cache (s.inodes ip).entry)
        ((inodeInsert env (some ctx) ip nm no).exec s)) := by
  have hsize := h.size
  refine ⟨fun old off hfound => ?_, fun hnew => ?_⟩
  · obtain ⟨k, hfind, hk⟩ := Option.map_eq_some_iff.mp (dirSearch_of_lookup L h hfound)
    obtain ⟨s₁, hexec, _⟩ := exec_inodeInsert_found L h hfind s ip ctx no
    rw [Fs.setFile_self] at hexec
    cases hk
    refine ⟨s₁, hexec, ?_⟩
    have hlt := dirSearch_eq_some hfind
    have hmax := h.fits
    simp only [DIR_ENTRY_BYTES, INODE_MAX_BYTES, INODE_NUM_DIRECT, INODE_NUM_INDIRECT,
      BLOCK_SIZE] at *
    omega
  · have hnone := Option.map_eq_none_iff.mp (dirSearch_of_lookup L h hnew)
    refine (post_inodeInsert_lookup ctx L hib h hfits hip hnone).imp ?_ fun _ hst => hst
    rintro _ _ ⟨rfl, j, c', e', rfl, happ⟩
    refine ⟨?_, happ.post_inodeRemove L hib (s := { s with junk := j }) hip ctx⟩
    obtain ⟨s₂, hexec⟩ := happ.exec_inodeLookup L hnone { s with junk := j } ip
    -- the number of the entry is its offset only for the first one
    have hzero : DIR_ENTRY_BYTES * dirSize (s.inodes ip).entry = dirSize (s.inodes ip).entry ↔
        (s.inodes ip).entry.numBytes = 0 := by
      simp only [DIR_ENTRY_BYTES] at *
      omega
    rw [hexec, ← hzero]
    constructor
    · rintro ⟨found, s', heq⟩
      rw [Prod.mk.injEq, Except.ok.injEq] at heq
      split at heq
      next hif => exact ⟨hif.1, hif.2, (Prod.mk.inj (Option.some.inj heq.1)).2⟩
      next => cases heq.1
    · rintro ⟨hterm, hno, hoff⟩
      rw [if_pos ⟨hterm, hno⟩, hoff]
      exact ⟨_, _, rfl⟩

end

namespace MockCache

/-- The first entry of a directory, and a second insert of it. -/
theorem directory_index_agrees_mock :
    ∃ index s₁ s₂ s₃ found, (inodeInsert env (some 0) 0 nameA.str 5).exec emptyDir =
        (.ok index, s₁) ∧
      (inodeLookup env 0 nameA.str).exec s₁ = (.ok (some (found, index)), s₂) ∧
      (inodeRemove env (some 0) 0 (DIR_ENTRY_BYTES * index)).exec s₁ = (.ok (), s₃) ∧
      (dirEntry (view.view s₃.cache) (s₃.inodes 0).entry index).inodeNo = 0 := by
  have hnew : ((inodeLookup env 0 nameA.str).exec emptyDir).1 = .ok none := by decide +kernel
  obtain ⟨index, s₁, hinsert, hagree, hremove⟩ := ((directory_index_agrees 0 5 nameA.str
    (show StoreLaws env.cache view from laws) inodeBlocks emptyDir_is.toDirFile emptyDir_fits
    (by decide)).2 hnew).returns fun _ => emptyDir_not_scarce
  obtain ⟨_, s₃, hremove, _, hdead, _⟩ := hremove.returns fun _ => emptyDir_not_scarce
  have hzero : (emptyDir.inodes 0).entry.numBytes = 0 := by
    rw [emptyDir_is.size, emptyDir_is.slots]
    rfl
  obtain ⟨found, s₂, hlookup⟩ := hagree.mpr ⟨by decide, by decide, hzero⟩
  exact ⟨index, s₁, s₂, s₃, found, hinsert, hlookup, hremove, hdead⟩

/-- The second entry: `inode_insert` returns `1`, the lookup stores `16`, a second insert of the name
returns `16`, and `inode_remove` at index `1` deletes the first entry. -/
theorem directory_index_differs :
    ∃ s₁ s₂ s₃, (inodeInsert env (some 0) 0 nameA.str 5).exec emptyDir = (.ok 0, s₁) ∧
      (inodeInsert env (some 0) 0 nameB.str 7).exec s₁ = (.ok 1, s₂) ∧
      ((inodeLookup env 0 nameB.str).exec s₂).1 = .ok (some (7, 16)) ∧
      ((inodeInsert env (some 0) 0 nameB.str 9).exec s₂).1 = .ok 16 ∧
      (inodeRemove env (some 0) 0 1).exec s₂ = (.ok (), s₃) ∧
      ((inodeLookup env 0 nameA.str).exec s₃).1 = .ok none ∧
      ((inodeLookup env 0 nameB.str).exec s₃).1 = .ok (some (7, 16)) := by
  refine ⟨_, _, _, Prod.ext ?_ rfl, Prod.ext ?_ rfl, ?_, ?_, Prod.ext ?_ rfl, ?_, ?_⟩
  all_goals decide +kernel

end MockCache

end OsKernel
