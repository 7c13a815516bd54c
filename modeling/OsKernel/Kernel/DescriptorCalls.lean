import OsKernel.Kernel.DescriptorRefs

/-!
# What the calls do to the references

One lemma for each call of `Kernel/Descriptors`: the references in hand at its end are those at its
start, and pointers have been followed by the type of the `File`.  For `mmap` the two are separate,
since the second one needs a descriptor of a file with an inode.
-/

namespace OsKernel

open Function List Tables Section

variable {writeEnd : Option (Fin NFILE)} {t : Tables} {type : FileType} {m : FileMember}
  {st' : Section}

/-- The pointer that has been followed is the member of the union that the type tells. -/
def Deref.Ok (d : Deref) : Prop :=
  match d.member with
  | .ip => d.type = .FD_INODE
  | .pipe => d.type = .FD_PIPE

namespace Descriptors

/-- Sections refer to files with an inode, and no pointer has been followed by a wrong type. -/
structure WellTyped (s : Descriptors) : Prop where
  sections : s.tables.Typed
  derefs : ∀ d ∈ s.derefs, d.Ok

/-- A part of a call takes the references `d` in hand. -/
structure Adds (s s' : Descriptors) (d : Fin NFILE → Int) : Prop where
  same : s.tables.SameCwd s'.tables
  spare : ∀ g, s'.tables.spare g = s.tables.spare g + d g
  typed : s.WellTyped → s'.WellTyped

/-- A call ends with the references that it started with. -/
structure Keeps (s s' : Descriptors) : Prop where
  spare : ∀ g, s'.tables.spare g = s.tables.spare g
  typed : s.WellTyped → s'.WellTyped

variable {s s' s'' : Descriptors} {p fd : Nat} {f g : Fin NFILE} {d e : Fin NFILE → Int}

theorem Adds.keeps (h : s.Adds s' d) (hd : ∀ g, d g = 0) : s.Keeps s' := by
  refine ⟨fun g => ?_, h.typed⟩
  rw [h.spare, hd, Int.add_zero]

theorem Adds.trans (h : s.Adds s' d) (h' : s'.Adds s'' e) : s.Adds s'' fun g => d g + e g := by
  refine ⟨h.same.trans h'.same, fun g => ?_, fun hw => h'.typed (h.typed hw)⟩
  rw [h'.spare, h.spare, Int.add_assoc]

theorem Adds.congr (h : s.Adds s' d) (hd : ∀ g, d g = e g) : s.Adds s' e := by
  have hde : d = e := funext hd
  rwa [hde] at h

theorem Keeps.refl (s : Descriptors) : s.Keeps s := ⟨fun _ => rfl, fun h => h⟩

theorem Keeps.trans (h : s.Keeps s') (h' : s'.Keeps s'') : s.Keeps s'' :=
  ⟨fun g => (h'.spare g).trans (h.spare g), fun hw => h'.typed (h.typed hw)⟩

theorem adds_tables (hsame : s.tables.SameCwd t)
    (hspare : ∀ g, t.spare g = s.tables.spare g + d g) (htyped : s.tables.Typed → t.Typed) :
    s.Adds { s with tables := t } d :=
  ⟨hsame, hspare, fun hw => ⟨htyped hw.sections, hw.derefs⟩⟩

/-! ## Files -/

theorem follow_wellTyped (h : s.WellTyped)
    (hok : Deref.Ok ⟨m, type⟩) : (s.follow m type).WellTyped := by
  refine ⟨h.sections, fun d hd => ?_⟩
  obtain rfl | hd := mem_cons.mp hd
  · exact hok
  · exact h.derefs d hd

theorem keeps_follow (hok : Deref.Ok ⟨m, type⟩) :
    s.Keeps (s.follow m type) := ⟨fun _ => rfl, fun h => follow_wellTyped h hok⟩

theorem fileClose_tables (s : Descriptors) (f : Fin NFILE) :
    (s.fileClose f).tables = s.tables.close f := by
  rw [fileClose]
  split
  · rfl
  · split
    · split <;> rfl
    · split <;> rfl
    · rfl

theorem fileClose_derefs (h : ∀ d ∈ s.derefs, d.Ok) (f : Fin NFILE) :
    ∀ d ∈ (s.fileClose f).derefs, d.Ok := by
  have hcons : ∀ d₀ : Deref, d₀.Ok → ∀ d ∈ d₀ :: s.derefs, d.Ok := fun d₀ h0 d hd => by
    obtain rfl | hd := mem_cons.mp hd
    · exact h0
    · exact h d hd
  rw [fileClose]
  split
  · exact h
  split
  · split
    · exact hcons ⟨.pipe, .FD_PIPE⟩ rfl
    · exact h
  · split
    · exact hcons ⟨.ip, .FD_INODE⟩ rfl
    · exact h
  · exact h

theorem adds_fileClose (h : 0 < s.tables.spare f) :
    s.Adds (s.fileClose f) fun g => -refsOf [some f] g := by
  have ht := s.fileClose_tables f
  refine ⟨?_, fun g => ?_, fun hw => ⟨?_, fileClose_derefs hw.derefs f⟩⟩
  · rw [ht]
    exact s.tables.sameCwd_close f
  · rw [ht, spare_close h]
    omega
  · rw [ht]
    exact hw.sections.close h

theorem adds_setOfile (hl : s.tables.Live p) (hfd : fd < NOFILE) (x : Option (Fin NFILE)) :
    s.Adds { s with tables := s.tables.setOfile p fd x } fun g =>
      refsOf [(s.tables.procs p).ofile fd] g - refsOf [x] g :=
  adds_tables (s.tables.sameCwd_setProc p rfl) (spare_setOfile hl hfd x)
    fun h => h.setOfile p fd x

theorem adds_dup (s : Descriptors) (f : Fin NFILE) :
    s.Adds { s with tables := s.tables.dup f } (refsOf [some f]) :=
  adds_tables (s.tables.sameCwd_setFile f _) (s.tables.spare_dup f) fun h => h.dup f

theorem adds_setFile (file : File) (href : file.ref = (s.tables.flist f).ref)
    (htype : file.type = .FD_INODE ∨ s.tables.holders f ≤ 0) :
    s.Adds { s with tables := s.tables.setFile f file } fun _ => 0 := by
  refine adds_tables (s.tables.sameCwd_setFile f _) (fun g => ?_) fun h => h.setFile (.inr htype)
  rw [spare_setFile, href, Int.sub_self, Int.zero_mul]

theorem fileAlloc_cases (s : Descriptors) :
    s.tables.findFree NFILE 0 = none ∧ s.fileAlloc = (none, s) ∨
    ∃ f, (s.tables.flist f).ref = 0 ∧ s.fileAlloc =
      (some f, { s with tables := s.tables.setFile f { File.none with ref := 1 } }) := by
  rw [fileAlloc]
  cases hfree : s.tables.findFree NFILE 0 with
  | none => exact .inl ⟨rfl, rfl⟩
  | some f => exact .inr ⟨f, findFree_ref hfree, rfl⟩

theorem adds_fileAlloc (hs : 0 ≤ s.tables.spare f) (href : (s.tables.flist f).ref = 0) :
    s.Adds { s with tables := s.tables.setFile f { File.none with ref := 1 } }
      (refsOf [some f]) := by
  have hfree : s.tables.holders f ≤ 0 := by
    rw [spare] at hs
    omega
  refine adds_tables (s.tables.sameCwd_setFile f _) (fun g => ?_)
    fun h => h.setFile (.inr (.inr hfree))
  rw [spare_setFile, href]
  rw [Int.sub_zero, Int.one_mul]

theorem fdalloc_cases (s : Descriptors) (p : Nat) (f : Fin NFILE) :
    (∀ fd < NOFILE, (s.tables.procs p).ofile fd ≠ none) ∧ s.fdalloc p f = (none, s) ∨
    ∃ fd, fd < NOFILE ∧ (s.tables.procs p).ofile fd = none ∧
      s.fdalloc p f = (some fd, { s with tables := s.tables.setOfile p fd (some f) }) := by
  rw [fdalloc]
  cases hfind : (List.range NOFILE).find? fun fd => ((s.tables.procs p).ofile fd).isNone with
  | none =>
    refine .inl ⟨fun fd hfd => ?_, rfl⟩
    have hused := List.find?_eq_none.mp hfind fd (mem_range.mpr hfd)
    simpa using hused
  | some fd =>
    have hmem := mem_range.mp (mem_of_find?_eq_some hfind)
    have hnone := List.find?_some hfind
    exact .inr ⟨fd, hmem, by simpa using hnone, rfl⟩

theorem fd2file_some {fd : Int} (h : s.fd2file p fd = some f) :
    fd.toNat < NOFILE ∧ (s.tables.procs p).ofile fd.toNat = some f := by
  rw [fd2file] at h
  split at h
  · cases h
  next hfd => exact ⟨by omega, h⟩

/-! ## Calls on descriptors -/

section

variable (hl : s.tables.Live p) (hs : ∀ g, 0 ≤ s.tables.spare g)

include hl hs

theorem adds_closeFile (hfd : fd < NOFILE) (hf : (s.tables.procs p).ofile fd = some f) :
    s.Adds (fileClose { s with tables := s.tables.setOfile p fd none } f) fun _ => 0 := by
  have htake := adds_setOfile hl hfd none
  rw [hf] at htake
  have hpos : 0 < (s.tables.setOfile p fd none).spare f := by
    have hspare := htake.spare f
    have hold := hs f
    rw [refsOf_some, refsOf_none, if_pos rfl] at hspare
    dsimp only at hspare
    omega
  refine (htake.trans (adds_fileClose hpos)).congr fun g => ?_
  rw [refsOf_none]
  omega

theorem openat_keeps (found : Option Nat)
    (wronly rdwr : Bool) : s.Keeps (s.openat p found wronly rdwr).2 := by
  cases found with
  | none => exact .refl s
  | some ip =>
    rw [openat]
    obtain ⟨-, halloc⟩ | ⟨f, href, halloc⟩ := s.fileAlloc_cases
    · rw [halloc]
      exact .refl s
    rw [halloc]
    have hnew := adds_fileAlloc (hs f) href
    generalize hs1 : { s with tables := s.tables.setFile f { File.none with ref := 1 } } = s1
      at hnew ⊢
    have hpos : 0 < s1.tables.spare f := by
      have hspare := hnew.spare f
      have hold := hs f
      rw [refsOf_some, if_pos rfl] at hspare
      omega
    obtain ⟨-, hfd⟩ | ⟨fd, hlt, hnone, hfd⟩ := s1.fdalloc_cases p f
    · simp only [hfd]
      refine (hnew.trans (adds_fileClose hpos)).keeps fun g => ?_
      omega
    simp only [hfd]
    have hput := adds_setOfile (hnew.same.live hl) hlt (some f)
    have hopen := adds_setFile (s := { s1 with tables := s1.tables.setOfile p fd (some f) })
      (f := f) ⟨.FD_INODE, _, !wronly, wronly || rdwr, some ip, 0⟩ rfl (.inl rfl)
    refine (hnew.trans (hput.trans hopen)).keeps fun g => ?_
    rw [hnone, refsOf_none]
    omega

theorem close_keeps (fd : Int) : s.Keeps (s.close p fd).2 := by
  rw [close]
  cases hfd : s.fd2file p fd with
  | none => exact .refl s
  | some f =>
    obtain ⟨hlt, hf⟩ := fd2file_some hfd
    exact (adds_closeFile hl hs hlt hf).keeps fun _ => rfl

end

theorem dup_keeps (hl : s.tables.Live p) (fd : Int) : s.Keeps (s.dup p fd).2 := by
  rw [dup]
  cases hfd : s.fd2file p fd with
  | none => exact .refl s
  | some f =>
    obtain ⟨-, hfd⟩ | ⟨fd, hlt, hnone, hfd⟩ := s.fdalloc_cases p f
    · simp only [hfd]
      exact .refl s
    · simp only [hfd]
      have hput := adds_setOfile hl hlt (some f)
      refine (hput.trans (adds_dup _ f)).keeps fun g => ?_
      rw [hnone, refsOf_none]
      omega

/-! ## `pipe2` -/

/-- The variable `write_end` is `NULL` when `pipe_alloc` reads it without a value. -/
def PipeOk (s : Descriptors) (writeEnd : Option (Fin NFILE)) : Prop :=
  s.tables.findFree NFILE 0 = none → writeEnd = none

theorem holders_of_ref (hpos : 0 < s.tables.spare f) (href : (s.tables.flist f).ref = 1) :
    s.tables.holders f ≤ 0 := by
  rw [spare] at hpos
  omega

theorem adds_initPipe {f0 f1 : Fin NFILE} (hne : f0 ≠ f1) (h0 : 0 < s.tables.spare f0)
    (h1 : 0 < s.tables.spare f1) (href0 : (s.tables.flist f0).ref = 1)
    (href1 : (s.tables.flist f1).ref = 1) (channel : Nat) :
    s.Adds { s with
      tables := (s.tables.setFile f0 ⟨.FD_PIPE, 1, true, false, some channel, 0⟩).setFile f1
        ⟨.FD_PIPE, 1, false, true, some channel, 0⟩ } fun _ => 0 := by
  have hread := adds_setFile (s := s) (f := f0) ⟨.FD_PIPE, 1, true, false, some channel, 0⟩
    href0.symm (.inr (holders_of_ref h0 href0))
  have hsame : ((s.tables.setFile f0 ⟨.FD_PIPE, 1, true, false, some channel, 0⟩).flist f1).ref =
      1 := by
    rw [setFile]
    dsimp only
    rw [update_of_ne hne.symm, href1]
  have hspare : 0 < (s.tables.setFile f0 ⟨.FD_PIPE, 1, true, false, some channel, 0⟩).spare f1 := by
    rw [hread.spare f1, Int.add_zero]
    exact h1
  have hwrite := adds_setFile (s := { s with tables := _ }) (f := f1)
    ⟨.FD_PIPE, 1, false, true, some channel, 0⟩ hsame.symm (.inr (holders_of_ref hspare hsame))
  exact (hread.trans hwrite).congr fun _ => rfl

theorem pipeAlloc_cases (hs : ∀ g, 0 ≤ s.tables.spare g) (channel : Nat)
    (hok : s.PipeOk writeEnd) :
    (∃ s', s.pipeAlloc channel writeEnd = (none, s') ∧ s.Adds s' fun _ => 0) ∨
    ∃ f0 f1 s', s.pipeAlloc channel writeEnd = (some (f0, f1), s') ∧
      s.Adds s' fun g => refsOf [some f0] g + refsOf [some f1] g := by
  rw [pipeAlloc]
  obtain ⟨hfull, halloc⟩ | ⟨f0, href0, halloc⟩ := s.fileAlloc_cases
  · rw [halloc, hok hfull]
    exact .inl ⟨s, rfl, .refl _, fun _ => (Int.add_zero _).symm, fun h => h⟩
  simp only [halloc]
  have hnew0 := adds_fileAlloc (hs f0) href0
  have hone0 : ((s.tables.setFile f0 { File.none with ref := 1 }).flist f0).ref = 1 := by
    rw [setFile]
    dsimp only
    rw [update_self]
  generalize hs1 : { s with tables := s.tables.setFile f0 { File.none with ref := 1 } } = s1
    at hnew0 ⊢
  have hspare1 := hnew0.spare
  have hpos0 : 0 < s1.tables.spare f0 := by
    have hold := hs f0
    rw [hspare1, refsOf_some, if_pos rfl]
    omega
  have hone1 : (s1.tables.flist f0).ref = 1 := by
    rw [← hs1]
    exact hone0
  obtain ⟨-, halloc⟩ | ⟨f1, href1, halloc⟩ := s1.fileAlloc_cases
  · simp only [halloc]
    exact .inl ⟨_, rfl, (hnew0.trans (adds_fileClose hpos0)).congr fun g => by omega⟩
  simp only [halloc]
  have hne : f0 ≠ f1 := by
    rintro rfl
    omega
  have hnn : 0 ≤ s1.tables.spare f1 := by
    have hold := hs f1
    have hrefs := refsOf_nonneg [some f0] f1
    rw [hspare1]
    omega
  have hnew1 := adds_fileAlloc hnn href1
  refine .inr ⟨f0, f1, _, rfl, (hnew0.trans (hnew1.trans (adds_initPipe hne ?_ ?_ ?_ ?_ channel))).congr
    fun g => by omega⟩
  · have hrefs := refsOf_nonneg [some f1] f0
    rw [hnew1.spare]
    omega
  · rw [hnew1.spare, refsOf_some, if_pos rfl]
    omega
  · rw [setFile]
    dsimp only
    rw [update_of_ne hne, hone1]
  · rw [setFile]
    dsimp only
    rw [update_self]

theorem adds_closeBoth {f0 f1 : Fin NFILE} (hs : ∀ g, 0 ≤ s.tables.spare g)
    (h : s.Adds s' fun g => refsOf [some f0] g + refsOf [some f1] g) :
    s.Adds ((s'.fileClose f0).fileClose f1) fun _ => 0 := by
  have hpos0 : 0 < s'.tables.spare f0 := by
    have hold := hs f0
    have hrefs := refsOf_nonneg [some f1] f0
    rw [h.spare, refsOf_some f0, if_pos rfl]
    omega
  have hclose0 := adds_fileClose hpos0
  have hpos1 : 0 < (s'.fileClose f0).tables.spare f1 := by
    have hold := hs f1
    rw [hclose0.spare, h.spare, refsOf_some f1, if_pos rfl]
    omega
  exact (h.trans (hclose0.trans (adds_fileClose hpos1))).congr fun g => by omega

theorem pipe2_keeps (hl : s.tables.Live p) (hs : ∀ g, 0 ≤ s.tables.spare g) (flags : Int)
    (channel : Nat) (hok : s.PipeOk writeEnd) :
    s.Keeps (s.pipe2 p flags channel writeEnd).2 := by
  rw [pipe2]
  split
  · exact .refl s
  obtain ⟨s1, halloc, hadds⟩ | ⟨f0, f1, s1, halloc, hadds⟩ := pipeAlloc_cases hs channel hok
  · simp only [halloc]
    exact hadds.keeps fun _ => rfl
  simp only [halloc]
  obtain ⟨hfull, hfd⟩ | ⟨fd, hlt, hnone, hfd⟩ := s1.fdalloc_cases p f0
  · simp only [hfd]
    obtain ⟨-, hfd⟩ | ⟨fd, hlt, hnone, -⟩ := s1.fdalloc_cases p f1
    · simp only [hfd]
      exact (adds_closeBoth hs hadds).keeps fun _ => rfl
    · exact absurd hnone (hfull fd hlt)
  simp only [hfd]
  have hl1 := hadds.same.live hl
  have hput := adds_setOfile hl1 hlt (some f0)
  rw [hnone] at hput
  have hself : (({ s1 with tables := s1.tables.setOfile p fd (some f0) } :
      Descriptors).tables.procs p).ofile fd = some f0 := by
    simp [setOfile, setProc]
  generalize { s1 with tables := s1.tables.setOfile p fd (some f0) } = s2 at hput hself ⊢
  obtain ⟨-, hfd⟩ | ⟨fd', hlt', hnone', hfd⟩ := s2.fdalloc_cases p f1
  · simp only [hfd]
    have htake := adds_setOfile (hput.same.live hl1) hlt none
    rw [hself] at htake
    have hback := (hadds.trans (hput.trans htake)).congr
      (e := fun g => refsOf [some f0] g + refsOf [some f1] g) fun g => by
        omega
    exact (adds_closeBoth hs hback).keeps fun _ => rfl
  · simp only [hfd]
    have hput' := adds_setOfile (hput.same.live hl1) hlt' (some f1)
    refine (hadds.trans (hput.trans hput')).keeps fun g => ?_
    rw [hnone', refsOf_none]
    omega

/-! ### Failure of `pipe2` -/

theorem close_one (h : (t.flist f).ref = 1) : t.close f = t.setFile f File.none := by
  rw [Tables.close, h, if_neg (by decide), if_neg (by decide)]

theorem setFile_back {x : File} (h : t.flist f = File.none) (href : x.ref = 1) :
    (t.setFile f x).close f = t := by
  rw [close_one]
  · simp only [setFile, update_idem, ← h, update_eq_self]
  · simp only [setFile, update_self, href]

theorem setOfile_back {fd : Nat} (h : (t.procs p).ofile fd = none)
    (x : Option (Fin NFILE)) : (t.setOfile p fd x).setOfile p fd none = t := by
  simp only [setOfile, setProc, update_idem, update_self, ← h, update_eq_self]

/-- A failed `pipe_alloc` has changed no table, and closing both ends undoes one that succeeds. -/
theorem pipeAlloc_undo (channel : Nat) (hok : s.PipeOk writeEnd)
    (hfree : ∀ f, (s.tables.flist f).ref = 0 → s.tables.flist f = File.none) :
    (∃ s', s.pipeAlloc channel writeEnd = (none, s') ∧ s'.tables = s.tables) ∨
    ∃ f0 f1 s', s.pipeAlloc channel writeEnd = (some (f0, f1), s') ∧
      (s'.tables.close f0).close f1 = s.tables := by
  rw [pipeAlloc]
  obtain ⟨hfull, halloc⟩ | ⟨f0, href0, halloc⟩ := s.fileAlloc_cases
  · rw [halloc, hok hfull]
    exact .inl ⟨s, rfl, rfl⟩
  simp only [halloc]
  have hnew := setFile_back (hfree f0 href0) (x := { File.none with ref := 1 }) rfl
  generalize hs1 : s.tables.setFile f0 { File.none with ref := 1 } = t at hnew ⊢
  obtain ⟨-, halloc⟩ | ⟨f1, href1, halloc⟩ := fileAlloc_cases { s with tables := t }
  · simp only [halloc]
    exact .inl ⟨_, rfl, (fileClose_tables _ f0).trans hnew⟩
  simp only [halloc]
  refine .inr ⟨f0, f1, _, rfl, ?_⟩
  subst hs1
  have hne : f1 ≠ f0 := by
    rintro rfl
    simp [setFile] at href1
  have hf1 := hfree f1 (by simpa [setFile, update_of_ne hne] using href1)
  rw [close_one (f := f0), close_one]
  · simp only [setFile, update_comm hne, update_idem]
    rw [← hfree f0 href0, update_eq_self, hfree f0 href0, ← hf1, update_eq_self]
  · simp only [setFile, update_of_ne hne, update_self]
  · simp only [setFile, update_of_ne hne.symm, update_self]

/-- `file_close` of a `File` with a reference takes one away. -/
theorem close_ne (h : 0 < (t.flist f).ref) : t.close f ≠ t := by
  intro heq
  have hsame := congrArg (fun t => (t.flist f).ref) heq
  rw [Tables.close, if_neg (by omega)] at hsame
  dsimp only at hsame
  split at hsame <;> simp only [setFile, update_self, File.none] at hsame <;> omega

/-- A call of `pipe2` that fails leaves all files and descriptors as they were, if and only if the
flags are not `0` or the variable `write_end` is `NULL` when it is read without a value. -/
theorem pipe2_fails_cleanly (flags : Int) (channel : Nat) {writeEnd : Option (Fin NFILE)}
    (href : ∀ f, 0 ≤ (s.tables.flist f).ref)
    (hfree : ∀ f, (s.tables.flist f).ref = 0 → s.tables.flist f = File.none)
    (hfail : (s.pipe2 p flags channel writeEnd).1 = -1) :
    (s.pipe2 p flags channel writeEnd).2.tables = s.tables ↔ flags ≠ 0 ∨ s.PipeOk writeEnd := by
  rw [pipe2] at hfail ⊢
  by_cases hflags : flags ≠ 0
  · simp [hflags]
  rw [if_neg hflags] at hfail ⊢
  simp only [hflags, false_or]
  constructor
  · intro hsame hfull
    -- otherwise the cleanup of `pipe_alloc` closes the `File`
    cases writeEnd with
    | none => rfl
    | some f =>
      have hpos : (s.tables.flist f).ref ≠ 0 :=
        findFree_none hfull f (Nat.zero_le _) (by omega)
      rw [pipeAlloc, fileAlloc, hfull] at hsame
      exact absurd ((s.fileClose_tables f).symm.trans hsame) (close_ne (by have := href f; omega))
  intro hok
  obtain ⟨s', halloc, hsame⟩ | ⟨f0, f1, s', halloc, hback⟩ := pipeAlloc_undo channel hok hfree
  · rw [halloc]
    exact hsame
  simp only [halloc] at hfail ⊢
  obtain ⟨hfull, hfd⟩ | ⟨fd, -, hnone, hfd⟩ := s'.fdalloc_cases p f0
  · obtain ⟨-, hfd'⟩ | ⟨fd, hlt, hnone, -⟩ := s'.fdalloc_cases p f1
    · simp only [hfd, hfd', fileClose_tables, hback]
    · exact absurd hnone (hfull fd hlt)
  simp only [hfd] at hfail ⊢
  obtain ⟨-, hfd'⟩ | ⟨fd', -, -, hfd'⟩ :=
    fdalloc_cases { s' with tables := s'.tables.setOfile p fd (some f0) } p f1
  · simp only [hfd', fileClose_tables, setOfile_back hnone, hback]
  · simp only [hfd'] at hfail
    cases hfail

theorem pipe2_fails_cleanly_no_descriptor : ∃ s : Descriptors,
    (s.pipe2 0 0 7 (some 5)).1 = -1 ∧ (s.pipe2 0 0 7 (some 5)).2.tables = s.tables := by
  let t : Tables := ⟨fun _ => File.none, fun _ => ⟨some 1, fun _ => some 9, []⟩, 1, some 1, 0⟩
  let s : Descriptors := ⟨t, []⟩
  have hfail : (s.pipe2 0 0 7 (some 5)).1 = -1 := rfl
  have hclean := pipe2_fails_cleanly 0 7 (fun _ => Int.le_refl 0) (fun _ _ => rfl) hfail
  exact ⟨s, hfail, hclean.mpr (.inr nofun)⟩

/-- With no `File` free, `pipe2` closes the one that `write_end` happens to point to. -/
theorem pipe2_closes_other : ∃ s : Descriptors, (∀ f, (s.tables.flist f).ref = 1) ∧
    (s.pipe2 0 0 7 (some 0)).1 = -1 ∧ ((s.pipe2 0 0 7 (some 0)).2.tables.flist 0).ref = 0 := by
  let t : Tables :=
    ⟨fun _ => ⟨.FD_INODE, 1, true, true, some 7, 0⟩, fun _ => ⟨some 1, fun _ => none, []⟩, 1, some 1, 0⟩
  let s : Descriptors := ⟨t, []⟩
  have hpipe : s.pipe2 0 0 7 (some 0) = (-1, s.fileClose 0) := by
    obtain ⟨-, halloc⟩ | ⟨f, href, -⟩ := s.fileAlloc_cases
    · rw [pipe2, if_neg (by decide), pipeAlloc, halloc]
      rfl
    · cases href
  refine ⟨s, fun _ => rfl, ?_, ?_⟩
  · rw [hpipe]
  · rw [hpipe]
    rfl

/-! ## Calls on sections -/

variable {l : List Section} {i : Nat} {st : Section}

theorem adds_setSections (hl : s.tables.Live p) (hsec : ∀ f, some f ∈ l.map Section.fp →
      some f ∈ (s.tables.procs p).sections.map Section.fp ∨
        (s.tables.flist f).type = .FD_INODE) :
    s.Adds { s with tables := s.tables.setSections p l } fun g =>
      refsOf ((s.tables.procs p).sections.map Section.fp) g - refsOf (l.map Section.fp) g :=
  adds_tables (s.tables.sameCwd_setProc p rfl) (spare_setSections hl l)
    fun h => h.setSections hsec

theorem mmap_cases (s : Descriptors) (p addr : Nat) (length : Int) (prot flags : Nat) (fd : Int)
    (offset : Nat) (regular : Bool) :
    (s.mmap p addr length prot flags fd offset regular).1 = -1 ∧
      ((s.mmap p addr length prot flags fd offset regular).2 = s ∨
        ∃ f, s.fd2file p fd = some f ∧ (s.mmap p addr length prot flags fd offset regular).2 =
          s.follow .ip (s.tables.flist f).type) ∨
    regular = true ∧ ∃ f n st, s.fd2file p fd = some f ∧ st.fp = some f ∧
      (s.mmap p addr length prot flags fd offset regular).2 =
        { s.follow .ip (s.tables.flist f).type with
          tables := ({ s.tables with nextAddr := n }.dup f).setSections p
            (st :: (s.tables.procs p).sections) } := by
  rw [mmap]
  split
  · cases hfd : s.fd2file p fd with
    | none => exact .inl ⟨rfl, .inl rfl⟩
    | some f =>
      dsimp only
      split
      · split
        · exact .inl ⟨rfl, .inl rfl⟩
        split
        · exact .inl ⟨rfl, .inl rfl⟩
        cases regular with
        | false => exact .inl ⟨rfl, .inr ⟨f, rfl, rfl⟩⟩
        | true =>
          let size := FileSys.roundUp length.toNat PAGE_SIZE
          refine .inr ⟨rfl, f,
            if addr = 0 then usize (s.tables.nextAddr + size) else s.tables.nextAddr,
            ⟨FileSys.ST_FILE, flags, if addr = 0 then s.tables.nextAddr else addr,
              usize ((if addr = 0 then s.tables.nextAddr else addr) + size), some f, offset,
              size⟩, rfl, rfl, ?_⟩
          by_cases ha : addr = 0
          · simp only [ha, if_true]
            rfl
          · simp only [ha, if_false]
            rfl
      · exact .inl ⟨rfl, .inl rfl⟩
  · exact .inl ⟨rfl, .inl rfl⟩

section mmap

variable (addr : Nat) (length : Int) (prot flags : Nat) (fd : Int) (offset : Nat) (regular : Bool)

theorem mmap_spare (hl : s.tables.Live p) (g : Fin NFILE) :
    (s.mmap p addr length prot flags fd offset regular).2.tables.spare g = s.tables.spare g := by
  obtain ⟨-, hs | ⟨f, -, hs⟩⟩ | ⟨-, f, n, st, -, hst, hs⟩ :=
    s.mmap_cases p addr length prot flags fd offset regular
  · rw [hs]
  · rw [hs]
    rfl
  have hl' : Tables.Live ({ s.tables with nextAddr := n }.dup f) p := hl
  have hdup : spare ({ s.tables with nextAddr := n }.dup f) g =
      s.tables.spare g + refsOf [some f] g := spare_dup _ f g
  have hcons := refsOf_cons (some f) ((s.tables.procs p).sections.map fp) g
  rw [hs]
  rw [spare_setSections hl', hdup, map_cons, hst]
  show _ + (refsOf ((s.tables.procs p).sections.map fp) g - _) = _
  omega

theorem mmap_typed (h : ∀ f, s.fd2file p fd = some f → (s.tables.flist f).type = .FD_INODE)
    (hw : s.WellTyped) : (s.mmap p addr length prot flags fd offset regular).2.WellTyped := by
  obtain ⟨-, hs | ⟨f, hfd, hs⟩⟩ | ⟨-, f, n, st, hfd, hst, hs⟩ :=
    s.mmap_cases p addr length prot flags fd offset regular
  · rw [hs]
    exact hw
  · rw [hs]
    exact follow_wellTyped hw (h f hfd)
  have htype : ((Tables.dup { s.tables with nextAddr := n } f).flist f).type = .FD_INODE := by
    rw [Tables.dup, Tables.setFile]
    dsimp only
    rw [update_self]
    exact h f hfd
  have hold : Tables.Typed { s.tables with nextAddr := n } := hw.sections
  rw [hs]
  have hfollow : (s.follow .ip (s.tables.flist f).type).WellTyped := follow_wellTyped hw (h f hfd)
  refine ⟨(hold.dup f).setSections fun g hg => ?_, hfollow.derefs⟩
  rw [map_cons, hst] at hg
  obtain hgf | hg := mem_cons.mp hg
  · cases hgf
    exact .inr htype
  · exact .inl hg

end mmap

theorem adds_fileCloseOpt {x : Option (Fin NFILE)} (h : ∀ g, refsOf [x] g ≤ s.tables.spare g) :
    s.Adds (s.fileCloseOpt x) fun g => -refsOf [x] g := by
  cases x with
  | none => exact ⟨.refl _, fun _ => (Int.add_zero _).symm, fun hw => hw⟩
  | some f =>
    have hpos := h f
    rw [refsOf_some, if_pos rfl] at hpos
    exact adds_fileClose (by omega)

theorem refsOf_eraseIdx (hi : l[i]? = some st) (g : Fin NFILE) : refsOf (l.map Section.fp) g =
      refsOf [st.fp] g + refsOf ((l.eraseIdx i).map Section.fp) g := by
  obtain ⟨hlt, rfl⟩ := List.getElem?_eq_some_iff.mp hi
  have hperm := (getElem_cons_eraseIdx_perm hlt).map fp
  rw [← refsOf_perm hperm, map_cons, refsOf_cons]

theorem map_fp_set (hi : l[i]? = some st)
    (hfp : st'.fp = st.fp) : (l.set i st').map Section.fp = l.map Section.fp := by
  obtain ⟨hlt, rfl⟩ := List.getElem?_eq_some_iff.mp hi
  rw [map_set, hfp]
  apply ext_getElem
  · rw [length_set]
  · intro j h1 h2
    obtain rfl | hj := eq_or_ne i j
    · rw [getElem_set_self, getElem_map]
    · rw [getElem_set_ne hj]

theorem setSection_keeps (hl : s.tables.Live p)
    (hi : (s.tables.procs p).sections[i]? = some st) (hfp : st'.fp = st.fp) :
    s.Keeps { s with
      tables := s.tables.setSections p ((s.tables.procs p).sections.set i st') } := by
  have hsame := map_fp_set hi hfp
  refine (adds_setSections hl fun f hf => .inl ?_).keeps fun g => ?_
  · rwa [hsame] at hf
  · rw [hsame, Int.sub_self]

theorem dropSection_keeps (hl : s.tables.Live p) (hs : ∀ g, 0 ≤ s.tables.spare g)
    (hi : (s.tables.procs p).sections[i]? = some st) (start mappedLen : Nat) :
    s.Keeps (s.dropSection p i st start mappedLen).2 := by
  rw [dropSection]
  split
  · have hcount := refsOf_eraseIdx hi
    have hdrop := adds_setSections hl (l := (s.tables.procs p).sections.eraseIdx i) fun f hf =>
      .inl ((eraseIdx_sublist ..).map fp |>.subset hf)
    refine (hdrop.trans (adds_fileCloseOpt fun g => ?_)).keeps fun g => ?_
    · have hold := hs g
      rw [hdrop.spare, hcount]
      omega
    · rw [hcount]
      omega
  · split
    · exact .refl s
    · split
      · exact setSection_keeps hl hi rfl
      · split
        · exact setSection_keeps hl hi rfl
        · exact .refl s

theorem writeBack_ok {pages : List Nat} (h : s.writeBack st pages = .ok s') : s'.tables = s.tables ∧
      ((∀ f, st.fp = some f → (s.tables.flist f).type = .FD_INODE) → s.WellTyped →
        s'.WellTyped) := by
  induction pages generalizing s with
  | nil =>
    cases h
    exact ⟨rfl, fun _ hw => hw⟩
  | cons page pages ih =>
    rw [writeBack] at h
    cases hfp : st.fp with
    | none =>
      rw [hfp] at h
      cases h
    | some f =>
      rw [hfp] at h
      obtain ⟨ht, hw'⟩ := ih h
      refine ⟨ht, fun htype hw => hw' ?_ (follow_wellTyped hw (htype f rfl))⟩
      rw [hfp]
      exact htype

theorem munmap_keeps (hl : s.tables.Live p) (hs : ∀ g, 0 ≤ s.tables.spare g) {addr length : Nat}
    {mapped : Nat → Bool} {r : Int} (h : s.munmap p addr length mapped = .ok (r, s')) :
    s.Keeps s' := by
  rw [munmap] at h
  split at h
  · cases h
    exact .refl s
  dsimp only at h
  split at h
  · cases h
    exact .refl s
  next i _ =>
    split at h
    · cases h
      exact .refl s
    next st hi =>
      split at h
      · split at h
        next s1 hwb =>
          obtain ⟨ht, hw⟩ := writeBack_ok hwb
          have hback : s.Keeps s1 := by
            refine ⟨fun g => by rw [ht], fun hs => hw (fun f hf => ?_) hs⟩
            have hmem := mem_map_of_mem (f := fp) (mem_of_getElem? hi)
            rw [hf] at hmem
            exact hs.sections p hl f hmem
          rw [← ht] at hl hs hi
          have hdrop := dropSection_keeps hl hs hi (FileSys.roundDown addr PAGE_SIZE)
            (FileSys.roundUp length PAGE_SIZE)
          rw [Except.ok.inj h] at hdrop
          exact hback.trans hdrop
        next => cases h
      · have hdrop := dropSection_keeps hl hs hi (FileSys.roundDown addr PAGE_SIZE)
          (FileSys.roundUp length PAGE_SIZE)
        rw [Except.ok.inj h] at hdrop
        exact hdrop

/-! ## Processes -/

theorem foldl_dupOpt (l : List (Option (Fin NFILE))) (t : Tables) :
    (l.foldl dupOpt t).procs = t.procs ∧ (l.foldl dupOpt t).nprocs = t.nprocs ∧
      (∀ g, (l.foldl dupOpt t).spare g = t.spare g + refsOf l g) ∧
      (t.Typed → (l.foldl dupOpt t).Typed) := by
  induction l generalizing t with
  | nil => exact ⟨rfl, rfl, fun g => (Int.add_zero _).symm, fun h => h⟩
  | cons x l ih =>
    obtain ⟨hprocs, hn, hspare, htyped⟩ := ih (dupOpt t x)
    rw [foldl_cons]
    cases x with
    | none =>
      refine ⟨hprocs, hn, fun g => ?_, htyped⟩
      exact hspare g
    | some f =>
      refine ⟨hprocs, hn, fun g => ?_, fun h => htyped (h.dup f)⟩
      have hdup := t.spare_dup f g
      rw [hspare, refsOf_cons]
      dsimp only [dupOpt]
      omega

theorem clone_keeps (hl : s.tables.Live p) (flag : Int) : s.Keeps (s.clone p flag).2 := by
  rw [clone]
  split
  · exact .refl s
  obtain ⟨hprocs1, hn1, hspare1, htyped1⟩ :=
    foldl_dupOpt ((s.tables.procs p).sections.map fp) s.tables
  generalize hfold1 : ((s.tables.procs p).sections.map fp).foldl dupOpt s.tables = t1
    at hprocs1 hn1 hspare1 htyped1
  obtain ⟨hprocs2, hn2, hspare2, htyped2⟩ :=
    foldl_dupOpt ((List.range NOFILE).map (s.tables.procs p).ofile) t1
  dsimp only
  rw [hfold1]
  generalize ((List.range NOFILE).map (s.tables.procs p).ofile).foldl dupOpt t1 = t2
    at hprocs2 hn2 hspare2 htyped2 ⊢
  have hrev : ((s.tables.procs p).sections.reverse.map fp).Perm
      ((s.tables.procs p).sections.map fp) := (reverse_perm _).map fp
  have hprocs := hprocs2.trans hprocs1
  refine ⟨fun g => ?_, fun hw => ⟨?_, hw.derefs⟩⟩
  · rw [spare_addProc, hspare2, hspare1, ProcFiles.holds_live (by exact hl.2)]
    dsimp only
    rw [refsOf_perm hrev]
    omega
  have hl2 : t2.Live p := by
    rw [Tables.Live, hprocs, hn2, hn1]
    exact hl
  refine (htyped2 (htyped1 hw.sections)).addProc hl2 fun f hf => ?_
  rw [hprocs]
  exact hrev.mem_iff.mp hf

theorem refsOf_program (segments : List (Nat × Nat × Nat)) (g : Fin NFILE) :
    some g ∉ (FileSys.stackSection ::
      segments.map fun seg => ⟨seg.1, 0, seg.2.1, seg.2.2, none, 0, 0⟩).map Section.fp := by
  simp [FileSys.stackSection]

theorem execve_adds (hl : s.tables.Live p) (segments : List (Nat × Nat × Nat)) :
    s.Adds (s.execve p (some segments)).2
      (refsOf ((s.tables.procs p).sections.map Section.fp)) := by
  refine (adds_setSections hl fun f hf => absurd hf (refsOf_program segments f)).congr fun g => ?_
  rw [refsOf_eq_zero (refsOf_program segments g), Int.sub_zero]

/-! ### `exit` -/

theorem close_setOfile (t : Tables) (p fd : Nat) (f : Fin NFILE) (x : Option (Fin NFILE)) :
    (t.setOfile p fd x).close f = (t.close f).setOfile p fd x := by
  have hflist : (t.setOfile p fd x).flist = t.flist := rfl
  rw [Tables.close, Tables.close, hflist]
  split
  · rfl
  · split <;> rfl

theorem fileClose_setOfile (s : Descriptors) (p fd : Nat) (f : Fin NFILE) (x : Option (Fin NFILE)) :
    fileClose { s with tables := s.tables.setOfile p fd x } f =
      { s.fileClose f with tables := (s.fileClose f).tables.setOfile p fd x } := by
  have hflist : (s.tables.setOfile p fd x).flist = s.tables.flist := rfl
  rw [fileClose_tables, ← close_setOfile, fileClose, fileClose]
  rw [hflist]
  split
  · rfl
  · cases (s.tables.flist f).type with
    | FD_NONE => rfl
    | FD_PIPE => dsimp only; split <;> rfl
    | FD_INODE => dsimp only; split <;> rfl

theorem procs_close (t : Tables) (f : Fin NFILE) : (t.close f).procs = t.procs := by
  rw [Tables.close]
  split
  · rfl
  · split <;> rfl

theorem closeFd_adds (hl : s.tables.Live p) (hs : ∀ g, 0 ≤ s.tables.spare g) (hfd : fd < NOFILE) :
    s.Adds (closeFd p s fd) fun _ => 0 := by
  rw [closeFd]
  cases hf : (s.tables.procs p).ofile fd with
  | none => exact ⟨.refl _, fun _ => (Int.add_zero _).symm, fun hw => hw⟩
  | some f =>
    dsimp only
    rw [← fileClose_setOfile]
    exact adds_closeFile hl hs hfd hf

theorem closeFd_proc (s : Descriptors) (p fd : Nat) :
    (closeFd p s fd).tables.procs p = { s.tables.procs p with
      ofile := update (s.tables.procs p).ofile fd none } := by
  rw [closeFd]
  cases hf : (s.tables.procs p).ofile fd with
  | none =>
    have hsame : update (s.tables.procs p).ofile fd none = (s.tables.procs p).ofile := by
      rw [← hf, update_eq_self]
    rw [hsame]
  | some f =>
    dsimp only [setOfile, setProc]
    rw [update_self, fileClose_tables, procs_close]

theorem foldl_closeFd (hl : s.tables.Live p) (hs : ∀ g, 0 ≤ s.tables.spare g) {l : List Nat}
    (hfds : ∀ fd ∈ l, fd < NOFILE) :
    s.Adds (l.foldl (closeFd p) s) (fun _ => 0) ∧
      ∀ fd, fd ∈ l ∨ (s.tables.procs p).ofile fd = none →
        ((l.foldl (closeFd p) s).tables.procs p).ofile fd = none := by
  induction l generalizing s with
  | nil =>
    refine ⟨⟨.refl _, fun _ => (Int.add_zero _).symm, fun hw => hw⟩, fun fd h => ?_⟩
    obtain h | h := h
    · cases h
    · exact h
  | cons fd0 l ih =>
    have hfirst := closeFd_adds hl hs (hfds fd0 (mem_cons_self ..))
    have hproc := closeFd_proc s p fd0
    have hs' : ∀ g, 0 ≤ (closeFd p s fd0).tables.spare g := fun g => by
      rw [hfirst.spare, Int.add_zero]
      exact hs g
    obtain ⟨hrest, hnone⟩ := ih (hfirst.same.live hl) hs' fun fd h =>
      hfds fd (mem_cons_of_mem _ h)
    refine ⟨(hfirst.trans hrest).congr fun _ => rfl, fun fd h => hnone fd ?_⟩
    rw [hproc]
    dsimp only
    by_cases hfd : fd = fd0
    · rw [hfd, update_self]
      exact .inr rfl
    · rw [update_of_ne hfd]
      obtain hmem | h := h
      · exact .inl ((mem_cons.mp hmem).resolve_left hfd)
      · exact .inr h

theorem foldl_fileCloseOpt {l : List (Option (Fin NFILE))}
    (h : ∀ g, refsOf l g ≤ s.tables.spare g) :
    s.Adds (l.foldl fileCloseOpt s) fun g => -refsOf l g := by
  induction l generalizing s with
  | nil => exact ⟨.refl _, fun _ => (Int.add_zero _).symm, fun hw => hw⟩
  | cons x l ih =>
    have hx : ∀ g, refsOf [x] g ≤ s.tables.spare g := fun g => by
      have hall := h g
      have hrest := refsOf_nonneg l g
      rw [refsOf_cons] at hall
      omega
    have hfirst := adds_fileCloseOpt hx
    have hrest := ih fun g => by
      have hall := h g
      rw [refsOf_cons] at hall
      rw [hfirst.spare]
      omega
    refine (hfirst.trans hrest).congr fun g => ?_
    rw [refsOf_cons x l]
    omega

theorem exit_keeps (hl : s.tables.Live p) (hs : ∀ g, 0 ≤ s.tables.spare g) :
    s.Keeps (s.exit p) := by
  obtain ⟨hloop, hnone⟩ := foldl_closeFd hl hs fun fd h => mem_range.mp h
  rw [exit]
  generalize (List.range NOFILE).foldl (closeFd p) s = s1 at hloop hnone ⊢
  have hl1 := hloop.same.live hl
  have hfree : ∀ g, refsOf ((List.range NOFILE).map (s1.tables.procs p).ofile) g = 0 := fun g => by
    refine refsOf_eq_zero fun hg => ?_
    obtain ⟨fd, hfd, hg⟩ := mem_map.mp hg
    rw [hnone fd (.inl hfd)] at hg
    cases hg
  have hcwd : ∀ g, (s1.tables.setCwd p none).spare g =
      s1.tables.spare g + refsOf ((s1.tables.procs p).sections.map fp) g := fun g => by
    have hdead : ProcFiles.holds { s1.tables.procs p with cwd := none } g = 0 := rfl
    rw [setCwd, spare_setProc hl1.1, hdead, ProcFiles.holds_live hl1.2, hfree]
    omega
  have hsections : ((s1.tables.setCwd p none).procs p).sections = (s1.tables.procs p).sections := by
    rw [setCwd, setProc]
    dsimp only
    rw [update_self]
  have hclose := foldl_fileCloseOpt (s := { s1 with tables := s1.tables.setCwd p none })
    (l := (s1.tables.procs p).sections.map fp) fun g => by
      have hold := hs g
      have hkept := hloop.spare g
      rw [hcwd]
      omega
  rw [hsections]
  refine ⟨fun g => ?_, fun hw => hclose.typed ?_⟩
  · have hkept := hloop.spare g
    rw [hclose.spare, hcwd]
    omega
  · have hw1 := hloop.typed hw
    refine ⟨hw1.sections.setProc fun _ hc => ?_, hw1.derefs⟩
    cases hc

end Descriptors

end OsKernel
