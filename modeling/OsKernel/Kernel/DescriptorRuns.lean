import OsKernel.Kernel.DescriptorCalls

/-!
# Runs of calls on descriptors

Two results about every run of `Descriptors.step`.  The `ref` of a `File` is the number of
references to it, unless a process with a mapped file calls `execve`.  A pointer of a `File` is
only followed by its type, unless `mmap` gets a descriptor of a pipe.  Both need the
variable `write_end` of `pipe2` to be `NULL` when `pipe_alloc` reads it without a value.
-/

namespace OsKernel

variable {iov : List (Bool × Int × Int)}

namespace Descriptors

variable {s s' : Descriptors} {p : Nat} {f : Fin NFILE}

/-! ## Calls that reach through a descriptor -/

variable {result r fd : Int} {user : Bool} {a : Nat × DescCall}

theorem fileRead_keeps (h : s.fileRead f result = .ok (r, s')) : s.Keeps s' := by
  rw [fileRead] at h
  split at h
  · cases h
    exact .refl s
  split at h
  next htype =>
    cases h
    exact keeps_follow htype
  next htype =>
    cases h
    exact keeps_follow htype
  next => cases h

theorem fileWrite_keeps {n : Int} (h : s.fileWrite f n result = .ok (r, s')) : s.Keeps s' := by
  rw [fileWrite] at h
  split at h
  · cases h
    exact .refl s
  split at h
  next htype =>
    cases h
    exact keeps_follow htype
  next htype =>
    split at h
    · cases h
      exact keeps_follow htype
    · split at h
      · cases h
        exact .refl s
      · cases h
  next => cases h

theorem read_keeps {size : Int} (h : s.read p fd size user result = .ok (r, s')) : s.Keeps s' := by
  rw [read] at h
  split at h
  · cases h
    exact .refl s
  · split at h
    · cases h
      exact .refl s
    · exact fileRead_keeps h

theorem write_keeps {size : Int}
    (h : s.write p fd size user result = .ok (r, s')) : s.Keeps s' := by
  rw [write] at h
  split at h
  · cases h
    exact .refl s
  · split at h
    · cases h
      exact .refl s
    · exact fileWrite_keeps h

theorem writevLoop_keeps {tot : Int} (h : writevLoop f tot iov s = .ok (r, s')) : s.Keeps s' := by
  induction iov generalizing s tot with
  | nil =>
    cases h
    exact .refl _
  | cons v iov ih =>
    rw [writevLoop] at h
    split at h
    · cases h
      exact .refl _
    · split at h
      next hw => exact (fileWrite_keeps hw).trans (ih h)
      next => cases h

theorem writev_keeps (h : s.writev p fd user iov = .ok (r, s')) : s.Keeps s' := by
  rw [writev] at h
  split at h
  · cases h
    exact .refl s
  · split at h
    · cases h
      exact .refl s
    · exact writevLoop_keeps h

theorem fstat_keeps (fd : Int) (user : Bool) : s.Keeps (s.fstat p fd user).2 := by
  rw [fstat]
  split
  · exact .refl s
  dsimp only
  split
  · exact .refl s
  split
  · exact .refl s
  next htype =>
    split
    · exact .refl s
    · exact keeps_follow (not_not.mp htype)

theorem pgfault_keeps (addr : Nat) : s.Keeps (s.pgfault p addr).2 := by
  rw [pgfault]
  split
  · exact .refl s
  split
  · exact .refl s
  split
  · exact .refl s
  dsimp only
  split
  · exact .refl s
  next htype => exact keeps_follow (not_not.mp (not_or.mp htype).2)

/-! ## Steps -/

theorem step_ok (h : s.step a = .ok s') : s.tables.Live a.1 ∧ ∃ r, s.run a.1 a.2 = .ok (r, s') := by
  obtain ⟨hl, h⟩ := Runs.guard_ok h
  split at h
  next r s1 hrun =>
    cases h
    exact ⟨hl, r, hrun⟩
  next => cases h

theorem keeps_of_ok {x : Int × Descriptors}
    (h : (.ok x : Except Runs.Stop (Int × Descriptors)) = .ok (r, s')) (hk : s.Keeps x.2) :
    s.Keeps s' := by
  rw [Except.ok.inj h] at hk
  exact hk

/-- The calls that keep the references from every state. -/
def DescCall.Plain : DescCall → Prop
  | .pipe2 .. | .mmap .. | .execve (some _) => False
  | _ => True

theorem run_keeps {call : DescCall} (hl : s.tables.Live p)
    (hs : ∀ g, 0 ≤ s.tables.spare g) (hrun : s.run p call = .ok (r, s')) (hplain : call.Plain) :
    s.Keeps s' := by
  cases call with
  | openat found wronly rdwr =>
    exact keeps_of_ok hrun (openat_keeps hl hs found wronly rdwr)
  | close fd =>
    exact keeps_of_ok hrun (close_keeps hl hs fd)
  | dup fd =>
    exact keeps_of_ok hrun (dup_keeps hl fd)
  | pipe2 flags channel writeEnd => exact hplain.elim
  | mmap addr length prot flags fd offset regular => exact hplain.elim
  | munmap addr length mapped => exact munmap_keeps hl hs hrun
  | clone flag =>
    exact keeps_of_ok hrun (clone_keeps hl flag)
  | execve segments =>
    cases segments with
    | none =>
      cases hrun
      exact .refl s
    | some segments => exact hplain.elim
  | exit =>
    exact keeps_of_ok hrun (exit_keeps hl hs)
  | read fd size user result => exact read_keeps hrun
  | write fd size user result => exact write_keeps hrun
  | writev fd user iov => exact writev_keeps hrun
  | fstat fd user =>
    exact keeps_of_ok hrun (fstat_keeps fd user)
  | pgfault addr =>
    exact keeps_of_ok hrun (pgfault_keeps addr)

/-! ## Exact counts -/

/-- `execve` is only called without mapped files, and `pipe2` does not close a file that it has not
opened. -/
def CountOk (s : Descriptors) : Nat × DescCall → Prop
  | (p, .execve (some _)) => ∀ st ∈ (s.tables.procs p).sections, st.fp = none
  | (_, .pipe2 _ _ writeEnd) => s.PipeOk writeEnd
  | _ => True

def Exact (s : Descriptors) : Prop := ∀ g, s.tables.spare g = 0

theorem holds_init (h : Init s) (g : Fin NFILE) : (s.tables.procs 0).holds g = 0 := by
  rw [ProcFiles.holds]
  split
  · refine refsOf_eq_zero fun hg => ?_
    rw [ProcFiles.held, h.sections] at hg
    simp [h.ofile] at hg
  · rfl

theorem Exact.init (h : Init s) : s.Exact := by
  intro g
  rw [Tables.spare, Tables.holders, h.nprocs, h.files, Finset.sum_range_one, holds_init h]
  rfl

theorem Exact.step (h : s.Exact) (hok : s.CountOk a) (hstep : s.step a = .ok s') : s'.Exact := by
  obtain ⟨hl, r, hrun⟩ := step_ok hstep
  have hs : ∀ g, 0 ≤ s.tables.spare g := fun g => (h g).ge
  have hkeeps : s.Keeps s' → s'.Exact := fun hk g => (hk.spare g).trans (h g)
  obtain ⟨p, call⟩ := a
  cases call with
  | mmap addr length prot flags fd offset regular =>
    intro g
    have hspare := mmap_spare addr length prot flags fd offset regular hl g
    rw [Except.ok.inj hrun] at hspare
    exact hspare.trans (h g)
  | execve segments =>
    cases segments with
    | none => exact hkeeps (run_keeps hl hs hrun trivial)
    | some segments =>
      have hnone : ∀ g, refsOf ((s.tables.procs p).sections.map Section.fp) g = 0 := by
        intro g
        refine refsOf_eq_zero fun hg => ?_
        obtain ⟨st, hst, hfp⟩ := List.mem_map.mp hg
        rw [hok st hst] at hfp
        cases hfp
      exact hkeeps (keeps_of_ok hrun ((execve_adds hl segments).keeps hnone))
  | pipe2 flags channel writeEnd =>
    exact hkeeps (keeps_of_ok hrun (pipe2_keeps hl hs flags channel hok))
  | _ => exact hkeeps (run_keeps hl hs hrun trivial)

/-! ## Types -/

/-- `mmap` is only called with descriptors of files with an inode, and `pipe2` does not close a file
that it has not opened. -/
def UnionOk (s : Descriptors) : Nat × DescCall → Prop
  | (p, .mmap _ _ _ _ fd _ _) =>
    ∀ f, s.fd2file p fd = some f → (s.tables.flist f).type = .FD_INODE
  | (_, .pipe2 _ _ writeEnd) => s.PipeOk writeEnd
  | _ => True

/-- No reference is missing, and everything is used by its type. -/
structure Sound (s : Descriptors) : Prop where
  spare : ∀ g, 0 ≤ s.tables.spare g
  typed : s.WellTyped

theorem Sound.init (h : Init s) : s.Sound := by
  refine ⟨fun g => (Exact.init h g).ge, fun p hl f hf => ?_, fun d hd => ?_⟩
  · obtain ⟨hp, -⟩ := hl
    have hzero : p = 0 := by
      rw [h.nprocs] at hp
      omega
    rw [hzero, h.sections] at hf
    cases hf
  · rw [h.derefs] at hd
    cases hd

theorem Sound.of_keeps (h : s.Sound) (hk : s.Keeps s') : s'.Sound :=
  ⟨fun g => (hk.spare g).symm ▸ h.spare g, hk.typed h.typed⟩

theorem Sound.step (h : s.Sound) (hok : s.UnionOk a) (hstep : s.step a = .ok s') : s'.Sound := by
  obtain ⟨hl, r, hrun⟩ := step_ok hstep
  obtain ⟨p, call⟩ := a
  cases call with
  | mmap addr length prot flags fd offset regular =>
    have hspare := mmap_spare addr length prot flags fd offset regular hl
    have htyped := mmap_typed addr length prot flags fd offset regular hok h.typed
    exact h.of_keeps (keeps_of_ok hrun ⟨hspare, fun _ => htyped⟩)
  | execve segments =>
    cases segments with
    | none => exact h.of_keeps (run_keeps hl h.spare hrun trivial)
    | some segments =>
      -- the references of the sections that are dropped are left over
      have hadds := execve_adds hl segments
      have hs' := congrArg Prod.snd (Except.ok.inj hrun)
      rw [hs'] at hadds
      refine ⟨fun g => ?_, hadds.typed h.typed⟩
      rw [hadds.spare]
      exact Int.add_nonneg (h.spare g) (refsOf_nonneg _ g)
  | pipe2 flags channel writeEnd =>
    exact h.of_keeps (keeps_of_ok hrun (pipe2_keeps hl h.spare flags channel hok))
  | _ => exact h.of_keeps (run_keeps hl h.spare hrun trivial)

def atBoot : Descriptors :=
  ⟨⟨fun _ => File.none, fun _ => ⟨some 0, fun _ => none, []⟩, 1, some 0, 0x100000⟩, []⟩

theorem init_atBoot : Init atBoot := ⟨rfl, rfl, fun _ => rfl, rfl, rfl⟩

instance (s : Descriptors) (writeEnd : Option (Fin NFILE)) : Decidable (s.PipeOk writeEnd) :=
  inferInstanceAs (Decidable (s.tables.findFree NFILE 0 = none → writeEnd = none))

instance (s : Descriptors) : (a : Nat × DescCall) → Decidable (s.CountOk a)
  | (p, .execve (some _)) =>
    inferInstanceAs (Decidable (∀ st ∈ (s.tables.procs p).sections, st.fp = none))
  | (_, .pipe2 _ _ writeEnd) => inferInstanceAs (Decidable (s.PipeOk writeEnd))
  | (_, .execve none) | (_, .openat ..) | (_, .close ..) | (_, .dup ..) | (_, .mmap ..)
  | (_, .munmap ..) | (_, .clone ..) | (_, .exit) | (_, .read ..) | (_, .write ..)
  | (_, .writev ..) | (_, .fstat ..) | (_, .pgfault ..) => .isTrue trivial

instance (s : Descriptors) : (a : Nat × DescCall) → Decidable (s.UnionOk a)
  | (p, .mmap _ _ _ _ fd _ _) =>
    match hfd : s.fd2file p fd with
    | none => .isTrue fun f hf => by rw [hfd] at hf; cases hf
    | some f =>
      decidable_of_iff ((s.tables.flist f).type = .FD_INODE)
        ⟨fun h g hg => by rw [hfd] at hg; cases hg; exact h, fun h => h f hfd⟩
  | (_, .pipe2 _ _ writeEnd) => inferInstanceAs (Decidable (s.PipeOk writeEnd))
  | (_, .execve ..) | (_, .openat ..) | (_, .close ..) | (_, .dup ..)
  | (_, .munmap ..) | (_, .clone ..) | (_, .exit) | (_, .read ..) | (_, .write ..)
  | (_, .writev ..) | (_, .fstat ..) | (_, .pgfault ..) => .isTrue trivial

end Descriptors

open Descriptors in
/-- The `ref` of every `File` is the number of descriptors and sections that point to it, and a
`File` whose `ref` is 0 is in no table. -/
theorem file_ref_exact {s : Descriptors} (h : Runs.Reach step CountOk Init s) (f : Fin NFILE) :
    (s.tables.flist f).ref = s.tables.holders f ∧
    ((s.tables.flist f).ref = 0 → ∀ p, s.tables.Live p →
      (∀ fd < NOFILE, (s.tables.procs p).ofile fd ≠ some f) ∧
      ∀ st ∈ (s.tables.procs p).sections, st.fp ≠ some f) := by
  have hexact : s.Exact :=
    h.invariant (fun _ => Exact.init) fun _ _ _ hs hok hstep => hs.step hok hstep
  have href : (s.tables.flist f).ref = s.tables.holders f := by
    have hspare := hexact f
    rw [Tables.spare] at hspare
    omega
  refine ⟨href, fun hzero p hl => ⟨fun fd hfd hf => ?_, fun st hst hf => ?_⟩⟩
  · have hnot := Tables.not_held (href ▸ hzero).le hl
    exact hnot (List.mem_append_left _ (List.mem_map.mpr ⟨fd, List.mem_range.mpr hfd, hf⟩))
  · have hnot := Tables.not_held_section (href ▸ hzero).le hl
    exact hnot (List.mem_map.mpr ⟨st, hst, hf⟩)

open Descriptors in
/-- A process opens a file, maps it, copies the descriptor, makes a pipe and clones itself; the
child exits. -/
theorem Descriptors.file_ref_exact_clone : ∃ s, Runs.Reach step CountOk Init s ∧
    (s.tables.flist 0).ref = 3 ∧ (s.tables.flist 0).ref = s.tables.holders 0 := by
  obtain ⟨s, hs, htest⟩ := Runs.Reach.of_guardedTest init_atBoot
    (by decide +kernel : Runs.execTest
      (Runs.guarded step (fun s a => decide (s.CountOk a)) .disabled) atBoot
      [(0, .openat (some 0) false true), (0, .mmap 0 1 0 2 0 0 true), (0, .dup 0),
        (0, .pipe2 0 0 none), (0, .clone 17), (1, .exit)]
      (fun s => decide ((s.tables.flist 0).ref = 3)) = true)
  exact ⟨s, hs, of_decide_eq_true htest, (file_ref_exact hs 0).1⟩

open Descriptors in
/-- The section of a mapped file goes with the old image, and the `File` keeps its reference. -/
theorem file_ref_leak : ∃ s, Runs.Reach step Runs.always Init s ∧
    (s.tables.flist 0).ref = 2 ∧ s.tables.holders 0 = 1 := by
  obtain ⟨s, hs, htest⟩ := Runs.Reach.of_execTest init_atBoot
    (by decide +kernel : Runs.execTest step atBoot
      [(0, .openat (some 0) false true), (0, .mmap 0 1 0 2 0 0 true), (0, .execve (some []))]
      (fun s => decide ((s.tables.flist 0).ref = 2 ∧ s.tables.holders 0 = 1)) = true)
  exact ⟨s, hs, of_decide_eq_true htest⟩

open Descriptors in
/-- The union in `File` is used by its type, and `mmap` of something else than a regular file fails
and leaves the tables. -/
theorem file_union_typed {s : Descriptors} (h : Runs.Reach step UnionOk Init s) :
    (∀ d ∈ s.derefs, d.Ok) ∧
    ∀ p addr length prot flags fd offset,
      (s.mmap p addr length prot flags fd offset false).1 = -1 ∧
      (s.mmap p addr length prot flags fd offset false).2.tables = s.tables := by
  have hsound : s.Sound :=
    h.invariant (fun _ => Sound.init) fun _ _ _ hs hok hstep => hs.step hok hstep
  refine ⟨hsound.typed.derefs, fun p addr length prot flags fd offset => ?_⟩
  obtain ⟨hr, hs | ⟨f, -, hs⟩⟩ | ⟨hregular, -⟩ :=
    s.mmap_cases p addr length prot flags fd offset false
  · exact ⟨hr, by rw [hs]⟩
  · exact ⟨hr, by rw [hs]; rfl⟩
  · cases hregular

open Descriptors in
/-- A file is mapped, a page is written back, and a pipe is written and closed. -/
theorem Descriptors.file_union_typed_pipe : ∃ s, Runs.Reach step UnionOk Init s ∧
    s.derefs.length = 6 ∧ ∀ d ∈ s.derefs, d.Ok := by
  obtain ⟨s, hs, htest⟩ := Runs.Reach.of_guardedTest init_atBoot
    (by decide +kernel : Runs.execTest
      (Runs.guarded step (fun s a => decide (s.UnionOk a)) .disabled) atBoot
      [(0, .openat (some 0) false true), (0, .mmap 0 1 2 1 0 0 true),
        (0, .munmap 0x100000 1 fun _ => true), (0, .pipe2 0 0 none), (0, .write 2 1 true 1),
        (0, .close 2), (0, .exit)]
      (fun s => decide (s.derefs.length = 6)) = true)
  exact ⟨s, hs, of_decide_eq_true htest, (file_union_typed hs).1⟩

open Descriptors in
/-- `mmap` locks a pipe as an inode. -/
theorem mmap_derefs_pipe : ∃ s, Runs.Reach step Runs.always Init s ∧
    ⟨.ip, .FD_PIPE⟩ ∈ s.derefs := by
  obtain ⟨s, hs, htest⟩ := Runs.Reach.of_execTest init_atBoot
    (by decide +kernel : Runs.execTest step atBoot
      [(0, .pipe2 0 0 none), (0, .mmap 0 1 0 2 0 0 false)]
      (fun s => decide (⟨.ip, .FD_PIPE⟩ ∈ s.derefs)) = true)
  exact ⟨s, hs, of_decide_eq_true htest⟩

end OsKernel
