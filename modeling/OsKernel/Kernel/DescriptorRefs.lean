import OsKernel.Kernel.Descriptors
import OsKernel.Kernel.FileRefs

/-!
# References to files

A `File` is referenced by the descriptors and the sections of the processes that have not exited.
`spare` is how much larger its `ref` is than the number of these references: the references that
the running call has in hand.  `Adds` says what a part of a call does to them, and that it follows
pointers by the type of the `File` as long as the sections only refer to files with an inode.

Most calls end with the references that they started with (`Keeps`).  `execve` is the exception: it
drops the sections of the old image without `file_close`.
-/

namespace OsKernel

open Function List

/-! ## Lists of pointers -/

/-- How many pointers of the list point to the file. -/
def refsOf (l : List (Option (Fin NFILE))) (f : Fin NFILE) : Int := l.count (some f)

section

variable {l l' : List (Option (Fin NFILE))} {x : Option (Fin NFILE)} {f g : Fin NFILE}

theorem refsOf_nonneg (l : List (Option (Fin NFILE))) (f : Fin NFILE) : 0 ≤ refsOf l f :=
  Int.natCast_nonneg _

theorem refsOf_append (l l' : List (Option (Fin NFILE))) (f : Fin NFILE) :
    refsOf (l ++ l') f = refsOf l f + refsOf l' f := by
  rw [refsOf, count_append, Int.natCast_add]
  rfl

theorem refsOf_cons (x : Option (Fin NFILE)) (l : List (Option (Fin NFILE))) (f : Fin NFILE) :
    refsOf (x :: l) f = refsOf [x] f + refsOf l f := refsOf_append [x] l f

theorem refsOf_none (f : Fin NFILE) : refsOf [none] f = 0 := rfl

theorem refsOf_some (f g : Fin NFILE) : refsOf [some f] g = if g = f then 1 else 0 := by
  by_cases h : g = f
  · simp [refsOf, h]
  · simp [refsOf, h, Ne.symm h]

theorem refsOf_pos (h : some f ∈ l) : 0 < refsOf l f :=
  Int.natCast_pos.mpr (count_pos_iff.mpr h)

theorem refsOf_eq_zero (h : some f ∉ l) : refsOf l f = 0 := by
  rw [refsOf, count_eq_zero.mpr h]
  rfl

theorem refsOf_perm (h : l.Perm l') (f : Fin NFILE) : refsOf l f = refsOf l' f := by
  rw [refsOf, h.count_eq]
  rfl

theorem refsOf_update (n : Nat) (h : Nat → Option (Fin NFILE)) {i : Nat} (hi : i < n)
    (x : Option (Fin NFILE)) (f : Fin NFILE) :
    refsOf ((List.range n).map (update h i x)) f + refsOf [h i] f =
      refsOf ((List.range n).map h) f + refsOf [x] f := by
  induction n with
  | zero => omega
  | succ n ih =>
    simp only [range_succ, map_append, map_cons, map_nil, refsOf_append]
    obtain rfl | hin := eq_or_ne i n
    · have hsame : (List.range i).map (update h i x) = (List.range i).map h := by
        apply map_congr_left
        intro j hj
        rw [update_of_ne (Nat.ne_of_lt (mem_range.mp hj))]
      rw [hsame, update_self]
      omega
    · have hlt : i < n := by omega
      rw [update_of_ne (Ne.symm hin)]
      omega

end

/-! ## References from the tables -/

/-- What the descriptors and the sections point to. -/
def ProcFiles.held (proc : ProcFiles) : List (Option (Fin NFILE)) :=
  (List.range NOFILE).map proc.ofile ++ proc.sections.map Section.fp

/-- The references of a process, if it has not exited. -/
def ProcFiles.holds (proc : ProcFiles) (f : Fin NFILE) : Int :=
  if proc.cwd.isSome then refsOf proc.held f else 0

theorem ProcFiles.holds_nonneg (proc : ProcFiles) (f : Fin NFILE) : 0 ≤ proc.holds f := by
  rw [ProcFiles.holds]
  split
  · exact refsOf_nonneg _ f
  · exact Int.le_refl 0

theorem ProcFiles.holds_live {proc : ProcFiles} (h : proc.cwd.isSome) (f : Fin NFILE) :
    proc.holds f = refsOf ((List.range NOFILE).map proc.ofile) f +
      refsOf (proc.sections.map Section.fp) f := by
  rw [ProcFiles.holds, if_pos h, ProcFiles.held, refsOf_append]

namespace Tables

/-- The references to a file from all processes. -/
def holders (t : Tables) (f : Fin NFILE) : Int :=
  ∑ p ∈ Finset.range t.nprocs, (t.procs p).holds f

def spare (t : Tables) (f : Fin NFILE) : Int := (t.flist f).ref - t.holders f

/-- The process has been created and has not exited. -/
def Live (t : Tables) (p : Nat) : Prop := p < t.nprocs ∧ (t.procs p).cwd.isSome

/-- The sections only refer to files with an inode. -/
def Typed (t : Tables) : Prop :=
  ∀ p, t.Live p → ∀ f, some f ∈ (t.procs p).sections.map Section.fp → (t.flist f).type = .FD_INODE

variable {t t' : Tables} {p fd : Nat} {f g : Fin NFILE} {file : File} {proc : ProcFiles}

theorem SameCwd.live (h : t.SameCwd t') (hl : t.Live p) : t'.Live p :=
  ⟨h.nprocs ▸ hl.1, h.cwd p ▸ hl.2⟩

theorem holders_nonneg (t : Tables) (f : Fin NFILE) : 0 ≤ t.holders f :=
  Finset.sum_nonneg fun p _ => (t.procs p).holds_nonneg f

theorem not_held (h : t.holders f ≤ 0) (hl : t.Live p) : some f ∉ (t.procs p).held := by
  intro hf
  have hone : (t.procs p).holds f ≤ t.holders f :=
    Finset.single_le_sum (fun q _ => (t.procs q).holds_nonneg f) (Finset.mem_range.mpr hl.1)
  have hpos := refsOf_pos hf
  rw [ProcFiles.holds, if_pos hl.2] at hone
  omega

theorem not_held_section (h : t.holders f ≤ 0) (hl : t.Live p) :
    some f ∉ (t.procs p).sections.map Section.fp :=
  fun hf => not_held h hl (mem_append_right _ hf)

/-! ### What a change does to `spare` -/

theorem spare_setFile (t : Tables) (f : Fin NFILE) (file : File) (g : Fin NFILE) :
    (t.setFile f file).spare g =
      t.spare g + (file.ref - (t.flist f).ref) * refsOf [some f] g := by
  have hh : (t.setFile f file).holders g = t.holders g := rfl
  rw [spare, spare, hh, refsOf_some]
  obtain rfl | hg := eq_or_ne g f
  · simp only [setFile, update_self, if_true]
    omega
  · simp [setFile, hg]

theorem spare_setProc (hp : p < t.nprocs) (proc : ProcFiles) (g : Fin NFILE) :
    (t.setProc p proc).spare g = t.spare g + ((t.procs p).holds g - proc.holds g) := by
  have hh : (t.setProc p proc).holders g = t.holders g + (proc.holds g - (t.procs p).holds g) :=
    sum_update (Finset.mem_range.mpr hp) (fun q : ProcFiles => q.holds g) t.procs proc
  have hf : (t.setProc p proc).flist = t.flist := rfl
  rw [spare, spare, hh, hf]
  omega

theorem spare_setProc_live (hl : t.Live p) (hc : proc.cwd.isSome) (g : Fin NFILE) :
    (t.setProc p proc).spare g = t.spare g +
      (refsOf ((List.range NOFILE).map (t.procs p).ofile) g +
        refsOf ((t.procs p).sections.map Section.fp) g -
      (refsOf ((List.range NOFILE).map proc.ofile) g + refsOf (proc.sections.map Section.fp) g)) := by
  rw [spare_setProc hl.1, ProcFiles.holds_live hl.2, ProcFiles.holds_live hc]

theorem spare_setOfile (hl : t.Live p) (hfd : fd < NOFILE) (x : Option (Fin NFILE))
    (g : Fin NFILE) :
    (t.setOfile p fd x).spare g = t.spare g + (refsOf [(t.procs p).ofile fd] g - refsOf [x] g) := by
  have hcount := refsOf_update NOFILE (t.procs p).ofile hfd x g
  rw [setOfile, spare_setProc_live hl (by exact hl.2)]
  dsimp only
  omega

theorem spare_setSections (hl : t.Live p) (l : List Section) (g : Fin NFILE) :
    (t.setSections p l).spare g = t.spare g +
      (refsOf ((t.procs p).sections.map Section.fp) g - refsOf (l.map Section.fp) g) := by
  rw [setSections, spare_setProc_live hl (by exact hl.2)]
  dsimp only
  omega

theorem spare_dup (t : Tables) (f g : Fin NFILE) :
    (t.dup f).spare g = t.spare g + refsOf [some f] g := by
  have hone : (t.flist f).ref + 1 - (t.flist f).ref = 1 := by omega
  rw [dup, spare_setFile]
  rw [hone, Int.one_mul]

theorem ref_pos_of_spare (h : 0 < t.spare f) : 0 < (t.flist f).ref := by
  have hnn := t.holders_nonneg f
  rw [spare] at h
  omega

theorem spare_close (h : 0 < t.spare f) (g : Fin NFILE) :
    (t.close f).spare g = t.spare g - refsOf [some f] g := by
  have hpos := ref_pos_of_spare h
  have hge : ¬ (t.flist f).ref < 1 := by omega
  have hone : (t.flist f).ref - 1 - (t.flist f).ref = -1 := by omega
  rw [close, if_neg hge]
  split
  · rw [spare_setFile]
    rw [hone]
    omega
  · have hlast : File.none.ref - (t.flist f).ref = -1 := by
      dsimp only [File.none]
      omega
    rw [spare_setFile, hlast]
    omega

theorem spare_addProc (t : Tables) (proc : ProcFiles) (g : Fin NFILE) :
    spare { t.setProc t.nprocs proc with nprocs := t.nprocs + 1 } g = t.spare g - proc.holds g := by
  have hold : ∀ q ∈ Finset.range t.nprocs,
      (update t.procs t.nprocs proc q).holds g = (t.procs q).holds g := by
    intro q hq
    rw [update_of_ne (Nat.ne_of_lt (Finset.mem_range.mp hq))]
  have hh : holders { t.setProc t.nprocs proc with nprocs := t.nprocs + 1 } g =
      t.holders g + proc.holds g := by
    simp only [holders, setProc]
    rw [Finset.sum_range_succ, Finset.sum_congr rfl hold, update_self]
  rw [spare, hh, spare]
  dsimp only [setProc]
  omega

/-! ### What a change does to the types -/

section

variable (h : t.Typed)

include h

/-- The type of a file that a section may refer to stays, or it becomes `FD_INODE`. -/
theorem Typed.setFile
    (hf : file.type = (t.flist f).type ∨ file.type = .FD_INODE ∨ t.holders f ≤ 0) :
    (t.setFile f file).Typed := by
  intro p hl g hg
  have hold := h p hl g hg
  show (update t.flist f file g).type = .FD_INODE
  obtain rfl | hgf := eq_or_ne g f
  · rw [update_self]
    obtain hsame | hinode | hfree := hf
    · rw [hsame, hold]
    · exact hinode
    · exact absurd hg (not_held_section hfree hl)
  · rw [update_of_ne hgf, hold]

theorem Typed.dup (f : Fin NFILE) : (t.dup f).Typed := h.setFile (.inl rfl)

theorem Typed.close (hs : 0 < t.spare f) : (t.close f).Typed := by
  have hpos := ref_pos_of_spare hs
  have hge : ¬ (t.flist f).ref < 1 := by omega
  rw [Tables.close, if_neg hge]
  split
  · exact h.setFile (.inl rfl)
  next hlast =>
    -- the reference in hand was the last one
    have hfree : t.holders f ≤ 0 := by
      rw [spare] at hs
      omega
    exact h.setFile (.inr (.inr hfree))

theorem Typed.setProc
    (hsec : p < t.nprocs → proc.cwd.isSome → ∀ f, some f ∈ proc.sections.map Section.fp →
      t.Live p ∧ some f ∈ (t.procs p).sections.map Section.fp ∨ (t.flist f).type = .FD_INODE) :
    (t.setProc p proc).Typed := by
  intro q hl f hf
  have hl' : q < t.nprocs ∧ (update t.procs p proc q).cwd.isSome := hl
  have hf' : some f ∈ (update t.procs p proc q).sections.map Section.fp := hf
  obtain rfl | hq := eq_or_ne q p
  · rw [update_self] at hl' hf'
    obtain ⟨hold, hmem⟩ | hinode := hsec hl'.1 hl'.2 f hf'
    · exact h q hold f hmem
    · exact hinode
  · rw [update_of_ne hq] at hl' hf'
    exact h q hl' f hf'

theorem Typed.setOfile (p fd : Nat) (x : Option (Fin NFILE)) : (t.setOfile p fd x).Typed :=
  h.setProc fun hp hc _ hf => .inl ⟨⟨hp, hc⟩, hf⟩

theorem Typed.setSections {l : List Section} (hsec : ∀ f, some f ∈ l.map Section.fp →
      some f ∈ (t.procs p).sections.map Section.fp ∨ (t.flist f).type = .FD_INODE) :
    (t.setSections p l).Typed := by
  apply h.setProc
  intro hp hc f hf
  obtain hmem | hinode := hsec f hf
  · exact .inl ⟨⟨hp, hc⟩, hmem⟩
  · exact .inr hinode

theorem Typed.addProc (hl : t.Live p) (hsec : ∀ f, some f ∈ proc.sections.map Section.fp →
      some f ∈ (t.procs p).sections.map Section.fp) :
    Typed { t.setProc t.nprocs proc with nprocs := t.nprocs + 1 } := by
  intro q hq f hf
  have hq' : q < t.nprocs + 1 ∧ (update t.procs t.nprocs proc q).cwd.isSome := hq
  have hf' : some f ∈ (update t.procs t.nprocs proc q).sections.map Section.fp := hf
  obtain rfl | hn := eq_or_ne q t.nprocs
  · rw [update_self] at hf'
    exact h p hl f (hsec f hf')
  · rw [update_of_ne hn] at hq' hf'
    have hlt : q < t.nprocs := by omega
    exact h q ⟨hlt, hq'.2⟩ f hf'

end

end Tables

end OsKernel
