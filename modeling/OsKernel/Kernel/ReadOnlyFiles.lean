import OsKernel.Kernel.VmTables

/-!
# Files without a writer

The only call that writes to a file through memory is `munmap` of a section with `MAP_SHARED`, so a
file keeps its contents as long as no process has such a section of it.  `mmap` asks for a
writable file when `MAP_SHARED` comes with `PROT_WRITE`, and only then; the pages of every mapping
are mapped writable.
-/

namespace OsKernel

open List

variable {sec : Section} {secs : List Section} {i : Nat} {t : Tables} {file : FileData}
  {sec' : Section}

namespace Vm

open FileSys (MAP_SHARED PROT_WRITE)
open Prog (Triple Post)

/-- A section through which no page is written back to inode `i`. -/
def Harmless (i : Nat) (t : Tables) (sec : Section) : Prop :=
  sec.Shared → ∀ f, sec.fp = some f → (t.flist f).ip ≠ some i

/-- No process has a writable descriptor or a shared mapping of inode `i`. -/
structure NoWriter (i : Nat) (t : Tables) : Prop where
  ofile : ∀ p fd f, (t.procs p).ofile fd = some f → (t.flist f).ip = some i →
    (t.flist f).writable = false
  sections : ∀ p, ∀ sec ∈ (t.procs p).sections, Harmless i t sec

namespace NoWriter

variable {i : Nat} {t : Tables}

theorem files (h : NoWriter i t) {g : Fin NFILE → File} (hg : SubFiles t.flist g) :
    NoWriter i { t with flist := g } where
  ofile p fd f hf hip := by
    rcases hg f with hnone | ⟨hsame, hw⟩
    · exact absurd (hip.symm.trans hnone) nofun
    · exact hw.trans (h.ofile p fd f hf (hsame.symm.trans hip))
  sections p sec hsec hshared f hf hip := by
    rcases hg f with hnone | ⟨hsame, _⟩
    · exact absurd (hip.symm.trans hnone) nofun
    · exact h.sections p sec hsec hshared f hf (hsame.symm.trans hip)

theorem setProc (h : NoWriter i t) (p q : Nat) {proc : ProcFiles}
    (ho : SubOfile (t.procs q).ofile proc.ofile) (hsecs : ∀ sec ∈ proc.sections, Harmless i t sec) :
    NoWriter i (t.setProc p proc) where
  ofile := Tables.forall_setProc (P := fun _ pr => ∀ fd f, pr.ofile fd = some f →
    (t.flist f).ip = some i → (t.flist f).writable = false) h.ofile
    fun fd f hf => h.ofile q fd f (ho fd f hf)
  sections := Tables.forall_setProc (P := fun _ pr => ∀ sec ∈ pr.sections, Harmless i t sec)
    h.sections hsecs

theorem setSections (h : NoWriter i t) (p : Nat)
    (hsecs : ∀ sec ∈ secs, Harmless i t sec) : NoWriter i (t.setSections p secs) :=
  h.setProc p p (fun _ _ hf => hf) hsecs

end NoWriter

theorem Harmless.congr (h : Harmless i t sec)
    (hflags : sec'.mmapFlags = sec.mmapFlags) (hfp : sec'.fp = sec.fp) : Harmless i t sec' := by
  intro hshared f hf
  refine h ?_ f (hfp ▸ hf)
  rw [Section.Shared, ← hflags]
  exact hshared

/-- Inode `i` holds `file`, and has no writer. -/
def Unwritten (i : Nat) (file : FileData) (s : Vm) : Prop :=
  s.inodes i = file ∧ NoWriter i s.tables

/-- A call after which there is no writer either, and that does not write to the file. -/
theorem Unwritten.turns {s s' : Vm} {W : Nat → Prop}
    (h : Unwritten i file s) (hs' : Turns s W t s') (hW : ¬ W i) (hflist : t.flist = s.tables.flist)
    (ht : NoWriter i t) : Unwritten i file s' := by
  refine ⟨(hs'.inodes i hW).trans h.1, ?_⟩
  obtain ⟨g, hg, htab⟩ := hs'.tables
  rw [htab]
  exact ht.files (hflist ▸ hg)

/-- Shared mappings are asked for with `PROT_WRITE`. -/
def SharedWritable (_ : Vm) : VmOp → Prop
  | .mmap _ _ _ prot flags _ _ => flags &&& MAP_SHARED ≠ 0 → prot &&& PROT_WRITE ≠ 0
  | _ => True

/-- The file of a mapping that `mmap` adds is not inode `i`, if the mapping is shared. -/
theorem NoWriter.harmless (h : NoWriter i t) {p fd prot : Nat} {f : Fin NFILE}
    (hf : (t.procs p).ofile fd = some f)
    (hvalid : FileSys.mmapValidateFile (t.flist f) sec.mmapFlags prot = true)
    (hprot : sec.Shared → prot &&& PROT_WRITE ≠ 0) (hfp : sec.fp = some f) : Harmless i t sec := by
  intro hshared f' hf' hip
  obtain rfl : f = f' := Option.some.inj (hfp.symm.trans hf')
  rw [FileSys.mmapValidateFile, if_pos ⟨hshared, hprot hshared⟩] at hvalid
  have hread := h.ofile p fd f hf hip
  rw [hvalid] at hread
  cases hread

theorem Unwritten.step {L : MemLayout} {s s' : Vm} {op : VmOp}
    (h : Unwritten i file s) (hok : SharedWritable s op) (hs : s.step L op = .ok s') :
    Unwritten i file s' := by
  have hno : ∀ {t}, Turns s noFile t s' → t.flist = s.tables.flist → NoWriter i t →
      Unwritten i file s' := fun ht hflist hn => h.turns ht (fun hf => hf) hflist hn
  have hsecs : ∀ p, ∀ sec ∈ s.sections p, Harmless i s.tables sec := h.2.sections
  have hout := step_outcome hs
  cases op with
  | load p va => exact hno hout rfl h.2
  | store p va b => exact hno hout rfl h.2
  | sbrk p size =>
    obtain ⟨sec, rest, hsec, ht⟩ := hout
    refine hno ht rfl (h.2.setSections p fun sec' hmem => ?_)
    rcases mem_cons.mp hmem with rfl | hrest
    · exact (hsecs p sec (hsec ▸ mem_cons_self)).congr rfl rfl
    · exact hsecs p sec' (hsec ▸ mem_cons_of_mem sec hrest)
  | mmap p addr length prot flags fd offset =>
    rcases hout with rfl | ⟨f, hf, hvalid, ht⟩
    · exact h
    have hnew : ∀ sec ∈ newSection (if addr = 0 then s.tables.nextAddr else addr)
        (FileSys.roundUp length.toNat PAGE_SIZE) flags f offset :: s.sections p,
        Harmless i s.tables sec := by
      intro sec hmem
      rcases mem_cons.mp hmem with rfl | hold
      · exact h.2.harmless hf hvalid hok rfl
      · exact hsecs p sec hold
    have hn := h.2.setSections p hnew
    exact hno ht rfl ⟨hn.ofile, hn.sections⟩
  | munmap p addr length =>
    have hmapped : ¬ Mapped s p i := by
      rintro ⟨sec, hsec, hshared, f, hf, hip⟩
      exact hsecs p sec hsec hshared f hf hip
    rcases hout with ht | ⟨n, sec, hn, _, ht⟩
    · exact h.turns ht hmapped rfl h.2
    · refine h.turns ht hmapped rfl (h.2.setSections p fun sec' hmem => ?_)
      obtain ⟨sec0, hsec0, _, hflags, hfp⟩ := mem_trimmed hn _ _ hmem
      exact (hsecs p sec0 hsec0).congr hflags hfp
  | fork p =>
    obtain ⟨o, ho, ht⟩ := hout
    have hforked : NoWriter i (s.tables.setProc s.tables.nprocs
        ⟨(s.tables.procs p).cwd, o, (s.tables.procs p).sections.reverse⟩) :=
      h.2.setProc s.tables.nprocs p ho fun sec hmem => hsecs p sec (mem_reverse.mp hmem)
    exact hno ht rfl ⟨hforked.ofile, hforked.sections⟩
  | execve p ip argv envp =>
    rcases hout with ht | ⟨ip, _, ht⟩
    · exact hno ht rfl h.2
    refine hno ht rfl (h.2.setSections p fun sec hmem _ f hf => ?_)
    have hfp : sec.fp = none := by
      rcases mem_cons.mp hmem with rfl | hseg
      · rfl
      · exact fp_of_mem_elfSections hseg
    rw [hfp] at hf
    cases hf
  | exit p =>
    obtain ⟨o, ho, ht⟩ := hout
    exact hno ht rfl (h.2.setProc p p ho nofun)

end Vm

/-- Where every `mmap` with `MAP_SHARED` asks for `PROT_WRITE`, a file that no process has a writable
descriptor of keeps its contents and its size. -/
theorem read_only_file_unmodified {L : MemLayout} {i : Nat} {file : FileData} {s : Vm}
    (h : Runs.Reach (Vm.step L) Vm.SharedWritable (Vm.Unwritten i file) s) : s.inodes i = file :=
  (h.invariant (I := Vm.Unwritten i file) (fun _ hs => hs) fun _ _ _ hs hok hstep =>
    hs.step hok hstep).1

def zeroFile : FileData := ⟨INODE_REGULAR, PAGE_SIZE, fun _ => 0⟩

def readOnlyFile : File := ⟨.FD_INODE, 1, true, false, some 7, 0⟩

theorem unwritten_single (L : MemLayout) :
    Vm.Unwritten 7 zeroFile (Vm.single L readOnlyFile zeroFile) := by
  refine ⟨rfl, fun p fd f hf _ => ?_, fun p sec hsec => ?_⟩
  · show (if f = 0 then readOnlyFile else File.none).writable = false
    split <;> rfl
  · dsimp only [Vm.single] at hsec
    split at hsec <;> cases hsec

instance (s : Vm) : (op : VmOp) → Decidable (Vm.SharedWritable s op)
  | .mmap .. => inferInstanceAs (Decidable (_ → _))
  | .load .. | .store .. | .sbrk .. | .munmap .. | .fork .. | .execve .. | .exit .. =>
    inferInstanceAs (Decidable True)

/-- A private mapping of the file is written to, and unmapped. -/
theorem read_only_file_unmodified_private :
    ∃ s, Runs.Reach (Vm.step PageSys.smallLayout) Vm.SharedWritable (Vm.Unwritten 7 zeroFile) s ∧
      s.mem.data (PageSys.smallLayout.page 3) 5 = 65 ∧ s.inodes 7 = zeroFile := by
  have hrun : Runs.execTest (Runs.guarded (Vm.step PageSys.smallLayout)
      (fun s op => decide (Vm.SharedWritable s op)) .disabled)
      (Vm.single PageSys.smallLayout readOnlyFile zeroFile)
      [.mmap 0 0 4096 3 2 0 0, .store 0 0x100005 65, .store 0 0x100005 65, .munmap 0 0x100000 4096]
      (fun s => s.mem.data (PageSys.smallLayout.page 3) 5 == 65) = true := by
    decide +kernel
  obtain ⟨s, hs, hq⟩ := Runs.Reach.of_guardedTest (unwritten_single _) hrun
  exact ⟨s, hs, eq_of_beq hq, read_only_file_unmodified hs⟩

/-- A shared mapping that is asked for without `PROT_WRITE`: the process writes to the page, and
`munmap` to the file. -/
theorem read_only_file_written :
    ∃ s, Runs.Reach (Vm.step PageSys.smallLayout) Runs.always (Vm.Unwritten 7 zeroFile) s ∧
      (s.inodes 7).bytes 5 = 65 := by
  have hrun : Runs.execTest (Vm.step PageSys.smallLayout)
      (Vm.single PageSys.smallLayout readOnlyFile zeroFile)
      [.mmap 0 0 4096 1 1 0 0, .store 0 0x100005 65, .store 0 0x100005 65, .munmap 0 0x100000 4096]
      (fun s => (s.inodes 7).bytes 5 == 65) = true := by
    decide +kernel
  obtain ⟨s, hs, hq⟩ := Runs.Reach.of_execTest (unwritten_single _) hrun
  exact ⟨s, hs, eq_of_beq hq⟩

end OsKernel
