import OsKernel.Kernel.VmTables

/-!
# The layout of the sections

The ranges of the sections of a process are kept apart by whoever chooses the addresses: nothing in
`mmap`, `sbrk`, `munmap` and `execve` compares a new range with the sections that exist.  `Fits` is what
has to hold of the arguments; all other calls, and `munmap` of a range that does not wrap around, only
copy, shrink and remove sections.
-/

namespace OsKernel

open List

namespace Section

def Apart (a b : Section) : Prop := min a.endAddr b.endAddr ≤ max a.beginAddr b.beginAddr

instance (a b : Section) : Decidable (a.Apart b) := inferInstanceAs (Decidable (_ ≤ _))

theorem apart_iff {a b : Section} : a.Apart b ↔ ∀ addr, ¬ (a.Contains addr ∧ b.Contains addr) := by
  simp only [Apart, Contains]
  constructor
  · intro h addr
    omega
  · intro h
    have := h (max a.beginAddr b.beginAddr)
    omega

theorem Apart.symm {a b : Section} (h : a.Apart b) : b.Apart a := by
  rwa [Apart, Nat.min_comm, Nat.max_comm]

/-- The range of `a` is a part of that of `b`. -/
structure Within (a b : Section) : Prop where
  lower : b.beginAddr ≤ a.beginAddr
  le : a.beginAddr ≤ a.endAddr
  upper : a.endAddr ≤ b.endAddr

theorem Apart.within {a b c : Section} (h : b.Apart c) (hab : a.Within b) : a.Apart c := by
  obtain ⟨h1, h2, h3⟩ := hab
  simp only [Apart] at h ⊢
  omega

structure Below (sec : Section) : Prop where
  le : sec.beginAddr ≤ sec.endAddr
  top : sec.endAddr ≤ USERTOP

end Section

/-- Ranges in user space, no two of which overlap. -/
structure Layout (secs : List Section) : Prop where
  apart : secs.Pairwise Section.Apart
  below : ∀ sec ∈ secs, sec.Below

namespace Layout

variable {secs : List Section} {sec : Section}

theorem nil : Layout [] := ⟨.nil, nofun⟩

section

variable (h : Layout secs)

include h

theorem cons (hsec : sec.Below) (hfree : ∀ sec' ∈ secs, sec.Apart sec') : Layout (sec :: secs) where
  apart := .cons hfree h.apart
  below := forall_mem_cons.mpr ⟨hsec, h.below⟩

theorem reverse : Layout secs.reverse where
  apart := pairwise_reverse.mpr (h.apart.imp Section.Apart.symm)
  below sec hsec := h.below sec (mem_reverse.mp hsec)

theorem eraseIdx (i : Nat) : Layout (secs.eraseIdx i) where
  apart := h.apart.sublist (eraseIdx_sublist secs i)
  below sec hsec := h.below sec (mem_of_mem_eraseIdx hsec)

theorem set {i : Nat} (hi : secs[i]? = some sec) {sec' : Section}
    (hw : sec'.Within sec) : Layout (secs.set i sec') where
  apart := by
    obtain ⟨hlt, hget⟩ := List.getElem?_eq_some_iff.mp hi
    have hpair := pairwise_iff_getElem.mp h.apart
    rw [pairwise_iff_getElem]
    intro a b ha hb hab
    rw [length_set] at ha hb
    rw [getElem_set, getElem_set]
    split
    next hia =>
      subst hia
      rw [if_neg (by omega)]
      exact (hget ▸ hpair i b ha hb hab).within hw
    next =>
      split
      next hib =>
        subst hib
        exact ((hget ▸ hpair a i ha hb hab).symm.within hw).symm
      next => exact hpair a b ha hb hab
  below sec1 hmem := by
    rcases mem_or_eq_of_mem_set hmem with hold | rfl
    · exact h.below sec1 hold
    · have hsec := h.below sec (mem_of_getElem? hi)
      exact ⟨hw.le, Nat.le_trans hw.upper hsec.top⟩

theorem trimmed {i : Nat} (hi : secs[i]? = some sec) {start mappedLen : Nat}
    (hstart : start ≤ sec.endAddr) (hwrap : start + mappedLen < 2 ^ 64) :
    Layout (Vm.trimmed secs i sec start mappedLen) := by
  have hstop : usize (start + mappedLen) = start + mappedLen := Nat.mod_eq_of_lt hwrap
  simp only [Vm.trimmed, hstop]
  split
  · exact h.eraseIdx i
  split
  · exact h
  split
  next hfront =>
    have hbegin : usize (sec.beginAddr + mappedLen) = sec.beginAddr + mappedLen := by
      rw [← hfront.1, hstop]
    refine h.set hi ⟨?_, ?_, Nat.le_refl _⟩
    · show sec.beginAddr ≤ usize (sec.beginAddr + mappedLen)
      rw [hbegin]
      exact Nat.le_add_right _ _
    · show usize (sec.beginAddr + mappedLen) ≤ sec.endAddr
      rw [hbegin, ← hfront.1]
      exact Nat.le_of_lt hfront.2
  split
  next hback => exact h.set hi ⟨Nat.le_refl _, Nat.le_of_lt hback.1, hstart⟩
  · exact h

end

end Layout

namespace Vm

open FileSys (roundDown roundUp stackSection)

/-- The address that `mmap` chooses. -/
def mmapStart (s : Vm) (addr : Nat) : Nat := if addr = 0 then s.tables.nextAddr else addr

/-- The addresses from `a` to `b` are in none of the sections. -/
def Free (secs : List Section) (a b : Nat) : Prop :=
  ∀ sec ∈ secs, min sec.endAddr b ≤ max sec.beginAddr a

instance (secs : List Section) (a b : Nat) : Decidable (Free secs a b) :=
  inferInstanceAs (Decidable (∀ sec ∈ secs, _))

/-- The segments of an executable are apart, and below the stack. -/
structure ElfFits (file : FileData) : Prop where
  apart : (elfSections file).Pairwise Section.Apart
  below : ∀ sec ∈ elfSections file, sec.endAddr ≤ stackSection.beginAddr

/-- The range that a call asks for is free and in user space; that of `mmap` starts below 2 GiB, and
that of `munmap` does not wrap around. -/
def Fits (s : Vm) : VmOp → Prop
  | .sbrk p size => ∀ sec ∈ (s.sections p).head?, sec.beginAddr ≤ sec.endAddr + size ∧
      sec.endAddr + size ≤ USERTOP ∧
      Free (s.sections p).tail sec.endAddr (sec.endAddr + size).toNat
  | .mmap p addr length _ _ _ _ =>
    mmapStart s addr + roundUp length.toNat PAGE_SIZE ≤ USERTOP ∧ mmapStart s addr < 2 ^ 31 ∧
    Free (s.sections p) (mmapStart s addr)
      (mmapStart s addr + roundUp length.toNat PAGE_SIZE)
  | .munmap _ addr length => roundDown addr PAGE_SIZE + roundUp length PAGE_SIZE < 2 ^ 64
  | .execve _ file _ _ => ∀ ip ∈ file, ElfFits (s.inodes ip)
  | .load _ _ | .store _ _ _ | .fork _ | .exit _ => True

/-- The sections of every process are laid out. -/
def LaidOut (s : Vm) : Prop := ∀ p, Layout (s.sections p)

variable {s s' : Vm} {p : Nat}

theorem LaidOut.turns {W : Nat → Prop} {t : Tables} (ht : Turns s W t s')
    (h : ∀ p, Layout (t.procs p).sections) : LaidOut s' := by
  intro p
  rw [sections, ht.procs]
  exact h p

theorem LaidOut.setProc {W : Nat → Prop} {proc : ProcFiles} (h : LaidOut s)
    (ht : Turns s W (s.tables.setProc p proc) s') (hp : Layout proc.sections) : LaidOut s' :=
  LaidOut.turns ht (Tables.forall_setProc (P := fun _ pr => Layout pr.sections) h hp)

theorem Free.apart {secs : List Section} {a b : Nat} (h : Free secs a b) {sec : Section}
    (hbegin : sec.beginAddr = a) (hend : sec.endAddr = b) : ∀ sec' ∈ secs, sec.Apart sec' := by
  intro sec' hmem
  have hfree := h sec' hmem
  rw [Section.Apart, hbegin, hend]
  omega

theorem layout_segment {ph : FileSys.Elf64Phdr} {sec : Section} (h : segment ph = some sec) :
    sec.beginAddr ≤ sec.endAddr := by
  obtain ⟨segType, _, rfl⟩ := Option.map_eq_some_iff.mp h
  split <;> exact Nat.le_add_right _ _

theorem ElfFits.layout {file : FileData} (h : ElfFits file) :
    Layout (stackSection :: elfSections file) := by
  have hbelow : ∀ sec ∈ elfSections file, sec.Below := by
    intro sec hsec
    refine ⟨?_, Nat.le_trans (h.below sec hsec) (by decide)⟩
    rw [elfSections, mem_reverse] at hsec
    obtain ⟨_, _, hseg⟩ := mem_segments hsec
    exact layout_segment hseg
  refine Layout.cons ⟨h.apart, hbelow⟩ ⟨by decide, by decide⟩ fun sec hsec => ?_
  have hend := h.below sec hsec
  rw [Section.Apart]
  omega

theorem LaidOut.sbrk {size : Int} (h : LaidOut s)
    (hok : Fits s (.sbrk p size)) (hout : Outcome s (.sbrk p size) s') : LaidOut s' := by
  obtain ⟨sec, rest, hsec, ht⟩ := hout
  have hlay : Layout (sec :: rest) := hsec ▸ h p
  obtain ⟨hlower, hupper, hfree⟩ := hok sec (by rw [hsec]; rfl)
  rw [hsec, tail_cons] at hfree
  have htop : (USERTOP : Int) < 2 ^ 64 := by decide
  rw [Int.emod_eq_of_lt (by omega) (by omega)] at ht
  have hbelow := hlay.below sec mem_cons_self
  refine h.setProc ht (Layout.cons ⟨hlay.apart.of_cons, fun sec' hmem =>
    hlay.below sec' (mem_cons_of_mem sec hmem)⟩ ⟨?_, ?_⟩ fun sec' hmem => ?_)
  · show sec.beginAddr ≤ (sec.endAddr + size).toNat
    omega
  · show (sec.endAddr + size).toNat ≤ USERTOP
    omega
  · have hold : sec.Apart sec' := rel_of_pairwise_cons hlay.apart hmem
    have hnew := hfree sec' hmem
    simp only [Section.Apart] at hold ⊢
    omega

theorem LaidOut.mmap {addr memSize flags : Nat} {f : Fin NFILE} {offset : Int}
    (h : LaidOut s) (htop : mmapStart s addr + memSize ≤ USERTOP)
    (hfree : Free (s.sections p) (mmapStart s addr) (mmapStart s addr + memSize))
    (ht : Turns s noFile (mmapped s.tables p addr memSize flags f offset) s') : LaidOut s' := by
  have hend : usize (mmapStart s addr + memSize) = mmapStart s addr + memSize :=
    Nat.mod_eq_of_lt (Nat.lt_of_le_of_lt htop (by decide))
  have hnew : Layout (newSection (mmapStart s addr) memSize flags f offset :: s.sections p) := by
    refine (h p).cons ⟨?_, ?_⟩ (hfree.apart rfl hend)
    · show mmapStart s addr ≤ usize (mmapStart s addr + memSize)
      rw [hend]
      exact Nat.le_add_right _ _
    · show usize (mmapStart s addr + memSize) ≤ USERTOP
      rwa [hend]
  exact LaidOut.turns ht (Tables.forall_setProc (P := fun _ pr => Layout pr.sections) h hnew)

theorem LaidOut.step {L : MemLayout} {op : VmOp} (h : LaidOut s) (hok : Fits s op)
    (hs : s.step L op = .ok s') : LaidOut s' := by
  have hout := step_outcome hs
  cases op with
  | load p va => exact LaidOut.turns hout h
  | store p va b => exact LaidOut.turns hout h
  | sbrk p size => exact h.sbrk hok hout
  | mmap p addr length prot flags fd offset =>
    rcases hout with rfl | ⟨f, _, _, ht⟩
    · exact h
    · exact h.mmap hok.1 hok.2.2 ht
  | munmap p addr length =>
    rcases hout with ht | ⟨i, sec, hi, hin, ht⟩
    · exact LaidOut.turns ht h
    · have hstart : roundDown addr PAGE_SIZE ≤ sec.endAddr :=
        Nat.le_trans (Nat.div_mul_le_self _ _) (Nat.le_of_lt hin.2)
      exact h.setProc ht ((h p).trimmed hi hstart hok)
  | fork p =>
    obtain ⟨o, _, ht⟩ := hout
    exact LaidOut.turns ht
      (Tables.forall_setProc (P := fun _ pr => Layout pr.sections) h (h p).reverse)
  | execve p file argv envp =>
    rcases hout with ht | ⟨ip, rfl, ht⟩
    · exact LaidOut.turns ht h
    · exact h.setProc ht (hok ip rfl).layout
  | exit p =>
    obtain ⟨o, _, ht⟩ := hout
    exact h.setProc ht .nil

/-- `mmap` fails, or returns the address at which the section that it adds begins. -/
theorem mmap_returns {addr : Nat} {length : Int} {prot flags : Nat} {fd offset r : Int}
    (hok : Fits s (.mmap p addr length prot flags fd offset))
    (h : (Vm.mmap p addr length prot flags fd offset).exec s = (.ok r, s')) :
    r = -1 ∧ s' = s ∨ ∃ sec, s'.sections p = sec :: s.sections p ∧ r = sec.beginAddr := by
  have hpost := mmap_turns s noFile p addr length prot flags fd offset s rfl
  rw [h] at hpost
  rcases hpost with hfail | ⟨f, _, _, hr, ht⟩
  · exact Or.inl hfail
  refine Or.inr ⟨newSection (mmapStart s addr) (roundUp length.toNat PAGE_SIZE) flags f offset, ?_, ?_⟩
  · rw [sections, ht.procs]
    simp [mmapped, Tables.setSections, Tables.setProc, mmapStart, sections]
  rw [hr]
  have hlt := hok.2.1
  show (BitVec.ofNat 32 (mmapStart s addr)).toInt = (mmapStart s addr : Int)
  have hmod : (BitVec.ofNat 32 (mmapStart s addr)).toNat = mmapStart s addr := by
    exact Nat.mod_eq_of_lt (by omega)
  rw [BitVec.toInt_eq_toNat_of_lt (by omega), hmod]

end Vm

/-- Where the ranges that are asked for are free, the sections of each process stay apart and in user
space, and `mmap` returns the address of the section that it adds. -/
theorem sections_disjoint {L : MemLayout} {s : Vm} (h : Runs.Reach (Vm.step L) Vm.Fits Vm.LaidOut s) :
    (∀ p, (s.sections p).Pairwise (fun a b => ∀ addr, ¬ (a.Contains addr ∧ b.Contains addr)) ∧
      ∀ sec ∈ s.sections p, sec.beginAddr ≤ sec.endAddr ∧ sec.endAddr ≤ USERTOP) ∧
    ∀ p addr length prot flags fd offset r s', Vm.Fits s (.mmap p addr length prot flags fd offset) →
      (Vm.mmap p addr length prot flags fd offset).exec s = (.ok r, s') →
      r = -1 ∧ s' = s ∨ ∃ sec, s'.sections p = sec :: s.sections p ∧ r = sec.beginAddr := by
  have hlaid : Vm.LaidOut s :=
    h.invariant (fun _ hs => hs) fun _ _ _ hs hok hstep => hs.step hok hstep
  refine ⟨fun p => ⟨?_, ?_⟩, fun _ _ _ _ _ _ _ _ _ hok hrun => Vm.mmap_returns hok hrun⟩
  · exact (hlaid p).apart.imp Section.apart_iff.mp
  · intro sec hsec
    obtain ⟨hle, htop⟩ := (hlaid p).below sec hsec
    exact ⟨hle, htop⟩

instance (file : FileData) : Decidable (Vm.ElfFits file) :=
  decidable_of_iff ((Vm.elfSections file).Pairwise Section.Apart ∧
    ∀ sec ∈ Vm.elfSections file, sec.endAddr ≤ FileSys.stackSection.beginAddr)
    ⟨fun h => ⟨h.1, h.2⟩, fun h => ⟨h.apart, h.below⟩⟩

instance (s : Vm) : (op : VmOp) → Decidable (Vm.Fits s op)
  | .sbrk .. => inferInstanceAs (Decidable (∀ sec ∈ (_ : Option Section), _))
  | .mmap .. => inferInstanceAs (Decidable (_ ∧ _ ∧ _))
  | .munmap .. => inferInstanceAs (Decidable (_ < _))
  | .execve .. => inferInstanceAs (Decidable (∀ ip ∈ (_ : Option Nat), _))
  | .load .. | .store .. | .fork .. | .exit .. => inferInstanceAs (Decidable True)

/-- A regular file that is open for reading and writing. -/
def openFile : File := ⟨.FD_INODE, 1, true, true, some 7, 0⟩

theorem laidOut_single (L : MemLayout) (file : File) (contents : FileData) :
    Vm.LaidOut (Vm.single L file contents) := by
  intro p
  dsimp only [Vm.sections, Vm.single]
  split <;> exact .nil

/-- Two mappings, of which the first one shrinks and the second one grows. -/
theorem sections_disjoint_two_mappings :
    ∃ s, Runs.Reach (Vm.step PageSys.smallLayout) Vm.Fits Vm.LaidOut s ∧
      (s.sections 1).length = 2 ∧
      (s.sections 1).Pairwise (fun a b => ∀ addr, ¬ (a.Contains addr ∧ b.Contains addr)) := by
  have hrun : Runs.execTest (Runs.guarded (Vm.step PageSys.smallLayout)
      (fun s op => decide (Vm.Fits s op)) .disabled)
      (Vm.single PageSys.smallLayout openFile ⟨INODE_REGULAR, 0, fun _ => 0⟩)
      [.mmap 0 0 8192 3 2 0 0, .mmap 0 0x200000 4096 3 1 0 0, .sbrk 0 4096,
        .munmap 0 0x100000 4096, .fork 0]
      (fun s => (s.sections 1).length == 2) = true := by
    decide +kernel
  obtain ⟨s, hs, hq⟩ := Runs.Reach.of_guardedTest (laidOut_single _ _ _) hrun
  exact ⟨s, hs, eq_of_beq hq, ((sections_disjoint hs).1 1).1⟩

/-- A second mapping at the same address is accepted, and the address of a mapping at 2 GiB comes back
as a negative number. -/
theorem sections_overlap : (∃ s, Runs.Reach (Vm.step PageSys.smallLayout) Runs.always Vm.LaidOut s ∧
      ∃ a ∈ (s.sections 0)[0]?, ∃ b ∈ (s.sections 0)[1]?,
        a.Contains 0x200000 ∧ b.Contains 0x200000) ∧
    ((Vm.mmap 0 0x80000000 4096 3 2 0 0).exec
      (Vm.single PageSys.smallLayout openFile ⟨INODE_REGULAR, 0, fun _ => 0⟩)).1 =
        .ok (-0x80000000) := by
  have hrun : Runs.execTest (Vm.step PageSys.smallLayout)
      (Vm.single PageSys.smallLayout openFile ⟨INODE_REGULAR, 0, fun _ => 0⟩)
      [.mmap 0 0x200000 4096 3 2 0 0, .mmap 0 0x200000 4096 3 2 0 0]
      (fun s => decide (∃ a ∈ (s.sections 0)[0]?, ∃ b ∈ (s.sections 0)[1]?,
        a.Contains 0x200000 ∧ b.Contains 0x200000)) = true := by
    decide +kernel
  obtain ⟨s, hs, hq⟩ := Runs.Reach.of_execTest (laidOut_single _ _ _) hrun
  exact ⟨⟨s, hs, of_decide_eq_true hq⟩, by decide +kernel⟩

end OsKernel
