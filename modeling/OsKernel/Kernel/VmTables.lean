import OsKernel.Kernel.Exec

/-!
# What the calls do to the tables

Whatever a call does to memory, it changes the tables in one way that is known beforehand, and files
only if it is `munmap`: `Turns s W t s'` says that `s'` has the tables `t`, up to the references of
`ftable`, and the files of `s` except those in `W`.  There is one such lemma for each call.
-/

namespace OsKernel

open Function Tables

/-- The files of `g'` are those of `g`, some of them closed. -/
def SubFiles (g g' : Fin NFILE → File) : Prop :=
  ∀ f, (g' f).ip = none ∨ (g' f).ip = (g f).ip ∧ (g' f).writable = (g f).writable

namespace SubFiles

variable {g g' g'' : Fin NFILE → File}

theorem refl (g : Fin NFILE → File) : SubFiles g g := fun _ => .inr ⟨rfl, rfl⟩

theorem trans (h : SubFiles g g') (h' : SubFiles g' g'') : SubFiles g g'' := by
  intro f
  rcases h' f with hnone | ⟨hip, hw⟩
  · exact .inl hnone
  · rcases h f with hnone | ⟨hip', hw'⟩
    · exact .inl (hip.trans hnone)
    · exact .inr ⟨hip.trans hip', hw.trans hw'⟩

theorem update (f : Fin NFILE) {file : File}
    (h : file.ip = none ∨ file.ip = (g f).ip ∧ file.writable = (g f).writable) :
    SubFiles g (update g f file) := by
  intro f'
  obtain rfl | hf := eq_or_ne f' f
  · rwa [update_self]
  · rw [update_of_ne hf]
    exact .inr ⟨rfl, rfl⟩

theorem dup (t : Tables) (f : Fin NFILE) : SubFiles t.flist (t.dup f).flist :=
  update f (.inr ⟨rfl, rfl⟩)

theorem close (t : Tables) (f : Fin NFILE) : SubFiles t.flist (t.close f).flist := by
  rw [Tables.close]
  split
  · exact refl _
  · split
    · exact update f (.inr ⟨rfl, rfl⟩)
    · exact update f (.inl rfl)

end SubFiles

theorem Tables.forall_setProc {P : Nat → ProcFiles → Prop} {t : Tables} {p : Nat} {proc : ProcFiles}
    (h : ∀ q, P q (t.procs q)) (hp : P p proc) (q : Nat) : P q ((t.setProc p proc).procs q) := by
  show P q (update t.procs p proc q)
  obtain rfl | hq := eq_or_ne q p
  · rwa [update_self]
  · rw [update_of_ne hq]
    exact h q

theorem Tables.close_eq (t : Tables) (f : Fin NFILE) :
    t.close f = { t with flist := (t.close f).flist } := by
  rw [close]
  split
  · rfl
  · split <;> rfl

namespace Vm

open Prog (Triple Hoare Keeps Preserves Post)

/-- State `s'` has the tables `t`, up to the references of files, and the files of `s` except those
in `W`. -/
structure Turns (s : Vm) (W : Nat → Prop) (t : Tables) (s' : Vm) : Prop where
  inodes : ∀ i, ¬ W i → s'.inodes i = s.inodes i
  tables : ∃ g, SubFiles s.tables.flist g ∧ s'.tables = { t with flist := g }

section

variable {s s₀ s' : Vm} {W : Nat → Prop} {t : Tables}

theorem Turns.refl (s : Vm) (W : Nat → Prop) : Turns s W s.tables s :=
  ⟨fun _ _ => rfl, _, .refl _, rfl⟩

theorem Turns.procs (h : Turns s W t s') : s'.tables.procs = t.procs := by
  obtain ⟨g, _, ht⟩ := h.tables
  rw [ht]

/-- Programs that leave the tables and the files alone. -/
def Aside {α : Type} (x : VmM α) : Prop :=
  ∀ (s₀ : Vm) (W : Nat → Prop) (t : Tables), Preserves (Turns s₀ W t) x

namespace Aside

variable {α β : Type}

theorem onMem (x : MemM α) : Aside (onMem x) :=
  fun _ _ _ => keeps_onMem (fun _ _ h => ⟨h.inodes, h.tables⟩) (fun _ _ => trivial) x

theorem triple {x : VmM α} (hx : Aside x) {Q : α → Vm → Prop}
    (hQ : ∀ a s', Turns s₀ W t s' → Q a s') : Hoare (Turns s₀ W t) x Q :=
  (hx s₀ W t).conseq (fun _ h => h) hQ fun _ h => h

theorem pure (a : α) : Aside (Pure.pure a) := fun _ _ _ => Keeps.pure a

theorem throw (e : Runs.Stop) : Aside (throw e : VmM α) := fun _ _ _ => Keeps.throw e fun _ _ => trivial

theorem bind {x : VmM α} {f : α → VmM β} (hx : Aside x) (hf : ∀ a, Aside (f a)) :
    Aside (x >>= f) := fun s₀ W t => Keeps.bind (hx s₀ W t) fun a => hf a s₀ W t

theorem read {f : Vm → VmM β} (hf : ∀ s, Aside (f s)) : Aside (get >>= f) :=
  fun s₀ W t => Keeps.read fun s => hf s s₀ W t

theorem ite {c : Prop} [Decidable c] {x y : VmM α} (hx : Aside x) (hy : Aside y) :
    Aside (if c then x else y) := fun s₀ W t => Keeps.ite (hx s₀ W t) (hy s₀ W t)

theorem forM {ι : Type} {l : List ι} {g : ι → VmM Unit} (hg : ∀ i, Aside (g i)) :
    Aside (l.forM g) := fun s₀ W t => Keeps.forM fun i => hg i s₀ W t

theorem killProcess (p : Nat) : Aside (killProcess p) :=
  fun _ _ _ => Keeps.modify fun _ h => ⟨h.inodes, h.tables⟩

theorem inodeRead (ip offset count : Nat) : Aside (inodeRead ip offset count) :=
  read fun _ => ite (throw _) (ite (pure _) (throw _))

theorem files {F : Tables → Tables} (hsub : ∀ t, SubFiles t.flist (F t).flist)
    (hF : ∀ t, F t = { t with flist := (F t).flist }) : Aside (modifyTables F) := by
  intro s₀ W t
  refine .modify fun s h => ⟨h.inodes, ?_⟩
  obtain ⟨g, hg, ht⟩ := h.tables
  refine ⟨(F s.tables).flist, hg.trans ?_, ?_⟩
  · have h := hsub s.tables
    rwa [ht] at h ⊢
  · show F s.tables = _
    rw [hF, ht]

theorem close (f : Fin NFILE) : Aside (modifyTables fun t => t.close f) :=
  files (fun t => SubFiles.close t f) fun t => t.close_eq f

theorem dup (f : Fin NFILE) : Aside (modifyTables fun t => t.dup f) :=
  files (fun t => SubFiles.dup t f) fun _ => rfl

end Aside

theorem Turns.modify (F : Tables → Tables)
    (hF : ∀ g, F { t with flist := g } = { F t with flist := g }) :
    Hoare (Turns s₀ W t) (modifyTables F) (fun _ => Turns s₀ W (F t)) := by
  refine .modify fun s h => ⟨h.inodes, ?_⟩
  obtain ⟨g, hg, ht⟩ := h.tables
  exact ⟨g, hg, by rw [ht, hF]⟩

theorem Turns.first (s₀ : Vm) (W : Nat → Prop) (F : Tables → Tables)
    (hF : ∀ g, F { s₀.tables with flist := g } = { F s₀.tables with flist := g }) :
    Hoare (fun s => s = s₀) (modifyTables F) (fun _ => Turns s₀ W (F s₀.tables)) := by
  refine (Turns.modify F hF).pre ?_
  rintro _ rfl
  exact .refl _ W

end

/-! ## The calls -/

variable (L : MemLayout)

namespace Aside

theorem faultMapped (p addr : Nat) (sec : Section) : Aside (faultMapped L p addr sec) := by
  refine bind (onMem _) fun page => ite (killProcess p) (bind (onMem _) fun _ => read fun s => ?_)
  match sec.fp with
  | none => exact killProcess p
  | some f =>
    refine ite (killProcess p) ?_
    match (s.tables.flist f).ip with
    | none => exact throw _
    | some ip => exact bind (inodeRead _ _ _) fun _ => onMem _

theorem faultAnonymous (p addr : Nat) : Aside (faultAnonymous L p addr) := by
  refine bind (onMem _) fun pte => ?_
  match pte with
  | none => exact bind (onMem _) fun _ => ite (killProcess p) (onMem _)
  | some e => exact ite (bind (onMem _) fun _ => ite (killProcess p) (onMem _)) (pure _)

theorem pgfaultHandler (p addr : Nat) : Aside (pgfaultHandler L p addr) := by
  refine ite (killProcess p) (read fun s => ?_)
  split
  · exact killProcess p
  · exact ite (faultMapped L p addr _) (faultAnonymous L p addr)

theorem load (p va : Nat) : Aside (load L p va) := by
  refine read fun s => ?_
  match s.userPte p va with
  | none => exact pgfaultHandler L p va
  | some _ => exact pure _

theorem store (p va : Nat) (b : UInt8) : Aside (store L p va b) := by
  refine read fun s => ?_
  split
  · exact onMem _
  · exact pgfaultHandler L p va

theorem freeSections (p : Nat) : Aside (freeSections L p) := by
  refine read fun s => forM fun sec => bind (onMem _) fun _ => ?_
  split
  · exact close _
  · exact pure _

theorem loadPages (file stop : Nat) (flags : UserFlags) :
    ∀ fuel vaddr filePos, Aside (loadPages L file stop flags fuel vaddr filePos)
  | 0, _, _ => pure _
  | fuel + 1, vaddr, filePos => by
    refine ite ?_ (pure _)
    refine bind (onMem _) fun page => ite (pure _) ?_
    refine bind (onMem _) fun _ => bind (inodeRead _ _ _) fun _ => bind (onMem _) fun _ => ?_
    exact ite (pure _) (loadPages file stop flags fuel _ _)

end Aside

theorem sbrk_turns (s₀ : Vm) (W : Nat → Prop) (p : Nat) (size : Int) :
    Hoare (fun s => s = s₀) (sbrk L p size) (fun r s' => ∃ sec rest, s₀.sections p = sec :: rest ∧
      r = sec.endAddr ∧ Turns s₀ W (s₀.tables.setSections p
        ({ sec with endAddr := ((sec.endAddr + size) % 2 ^ 64).toNat } :: rest)) s') := by
  refine .ite (fun _ => Triple.throw fun _ _ => trivial) fun _ => ?_
  refine .get_bind fun s hs => ?_
  subst hs
  match hsec : s.sections p with
  | [] => exact .throw fun _ _ => trivial
  | sec :: rest =>
    refine .bind (Turns.first s W (fun t => t.setSections p _) fun _ => rfl) fun _ => ?_
    refine .ite (fun _ => ?_) fun _ => Triple.pure fun _ h => ⟨sec, rest, rfl, rfl, h⟩
    exact .bind (Aside.triple (.onMem _) fun _ _ h => h) fun _ =>
      Triple.pure fun _ h => ⟨sec, rest, rfl, rfl, h⟩

/-- The section that `mmap` adds. -/
def newSection (start memSize flags : Nat) (f : Fin NFILE) (offset : Int) : Section :=
  ⟨FileSys.ST_FILE, flags, start, usize (start + memSize), some f, (offset % 2 ^ 64).toNat, memSize⟩

def mmapped (t : Tables) (p addr memSize flags : Nat) (f : Fin NFILE) (offset : Int) : Tables :=
  { t.setSections p (newSection (if addr = 0 then t.nextAddr else addr) memSize flags f offset ::
      (t.procs p).sections) with
    nextAddr := if addr = 0 then usize (t.nextAddr + memSize) else t.nextAddr }

theorem mmapSection_turns (s₀ : Vm) (W : Nat → Prop) (p addr memSize flags : Nat) (f : Fin NFILE)
    (offset : Int) :
    Hoare (fun s => s = s₀) (mmapSection p addr memSize flags f offset) (fun r s' =>
      r = (BitVec.ofNat 32 (if addr = 0 then s₀.tables.nextAddr else addr)).toInt ∧
      Turns s₀ W (mmapped s₀.tables p addr memSize flags f offset) s') := by
  refine .get_bind fun s hs => ?_
  subst hs
  refine .bind (Turns.first s W (fun t => if addr = 0 then _ else t) fun _ => ?_) fun _ => ?_
  · split <;> rfl
  refine .bind ((Aside.dup f).triple fun _ _ h => h) fun _ => ?_
  refine .bind (Turns.modify (fun t => t.setSections p _) fun _ => rfl) fun _ => ?_
  refine .pure fun s' h => ⟨rfl, ?_⟩
  obtain haddr | haddr := eq_or_ne addr 0
  · simp only [mmapped, if_pos haddr] at h ⊢
    exact h
  · simp only [mmapped, if_neg haddr] at h ⊢
    exact h

theorem mmap_turns (s₀ : Vm) (W : Nat → Prop) (p addr : Nat) (length : Int) (prot flags : Nat)
    (fd offset : Int) :
    Hoare (fun s => s = s₀) (mmap p addr length prot flags fd offset) (fun r s' =>
      r = -1 ∧ s' = s₀ ∨
      ∃ f, (s₀.tables.procs p).ofile fd.toNat = some f ∧
        FileSys.mmapValidateFile (s₀.tables.flist f) flags prot = true ∧
        r = (BitVec.ofNat 32 (if addr = 0 then s₀.tables.nextAddr else addr)).toInt ∧
        Turns s₀ W (mmapped s₀.tables p addr (FileSys.roundUp length.toNat PAGE_SIZE) flags f offset)
          s') := by
  have hfail : ∀ {Q : Int → Vm → Prop}, (∀ s', s' = s₀ → Q (-1) s') →
      Hoare (fun s => s = s₀) (Pure.pure (-1) : VmM Int) Q :=
    fun h => Triple.pure h
  refine .ite (fun _ => ?_) fun _ => hfail fun _ h => .inl ⟨rfl, h⟩
  refine .get_bind fun s hs => ?_
  subst hs
  split
  · exact hfail fun _ h => .inl ⟨rfl, h⟩
  next f hf =>
    have hfile : (s.tables.procs p).ofile fd.toNat = some f := by
      split at hf
      · cases hf
      · exact hf
    refine .ite (fun hvalid => ?_) fun _ => hfail fun _ h => .inl ⟨rfl, h⟩
    split
    · exact hfail fun _ h => .inl ⟨rfl, h⟩
    · refine .ite (fun _ => hfail fun _ h => .inl ⟨rfl, h⟩) fun _ => ?_
      refine .ite (fun _ => hfail fun _ h => .inl ⟨rfl, h⟩) fun _ => ?_
      refine (mmapSection_turns s W p addr _ flags f offset).conseq (fun _ h => h) ?_ fun _ h => h
      rintro r s' ⟨hr, h⟩
      exact .inr ⟨f, hfile, hvalid, hr, h⟩

/-- What `munmap` leaves of the sections `secs`, of which number `i` is `sec`. -/
def trimmed (secs : List Section) (i : Nat) (sec : Section) (start mappedLen : Nat) : List Section :=
  let stop := usize (start + mappedLen)
  if start = sec.beginAddr ∧ sec.endAddr ≤ stop then secs.eraseIdx i
  else if sec.beginAddr < start ∧ stop < sec.endAddr then secs
  else if start = sec.beginAddr ∧ stop < sec.endAddr then
    secs.set i { sec with
      beginAddr := usize (sec.beginAddr + mappedLen)
      offset := usize (sec.offset + mappedLen)
      length := usizeSub sec.length mappedLen }
  else if sec.beginAddr < start ∧ sec.endAddr ≤ stop then
    secs.set i { sec with endAddr := start, length := start - sec.beginAddr }
  else secs

theorem mem_trimmed {secs : List Section} {sec sec' : Section} {n : Nat} (hn : secs[n]? = some sec)
    (start mappedLen : Nat) (h : sec' ∈ trimmed secs n sec start mappedLen) :
    ∃ sec0 ∈ secs, sec'.flags = sec0.flags ∧ sec'.mmapFlags = sec0.mmapFlags ∧ sec'.fp = sec0.fp := by
  have hset : ∀ sec1 : Section, sec' ∈ secs.set n sec1 → sec1.flags = sec.flags →
      sec1.mmapFlags = sec.mmapFlags → sec1.fp = sec.fp →
      ∃ sec0 ∈ secs, sec'.flags = sec0.flags ∧ sec'.mmapFlags = sec0.mmapFlags ∧
        sec'.fp = sec0.fp := by
    intro sec1 hmem hflags hmmap hfp
    rcases List.mem_or_eq_of_mem_set hmem with hold | rfl
    · exact ⟨sec', hold, rfl, rfl, rfl⟩
    · exact ⟨sec, List.mem_of_getElem? hn, hflags, hmmap, hfp⟩
  simp only [trimmed] at h
  split at h
  · exact ⟨sec', List.mem_of_mem_eraseIdx h, rfl, rfl, rfl⟩
  split at h
  · exact ⟨sec', h, rfl, rfl, rfl⟩
  split at h
  · exact hset _ h rfl rfl rfl
  split at h
  · exact hset _ h rfl rfl rfl
  · exact ⟨sec', h, rfl, rfl, rfl⟩

theorem setSections_self (t : Tables) (p : Nat) : t.setSections p (t.procs p).sections = t := by
  simp [setSections, setProc]

theorem trimSection_turns (s₀ : Vm) (W : Nat → Prop) (p i : Nat) (sec : Section)
    (start mappedLen : Nat) :
    Hoare (Turns s₀ W s₀.tables) (trimSection p i sec start mappedLen) (fun _ =>
      Turns s₀ W (s₀.tables.setSections p (trimmed (s₀.sections p) i sec start mappedLen))) := by
  refine .get_bind fun s hs => ?_
  have hsecs : s.sections p = s₀.sections p := by rw [sections, hs.procs, sections]
  have hpre : ∀ s', s' = s → Turns s₀ W s₀.tables s' := by
    rintro _ rfl
    exact hs
  rw [hsecs]
  refine .pre ?_ hpre
  simp only [trimmed]
  split
  · refine .bind (Turns.modify (fun t => t.setSections p _) fun _ => rfl) fun _ => ?_
    refine Aside.triple ?_ fun _ _ h => h
    split
    · exact .bind (.close _) fun _ => .pure _
    · exact .pure _
  split
  · rw [sections, setSections_self]
    exact Aside.triple (.pure _) fun _ _ h => h
  split
  · refine .bind (Turns.modify (fun t => t.setSections p _) fun _ => rfl) fun _ => ?_
    exact Aside.triple (.pure _) fun _ _ h => h
  split
  · refine .bind (Turns.modify (fun t => t.setSections p _) fun _ => rfl) fun _ => ?_
    exact Aside.triple (.pure _) fun _ _ h => h
  · rw [sections, setSections_self]
    exact Aside.triple (.pure _) fun _ _ h => h

/-- The files that `munmap` of process `p` may write. -/
def Mapped (s : Vm) (p i : Nat) : Prop :=
  ∃ sec ∈ s.sections p, sec.Shared ∧ ∃ f, sec.fp = some f ∧ (s.tables.flist f).ip = some i

variable {sec : Section}

theorem writeBack_turns (s₀ : Vm) (p : Nat) (hsec : sec ∈ s₀.sections p)
    (hshared : sec.Shared) (va : Nat) :
    Preserves (Turns s₀ (Mapped s₀ p) s₀.tables) (writeBack p sec va) := by
  refine .get_bind fun s hs => ?_
  have hpre : ∀ s', s' = s → Turns s₀ (Mapped s₀ p) s₀.tables s' := by
    rintro _ rfl
    exact hs
  split
  · exact .pure hpre
  split
  · exact .throw fun _ _ => trivial
  next e _ ip hip =>
    refine .get_bind fun s1 hs1 => ?_
    subst hs1
    refine .ite (fun _ => Triple.throw fun _ _ => trivial) fun _ => ?_
    refine .ite (fun _ => ?_) fun _ => Triple.throw fun _ _ => trivial
    rintro _ rfl
    refine ⟨fun i hi => ?_, hs.tables⟩
    have hne : i ≠ ip := by
      rintro rfl
      obtain ⟨f, hf, hfi⟩ := Option.bind_eq_some_iff.mp hip
      obtain ⟨g, hg, ht⟩ := hs.tables
      rw [ht] at hfi
      rcases hg f with hnone | ⟨hsame, _⟩
      · rw [hnone] at hfi
        cases hfi
      · exact hi ⟨sec, hsec, hshared, f, hf, hsame ▸ hfi⟩
    exact (update_of_ne hne _ _).trans (hs.inodes i hi)

theorem munmap_turns (s₀ : Vm) (p addr length : Nat) :
    Hoare (fun s => s = s₀) (munmap L p addr length) (fun _ s' =>
      Turns s₀ (Mapped s₀ p) s₀.tables s' ∨
      ∃ i sec, (s₀.sections p)[i]? = some sec ∧ sec.Contains addr ∧
        Turns s₀ (Mapped s₀ p) (s₀.tables.setSections p (trimmed (s₀.sections p) i sec
          (FileSys.roundDown addr PAGE_SIZE) (FileSys.roundUp length PAGE_SIZE))) s') := by
  have hrefl : ∀ s', s' = s₀ → Turns s₀ (Mapped s₀ p) s₀.tables s' := by
    rintro _ rfl
    exact .refl _ _
  refine .ite (fun _ => Triple.pure fun s' h => .inl (hrefl s' h)) fun _ => ?_
  refine .get_bind fun s hs => ?_
  subst hs
  split
  · exact .pure fun s' h => .inl (hrefl s' h)
  next i hi =>
  split
  · exact .pure fun s' h => .inl (hrefl s' h)
  next sec hsec =>
    have hmem : sec ∈ s.sections p := List.mem_of_getElem? hsec
    have hin : sec.Contains addr := by
      obtain ⟨hlt, hp, _⟩ := List.findIdx?_eq_some_iff_getElem.mp hi
      rw [List.getElem?_eq_getElem hlt, Option.some.injEq] at hsec
      rw [hsec] at hp
      exact of_decide_eq_true hp
    refine .conseq ?_ hrefl (fun _ _ h => .inr ⟨i, sec, hsec, hin, h⟩) fun _ h => h
    have hrest : Hoare (Turns s (Mapped s p) s.tables) (do
        onMem ((Mem.pageStarts (FileSys.roundDown addr PAGE_SIZE)
          (usize (FileSys.roundDown addr PAGE_SIZE + FileSys.roundUp length PAGE_SIZE))).forM
            (Mem.unmapPage L (.proc p)))
        trimSection p i sec (FileSys.roundDown addr PAGE_SIZE) (FileSys.roundUp length PAGE_SIZE))
        (fun _ => Turns s (Mapped s p) (s.tables.setSections p (trimmed (s.sections p) i sec
          (FileSys.roundDown addr PAGE_SIZE) (FileSys.roundUp length PAGE_SIZE)))) :=
      Triple.bind (Aside.triple (.onMem _) fun _ _ h => h) fun _ => trimSection_turns _ _ _ _ _ _ _
    split
    · next hshared =>
      refine .bind (Triple.forM fun va _ => ?_) fun _ => hrest
      exact writeBack_turns s p hmem hshared va
    · exact hrest

/-- The descriptors of `o'` are among those of `o`. -/
def SubOfile (o o' : Nat → Option (Fin NFILE)) : Prop := ∀ fd f, o' fd = some f → o fd = some f

theorem copySections_turns (s₀ : Vm) (W : Nat → Prop) (p child : Nat) :
    ∀ (secs : List Section) (t : Tables), Hoare (Turns s₀ W t) (secs.forM (copySection L p child))
      (fun _ => Turns s₀ W (t.setSections child (secs.reverse ++ (t.procs child).sections)))
  | [], t => by
    rw [List.reverse_nil, List.nil_append, setSections_self]
    exact Aside.triple (.pure _) fun _ _ h => h
  | sec :: secs, t => by
    have hcopy : Hoare (Turns s₀ W t) (copySection L p child sec)
        (fun _ => Turns s₀ W (t.setSections child (sec :: (t.procs child).sections))) := by
      refine .bind (Turns.modify (fun t => t.setSections child _) fun _ => rfl) fun _ => ?_
      refine Aside.triple ?_ fun _ _ h => h
      split
      · exact .bind (.dup _) fun _ => .onMem _
      · exact .onMem _
    refine .bind hcopy fun _ => ?_
    refine (copySections_turns s₀ W p child secs _).conseq (fun _ h => h) (fun _ s' h => ?_)
      fun _ h => h
    simpa [setSections, setProc] using h

/-- The tables after `fork` of process `p`, whose child has the descriptors `o`. -/
def forked (t : Tables) (p : Nat) (o : Nat → Option (Fin NFILE)) : Tables :=
  { t.setProc t.nprocs ⟨(t.procs p).cwd, o, (t.procs p).sections.reverse⟩ with
    nprocs := t.nprocs + 1 }

/-- The tables `t` with the process `p` whose descriptors are among those of `o`. -/
def HasOfile (s₀ : Vm) (W : Nat → Prop) (t : Tables) (p : Nat) (o : Nat → Option (Fin NFILE))
    (s : Vm) : Prop :=
  ∃ o', SubOfile o o' ∧ Turns s₀ W (t.setProc p { t.procs p with ofile := o' }) s

section

variable (s₀ : Vm) (W : Nat → Prop)

include s₀ W

theorem dupOfile_turns (t : Tables) (child : Nat) (o : Nat → Option (Fin NFILE)) (fd : Nat) :
    Preserves (HasOfile s₀ W t child o)
      (match o fd with
        | some f => modifyTables fun t => (t.dup f).setOfile child fd (some f)
        | none => Pure.pure ()) := by
  split
  next f hf =>
    refine .modify fun s hs => ?_
    obtain ⟨o', ho, h⟩ := hs
    obtain ⟨g, hg, ht⟩ := h.tables
    refine ⟨update o' fd (some f), fun fd' f' hfd' => ?_, h.inodes,
      (s.tables.dup f).flist, hg.trans ?_, ?_⟩
    · obtain rfl | heq := eq_or_ne fd' fd
      · rw [update_self] at hfd'
        exact hf.trans hfd'
      · rw [update_of_ne heq] at hfd'
        exact ho fd' f' hfd'
    · have hdup := SubFiles.dup s.tables f
      rwa [ht] at hdup ⊢
    · rw [ht]
      simp [setOfile, setProc, dup, setFile]
  next => exact .pure _

theorem fork_turns (p : Nat) :
    Hoare (fun s => s = s₀) (fork L p) (fun _ s' => ∃ o, SubOfile (s₀.tables.procs p).ofile o ∧
      Turns s₀ W (forked s₀.tables p o) s') := by
  refine .get_bind fun s hs => ?_
  subst hs
  have hstart : ∀ s', s' = s → Turns s W s.tables s' := by
    rintro _ rfl
    exact .refl _ W
  refine .bind ((Aside.triple (.onMem _) fun _ _ h => h).pre hstart) fun _ => ?_
  have hnew : Hoare (Turns s W s.tables) (modify fun s' : Vm => { s' with
      tables := s'.tables.setProc s.tables.nprocs ⟨none, fun _ => none, []⟩
      killed := update s'.killed s.tables.nprocs false } : VmM Unit)
      (fun _ => Turns s W (s.tables.setProc s.tables.nprocs ⟨none, fun _ => none, []⟩)) := by
    refine .modify fun s' h => ⟨h.inodes, ?_⟩
    obtain ⟨g, hg, ht⟩ := h.tables
    exact ⟨g, hg, by rw [ht]; rfl⟩
  refine .bind hnew fun _ => ?_
  refine .bind (Aside.triple (.forM fun _ => .onMem _) fun _ _ h => h) fun _ => ?_
  refine .bind (copySections_turns L s W p s.tables.nprocs _ _) fun _ => ?_
  have hloop := Keeps.forM (l := List.range NOFILE) fun fd => dupOfile_turns s W
    (s.tables.setProc s.tables.nprocs ⟨none, fun _ => none, (s.tables.procs p).sections.reverse⟩)
    s.tables.nprocs (s.tables.procs p).ofile fd
  refine .bind (Triple.pre hloop fun s' h => ⟨fun _ => none, (by simp [SubOfile]), ?_⟩)
    fun _ => ?_
  · simpa [setSections, setProc] using h
  refine .bind (Triple.modify fun s' h => ?_) fun _ => Triple.pure fun _ h => h
  obtain ⟨o, ho, h⟩ := h
  refine ⟨o, ho, h.inodes, ?_⟩
  obtain ⟨g, hg, ht⟩ := h.tables
  refine ⟨g, hg, ?_⟩
  rw [ht]
  simp [forked, setCwd, setProc]

theorem closeOfile_turns (t : Tables) (p : Nat) (o : Nat → Option (Fin NFILE)) (fd : Nat) :
    Preserves (HasOfile s₀ W t p o) (do
      let s ← get
      match (s.tables.procs p).ofile fd with
      | some f => modifyTables fun t => (t.close f).setOfile p fd none
      | none => Pure.pure () : VmM Unit) := by
  refine .read fun s => ?_
  split
  next f _ =>
    refine .modify fun s hs => ?_
    obtain ⟨o', ho, h⟩ := hs
    obtain ⟨g, hg, ht⟩ := h.tables
    refine ⟨update o' fd none, fun fd' f' hfd' => ?_, h.inodes,
      (s.tables.close f).flist, hg.trans ?_, ?_⟩
    · obtain rfl | heq := eq_or_ne fd' fd
      · rw [update_self] at hfd'
        cases hfd'
      · rw [update_of_ne heq] at hfd'
        exact ho fd' f' hfd'
    · have hclose := SubFiles.close s.tables f
      rwa [ht] at hclose ⊢
    · show (s.tables.close f).setOfile p fd none = _
      rw [close_eq, ht]
      simp [setOfile, setProc]
  next => exact .pure _

theorem exit_turns (p : Nat) :
    Hoare (fun s => s = s₀) (exit L p) (fun _ s' => ∃ o, SubOfile (s₀.tables.procs p).ofile o ∧
      Turns s₀ W (s₀.tables.setProc p ⟨none, o, []⟩) s') := by
  have hloop := Keeps.forM (l := List.range NOFILE) fun fd => closeOfile_turns s₀ W s₀.tables p
    (s₀.tables.procs p).ofile fd
  refine .bind (Triple.pre hloop fun s' hs => ?_) fun _ => ?_
  · subst hs
    refine ⟨_, fun _ _ h => h, ?_⟩
    simpa [setProc] using Turns.refl s' W
  refine .of_exists fun o => Triple.of_and fun ho => ?_
  refine .bind (Turns.modify (fun t => t.setCwd p none) fun _ => rfl) fun _ => ?_
  refine .bind (Aside.triple (.freeSections L p) fun _ _ h => h) fun _ => ?_
  refine .bind (Turns.modify (fun t => t.setSections p []) fun _ => rfl) fun _ => ?_
  refine Aside.triple (.onMem _) fun _ s' h => ⟨o, ho, ?_⟩
  simpa [setSections, setCwd, setProc] using h

end

/-! ### `execve` -/

def ehdr (file : FileData) : FileSys.Elf64Ehdr := fun k => file.bytes k

/-- Program header `i` of an executable. -/
def phdr (file : FileData) (i : Nat) : FileSys.Elf64Phdr :=
  fun k => file.bytes (usize ((ehdr file).readLE 32 8 + i * FileSys.PHDR_BYTES) + k)

def segment (ph : FileSys.Elf64Phdr) : Option Section :=
  (FileSys.getSectionType (ph.readLE 4 4)).map fun segType =>
    ⟨segType, 0, ph.readLE 16 8,
      if segType = ST_TEXT then ph.readLE 16 8 + ph.readLE 32 8 else ph.readLE 16 8 + ph.readLE 40 8,
      none, 0, 0⟩

/-- The sections of the program headers `is`, in the order in which they are loaded. -/
def segments (file : FileData) (is : List Nat) : List Section :=
  is.filterMap fun i => if (phdr file i).readLE 0 4 = 1 then segment (phdr file i) else none

theorem mem_segments {file : FileData} {is : List Nat} (h : sec ∈ segments file is) :
    ∃ i ∈ is, segment (phdr file i) = some sec := by
  rw [segments, List.mem_filterMap] at h
  obtain ⟨i, hi, hsec⟩ := h
  split at hsec
  · exact ⟨i, hi, hsec⟩
  · cases hsec

theorem segment_fp {ph : FileSys.Elf64Phdr} (h : segment ph = some sec) : sec.fp = none := by
  obtain ⟨segType, _, rfl⟩ := Option.map_eq_some_iff.mp h
  rfl

theorem segments_skip {file : FileData} {i : Nat} (h : (phdr file i).readLE 0 4 ≠ 1) (is : List Nat) :
    segments file (i :: is) = segments file is := by
  simp [segments, h]

theorem segments_load {file : FileData} {i : Nat} (h : (phdr file i).readLE 0 4 = 1)
    (hsec : segment (phdr file i) = some sec) (is : List Nat) :
    segments file (i :: is) = sec :: segments file is := by
  simp [segments, h, hsec]

def elfSections (file : FileData) : List Section :=
  (segments file (List.range ((ehdr file).readLE 56 2))).reverse

theorem fp_of_mem_elfSections {file : FileData} (h : sec ∈ elfSections file) : sec.fp = none := by
  rw [elfSections, List.mem_reverse] at h
  obtain ⟨_, _, hsec⟩ := mem_segments h
  exact segment_fp hsec

section

variable {L} {s₀ : Vm} {W : Nat → Prop} {t : Tables} {file : Nat}

theorem inodeRead_turns (hW : ¬ W file) (offset count : Nat) :
    Hoare (Turns s₀ W t) (inodeRead file offset count) (fun r s' =>
      r.1 = (fun i => (s₀.inodes file).bytes (offset + i)) ∧ Turns s₀ W t s') := by
  refine .get_bind fun s hs => ?_
  refine .ite (fun _ => Triple.throw fun _ _ => trivial) fun _ => ?_
  refine .ite (fun _ => Triple.pure ?_) fun _ => Triple.throw fun _ _ => trivial
  rintro _ rfl
  exact ⟨by rw [hs.inodes file hW], hs⟩

theorem mapElfSegment_turns (ph : FileSys.Elf64Phdr) :
    Hoare (Turns s₀ W t) (mapElfSegment L file ph) (fun r s' =>
      Turns s₀ W t s' ∧ (r.isSome = true → r = segment ph)) := by
  refine .ite (fun _ => Triple.throw fun _ _ => trivial) fun _ => ?_
  split
  · exact .pure fun _ h => ⟨h, nofun⟩
  next segType htype =>
    refine .bind (Aside.triple (.loadPages _ _ _ _ _ _ _) fun _ _ h => h) fun done => ?_
    split
    · exact .pure fun _ h => ⟨h, nofun⟩
    have hseg : segment ph = some ⟨segType, 0, ph.readLE 16 8,
        if segType = ST_TEXT then ph.readLE 16 8 + ph.readLE 32 8
          else ph.readLE 16 8 + ph.readLE 40 8, none, 0, 0⟩ := by
      rw [segment, htype]
      rfl
    refine .ite (fun _ => ?_) fun _ => Triple.pure fun _ h => ⟨h, fun _ => hseg.symm⟩
    refine .bind (Aside.triple (.onMem _) fun _ _ h => h) fun _ => ?_
    exact .pure fun _ h => ⟨h, fun _ => hseg.symm⟩

theorem loadSegments_turns (hW : ¬ W file) : ∀ (is : List Nat) (secs : List Section),
    Hoare (Turns s₀ W t) (loadSegments L file (ehdr (s₀.inodes file)) secs is) (fun r s' =>
      Turns s₀ W t s' ∧
        (r.isSome = true → r = some ((segments (s₀.inodes file) is).reverse ++ secs)))
  | [], secs => Triple.pure fun _ h => ⟨h, fun _ => rfl⟩
  | i :: is, secs => by
    refine .bind (inodeRead_turns hW _ _) fun r => Triple.of_and fun hr => ?_
    obtain ⟨src, n⟩ := r
    subst hr
    refine .ite (fun _ => Triple.pure fun _ h => ⟨h, nofun⟩) fun _ => ?_
    have hrest := loadSegments_turns hW is
    refine .ite (fun htype => ?_) fun htype => ?_
    · rw [segments_skip htype]
      exact hrest secs
    rw [not_not] at htype
    refine .bind (mapElfSegment_turns _) fun seg => ?_
    match seg with
    | none => exact .pure fun _ h => ⟨h.1, nofun⟩
    | some seg =>
      rintro s ⟨hs, hseg⟩
      rw [segments_load htype (hseg rfl).symm, List.reverse_cons, List.append_assoc]
      exact hrest (seg :: secs) s hs

theorem readElf_turns (hW : ¬ W file) :
    Hoare (Turns s₀ W t) (readElf L file) (fun r s' => Turns s₀ W t s' ∧
      (r.isSome = true → r = some (elfSections (s₀.inodes file)))) := by
  refine .bind (inodeRead_turns hW _ _) fun r => Triple.of_and fun hr => ?_
  obtain ⟨src, n⟩ := r
  subst hr
  refine .ite (fun _ => Triple.pure fun _ h => ⟨h, nofun⟩) fun _ => ?_
  have hhdr : (fun k : Fin FileSys.EHDR_BYTES => (s₀.inodes file).bytes (0 + k)) =
      ehdr (s₀.inodes file) := by
    funext k
    rw [Nat.zero_add, ehdr]
  refine .ite (fun _ => ?_) fun _ => Triple.pure fun _ h => ⟨h, nofun⟩
  simp only [hhdr]
  refine (loadSegments_turns hW _ []).conseq (fun _ h => h) (fun r s' h => ⟨h.1, fun hr => ?_⟩)
    fun _ h => h
  rw [h.2 hr, List.append_nil, elfSections]

end

theorem install_turns (s₀ : Vm) (W : Nat → Prop) (p : Nat) (secs : List Section)
    (argv envp : List (List UInt8)) :
    Hoare (Turns s₀ W s₀.tables) (install L p secs argv envp) (fun _ =>
      Turns s₀ W (s₀.tables.setSections p (FileSys.stackSection :: secs))) := by
  refine .bind (Aside.triple (.onMem _) fun _ _ h => h) fun _ => ?_
  refine .bind (Turns.modify (fun t => t.setSections p _) fun _ => rfl) fun _ => ?_
  exact .pure fun _ h => h

theorem execve_turns (s₀ : Vm) (W : Nat → Prop) (p : Nat) (file : Option Nat)
    (argv envp : List (List UInt8)) (hW : ∀ i, ¬ W i) :
    Hoare (fun s => s = s₀) (execve L p file argv envp) (fun _ s' =>
      Turns s₀ W s₀.tables s' ∨ ∃ ip, file = some ip ∧
        Turns s₀ W (s₀.tables.setSections p
          (FileSys.stackSection :: elfSections (s₀.inodes ip))) s') := by
  have hstart : ∀ s', s' = s₀ → Turns s₀ W s₀.tables s' := by
    rintro _ rfl
    exact .refl _ W
  refine .bind ((Aside.triple (.onMem _) fun _ _ h => h).pre hstart) fun _ => ?_
  match file with
  | none => exact .pure fun _ h => .inl h
  | some ip =>
    refine .bind (readElf_turns (hW ip)) fun secs => ?_
    match secs with
    | none =>
      refine .pre (P := Turns s₀ W s₀.tables) ?_ fun _ h => h.1
      refine .bind (Aside.triple (.onMem _) fun _ _ h => h) fun _ => ?_
      exact .pure fun _ h => .inl h
    | some secs =>
      rintro s ⟨hs, hsecs⟩
      obtain rfl := Option.some.inj (hsecs rfl)
      exact (install_turns L s₀ W p _ argv envp s hs).imp (fun _ _ h => .inr ⟨ip, rfl, h⟩)
        fun _ h => h

/-! ## Steps -/

def noFile (_ : Nat) : Prop := False

/-- What a step does to the tables and the files. -/
def Outcome (s : Vm) : VmOp → Vm → Prop
  | .load _ _, s' | .store _ _ _, s' => Turns s noFile s.tables s'
  | .sbrk p size, s' => ∃ sec rest, s.sections p = sec :: rest ∧
      Turns s noFile (s.tables.setSections p
        ({ sec with endAddr := ((sec.endAddr + size) % 2 ^ 64).toNat } :: rest)) s'
  | .mmap p addr length prot flags fd offset, s' => s' = s ∨
      ∃ f, (s.tables.procs p).ofile fd.toNat = some f ∧
        FileSys.mmapValidateFile (s.tables.flist f) flags prot = true ∧
        Turns s noFile (mmapped s.tables p addr (FileSys.roundUp length.toNat PAGE_SIZE) flags f offset)
          s'
  | .munmap p addr length, s' => Turns s (Mapped s p) s.tables s' ∨
      ∃ i sec, (s.sections p)[i]? = some sec ∧ sec.Contains addr ∧
        Turns s (Mapped s p) (s.tables.setSections p (trimmed (s.sections p) i sec
          (FileSys.roundDown addr PAGE_SIZE) (FileSys.roundUp length PAGE_SIZE))) s'
  | .fork p, s' => ∃ o, SubOfile (s.tables.procs p).ofile o ∧ Turns s noFile (forked s.tables p o) s'
  | .execve p file _ _, s' => Turns s noFile s.tables s' ∨ ∃ ip, file = some ip ∧
      Turns s noFile (s.tables.setSections p (FileSys.stackSection :: elfSections (s.inodes ip))) s'
  | .exit p, s' => ∃ o, SubOfile (s.tables.procs p).ofile o ∧
      Turns s noFile (s.tables.setProc p ⟨none, o, []⟩) s'

variable {L} in
theorem step_outcome {s s' : Vm} {op : VmOp} (h : s.step L op = .ok s') : Outcome s op s' := by
  have hrefl : ∀ s1, s1 = s → Turns s noFile s.tables s1 := by
    rintro _ rfl
    exact .refl _ _
  refine step_post h (E := fun _ => True) ?_
  cases op with
  | load p va => exact (Aside.triple (.load L p va) fun _ _ h => h).pre hrefl
  | store p va b => exact (Aside.triple (.store L p va b) fun _ _ h => h).pre hrefl
  | sbrk p size =>
    refine .bind (sbrk_turns L s noFile p size) fun _ => Triple.pure fun _ h => ?_
    obtain ⟨sec, rest, hsec, _, ht⟩ := h
    exact ⟨sec, rest, hsec, ht⟩
  | mmap p addr length prot flags fd offset =>
    refine .bind (mmap_turns s noFile p addr length prot flags fd offset) fun _ =>
      Triple.pure fun s' h => ?_
    rcases h with ⟨_, rfl⟩ | ⟨f, hf, hvalid, _, ht⟩
    · exact .inl rfl
    · exact .inr ⟨f, hf, hvalid, ht⟩
  | munmap p addr length =>
    exact .bind (munmap_turns L s p addr length) fun _ => Triple.pure fun _ h => h
  | fork p => exact .bind (fork_turns L s noFile p) fun _ => Triple.pure fun _ h => h
  | execve p file argv envp =>
    exact .bind (execve_turns L s noFile p file argv envp fun _ h => h) fun _ =>
      Triple.pure fun _ h => h
  | exit p => exact exit_turns L s noFile p

end Vm

end OsKernel
