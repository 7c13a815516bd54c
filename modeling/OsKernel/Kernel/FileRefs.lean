import Mathlib.Algebra.BigOperators.Pi
import Mathlib.Algebra.BigOperators.Ring.Finset
import Mathlib.Algebra.Order.BigOperators.Group.Finset
import Mathlib.Data.Fintype.BigOperators
import OsKernel.Lib.Threads
import OsKernel.Kernel.FileTable
import OsKernel.Fs.RefCounts

/-!
# Reference counts over system calls

The references to an inode that last from one system call to the next are those of live
files, of working directories and of `inodes.root` (`Tables.refs`).  `At t x V` says that
the tables are `t`, that every inode on the list has `t.refs + x` as its count, where `x` are the
references that the running call holds itself, and that the locks have the values `V`.  Every call
starts and ends with `x = 0` and all locks free.
-/

namespace OsKernel

open Prog Function Finset

/-! ## References from the tables -/

/-- The references to inodes that a file of the table has. -/
def File.refs (f : File) : Nat → Int :=
  if 0 < f.ref ∧ f.type = .FD_INODE then optRef f.ip else 0

/-- A file that is not in use has no type, and only one of type `FD_INODE` has an inode. -/
def File.Ok (f : File) : Prop :=
  (¬ 0 < f.ref → f.type = .FD_NONE) ∧ (f.type ≠ .FD_INODE → f.ip = Option.none)

theorem File.ok_none (n : Int) : File.Ok { File.none with ref := n } := ⟨fun _ => rfl, fun _ => rfl⟩

theorem optRef_nonneg : ∀ (r : Option Nat) (ip : Nat), 0 ≤ optRef r ip
  | none, _ => Int.le_refl 0
  | some jp, ip => ref_nonneg jp ip

theorem File.refs_nonneg (f : File) (ip : Nat) : 0 ≤ f.refs ip := by
  rw [File.refs]
  split
  · exact optRef_nonneg f.ip ip
  · exact Int.le_refl 0

namespace Tables

/-- The references of files, working directories and `inodes.root`. -/
def refs (t : Tables) : Nat → Int :=
  ∑ f, (t.flist f).refs + ∑ p ∈ Finset.range t.nprocs, optRef (t.procs p).cwd + optRef t.root

/-- Every file of the table is one that the calls can make. -/
def FilesOk (t : Tables) : Prop := ∀ f, (t.flist f).Ok

variable {t : Tables} {p : Nat}

theorem refs_nonneg (t : Tables) (ip : Nat) : 0 ≤ t.refs ip := by
  rw [refs, Pi.add_apply, Pi.add_apply, Finset.sum_apply, Finset.sum_apply]
  refine Int.add_nonneg (Int.add_nonneg ?_ ?_) (optRef_nonneg _ ip)
  · exact sum_nonneg fun f _ => (t.flist f).refs_nonneg ip
  · exact sum_nonneg fun q _ => optRef_nonneg _ ip

/-- A working directory is referenced. -/
theorem refs_cwd (hp : p < t.nprocs) {w : Nat} (hw : (t.procs p).cwd = some w) : t.refs w ≠ 0 := by
  have hfiles : 0 ≤ ∑ f, (t.flist f).refs w :=
    sum_nonneg fun f _ => (t.flist f).refs_nonneg w
  have hcwd := single_le_sum (fun q _ => optRef_nonneg (t.procs q).cwd w) (mem_range.mpr hp)
  have hroot := optRef_nonneg t.root w
  rw [hw, optRef, ref_self] at hcwd
  rw [refs, Pi.add_apply, Pi.add_apply, Finset.sum_apply, Finset.sum_apply]
  omega

/-- Another file in a slot of the table. -/
theorem refs_setFile (t : Tables) (f : Fin NFILE) (file : File) :
    (t.setFile f file).refs = t.refs + (file.refs - (t.flist f).refs) := by
  rw [refs, refs, setFile, sum_update (mem_univ f) File.refs t.flist file]
  abel

/-- Another working directory. -/
theorem refs_setCwd (hp : p < t.nprocs) (cwd : Option Nat) :
    (t.setCwd p cwd).refs = t.refs + (optRef cwd - optRef (t.procs p).cwd) := by
  rw [refs, refs, setCwd, setProc,
    sum_update (mem_range.mpr hp) (fun proc => optRef proc.cwd) t.procs _]
  abel

/-- A new process references its working directory. -/
theorem refs_addProc (t : Tables) (proc : ProcFiles) :
    refs { t.setProc t.nprocs proc with nprocs := t.nprocs + 1 } = t.refs + optRef proc.cwd := by
  have hcwd : ∀ q ∈ range t.nprocs,
      optRef (update t.procs t.nprocs proc q).cwd = optRef (t.procs q).cwd := by
    intro q hq
    rw [update_of_ne (Nat.ne_of_lt (mem_range.mp hq))]
  rw [refs, refs, setProc]
  dsimp only
  rw [sum_range_succ, sum_congr rfl hcwd, update_self]
  abel

/-- The last close of a file drops its reference. -/
theorem refs_close (t : Tables) (f : Fin NFILE) :
    (t.close f).refs + optRef (t.lastIp f) = t.refs := by
  rw [close, lastIp]
  by_cases h1 : (t.flist f).ref < 1
  · rw [if_pos h1, if_pos h1]
    exact add_zero _
  rw [if_neg h1, if_neg h1]
  have hpos : 0 < (t.flist f).ref := by omega
  by_cases h2 : 0 < (t.flist f).ref - 1
  · have hsame : File.refs { t.flist f with ref := (t.flist f).ref - 1 } = (t.flist f).refs :=
      if_congr (and_congr_left' (iff_of_true h2 hpos)) rfl rfl
    rw [if_pos h2, if_pos h2, refs_setFile, hsame, sub_self, add_zero]
    exact add_zero _
  have hnone : File.none.refs = 0 := rfl
  rw [if_neg h2, if_neg h2, refs_setFile, hnone]
  cases htype : (t.flist f).type with
  | FD_INODE =>
    have hfile : (t.flist f).refs = optRef (t.flist f).ip := if_pos ⟨hpos, htype⟩
    rw [hfile]
    abel
  | FD_PIPE =>
    have hfile : (t.flist f).refs = 0 := if_neg fun h => by simp [htype] at h
    rw [hfile, sub_self, add_zero]
    exact add_zero _
  | FD_NONE =>
    have hfile : (t.flist f).refs = 0 := if_neg fun h => by simp [htype] at h
    rw [hfile, sub_self, add_zero]
    exact add_zero _

/-- A second descriptor for a file references nothing more. -/
theorem refs_dup (h : t.FilesOk) (f : Fin NFILE) : (t.dup f).refs = t.refs := by
  have hsame : File.refs { t.flist f with ref := (t.flist f).ref + 1 } = (t.flist f).refs := by
    by_cases hpos : 0 < (t.flist f).ref
    · have hpos' : 0 < (t.flist f).ref + 1 := by omega
      simp [File.refs, hpos, hpos']
    · simp [File.refs, (h f).1 hpos]
  rw [dup, refs_setFile, hsame, sub_self, add_zero]

/-- The same processes, with the same working directories. -/
structure SameCwd (t t' : Tables) : Prop where
  nprocs : t'.nprocs = t.nprocs
  cwd : ∀ q, (t'.procs q).cwd = (t.procs q).cwd

theorem SameCwd.refl (t : Tables) : t.SameCwd t := ⟨rfl, fun _ => rfl⟩

theorem SameCwd.trans {t1 t2 t3 : Tables} (h : t1.SameCwd t2) (h' : t2.SameCwd t3) :
    t1.SameCwd t3 :=
  ⟨h'.nprocs.trans h.nprocs, fun q => (h'.cwd q).trans (h.cwd q)⟩

theorem sameCwd_setFile (t : Tables) (f : Fin NFILE) (file : File) :
    t.SameCwd (t.setFile f file) := ⟨rfl, fun _ => rfl⟩

theorem sameCwd_close (t : Tables) (f : Fin NFILE) : t.SameCwd (t.close f) := by
  rw [close]
  split
  · exact .refl t
  · split <;> exact t.sameCwd_setFile f _

theorem sameCwd_setProc (t : Tables) (p : Nat) {proc : ProcFiles}
    (h : proc.cwd = (t.procs p).cwd) : t.SameCwd (t.setProc p proc) := by
  refine ⟨rfl, fun q => ?_⟩
  simp only [setProc]
  by_cases hq : q = p
  · rw [hq, update_self, h]
  · rw [update_of_ne hq]

theorem refs_setProc (t : Tables) (p : Nat) {proc : ProcFiles}
    (h : proc.cwd = (t.procs p).cwd) : (t.setProc p proc).refs = t.refs := by
  have hcwd := (t.sameCwd_setProc p h).cwd
  simp only [refs, hcwd]
  rfl

section

variable (h : t.FilesOk)

include h

theorem FilesOk.setFile {f : Fin NFILE} {file : File} (hf : file.Ok) :
    (t.setFile f file).FilesOk := fun g => by
  simp only [Tables.setFile]
  by_cases hgf : g = f
  · rwa [hgf, update_self]
  · rw [update_of_ne hgf]
    exact h g

theorem FilesOk.setProc (p : Nat) (proc : ProcFiles) : (t.setProc p proc).FilesOk := h

theorem FilesOk.close (f : Fin NFILE) : (t.close f).FilesOk := by
  rw [Tables.close]
  split
  · exact h
  split
  next h2 => exact h.setFile ⟨fun hn => absurd h2 hn, (h f).2⟩
  next => exact h.setFile (File.ok_none 0)

theorem FilesOk.dup (f : Fin NFILE) : (t.dup f).FilesOk :=
  h.setFile ⟨fun hn => (h f).1 (by dsimp only at hn; omega), (h f).2⟩

/-- The inode of an open file is referenced. -/
theorem refs_ip {f : Fin NFILE} {ip : Nat} (hip : (t.flist f).ip = some ip) : t.refs ip ≠ 0 := by
  have htype : (t.flist f).type = .FD_INODE := by
    by_contra hty
    rw [(h f).2 hty] at hip
    cases hip
  have hpos : 0 < (t.flist f).ref := by
    by_contra hn
    rw [(h f).1 hn] at htype
    cases htype
  have hfile : (t.flist f).refs ip = 1 := by
    rw [File.refs, if_pos ⟨hpos, htype⟩, hip, optRef, ref_self]
  have hle := single_le_sum (fun g _ => (t.flist g).refs_nonneg ip) (mem_univ f)
  have hcwd : 0 ≤ ∑ q ∈ range t.nprocs, optRef (t.procs q).cwd ip :=
    sum_nonneg fun q _ => optRef_nonneg _ ip
  have hroot := optRef_nonneg t.root ip
  rw [refs, Pi.add_apply, Pi.add_apply, Finset.sum_apply, Finset.sum_apply]
  omega

end

/-- `file_alloc` takes a file that nobody uses. -/
theorem findFree_ref {n i : Nat} {f : Fin NFILE} (h : t.findFree n i = some f) :
    (t.flist f).ref = 0 := by
  induction n generalizing i with
  | zero => cases h
  | succ n ih =>
    rw [findFree] at h
    split at h
    · split at h
      next href =>
        cases h
        exact href
      next => exact ih h
    · cases h

/-- If the loop of `file_alloc` finds nothing, every `File` has references. -/
theorem findFree_none {n i : Nat} (h : t.findFree n i = none) (f : Fin NFILE) (hi : i ≤ f.val)
    (hf : f.val < i + n) : (t.flist f).ref ≠ 0 := by
  induction n generalizing i with
  | zero => omega
  | succ n ih =>
    rw [findFree, dif_pos (Nat.lt_of_le_of_lt hi f.isLt)] at h
    split at h
    next => cases h
    next hne =>
      obtain heq | hlt := Nat.eq_or_lt_of_le hi
      · subst heq
        exact hne
      · exact ih h hlt (by omega)

end Tables

/-! ## Rules -/

/-- No inode is locked. -/
def unlocked : Nat → Int := fun _ => 1

theorem unlocked_le (ip : Nat) : unlocked ip ≤ 1 := Int.le_refl 1

namespace FileSys

/-- The tables are `t`, the running call holds the references `x`, and the locks are `V`. -/
def At {κ : Type} (t : Tables) (x V : Nat → Int) (s : FileSys κ) : Prop :=
  s.tables = t ∧ ∀ w, Counts w (t.refs + x) V { s.fs with cwd := w }

/-- Between two calls, every count is that of the tables. -/
def Balanced {κ : Type} (s : FileSys κ) : Prop := s.tables.FilesOk ∧ At s.tables 0 unlocked s

section

variable {κ : Type} {env : FsEnv κ} {α β : Type} {t t' : Tables} {p w ip : Nat} {x y V W : Nat → Int}

theorem At.balanced {s : FileSys κ} (h : At t 0 unlocked s) (hd : t.FilesOk) : s.Balanced := by
  obtain ⟨rfl, hc⟩ := h
  exact ⟨hd, rfl, hc⟩

/-- The tables that a call reads are known. -/
theorem at_get {f : FileSys κ → KernelM κ β} {R : β → FileSys κ → Prop} {E : FileSys κ → Prop}
    (h : ∀ s : FileSys κ, s.tables = t → Triple (At t x V) (f s) R E) :
    Triple (At t x V) (get >>= f) R E := fun s hs => h s hs.1 s hs

/-- A change of the tables that moves references to the call, or back. -/
theorem at_modify {g : Tables → Tables} (h : (g t).refs + y = t.refs + x) :
    Hoare (At t x V) (modifyTables g : KernelM κ Unit) (fun _ => At (g t) y V) := by
  rintro s ⟨rfl, hc⟩
  refine ⟨rfl, fun w => ?_⟩
  rw [h]
  exact hc w

variable {prog : FsM κ α}

/-- A call of the inode layer changes what the running call holds. -/
theorem at_onFs {Y Z : α → Nat → Int}
    (h : Hoare (Counts ((t.procs p).cwd.getD 0) (t.refs + x) V) prog
      (fun r => Counts ((t.procs p).cwd.getD 0) (t.refs + Y r) (Z r))) :
    Hoare (At t x V) (onFs p prog) (fun r => At t (Y r) (Z r)) := by
  rintro s ⟨rfl, hc⟩
  rw [onFs, exec_zoom]
  rcases h.elim (hc _) with ⟨a, f, he, hq⟩ | ⟨e, f, he, -⟩
  · rw [he]
    refine ⟨rfl, fun w => ?_⟩
    exact ⟨rfl, hq.nodup, hq.lt, hq.rc, hq.lock, hq.other⟩
  · rw [he]
    trivial

/-- A call that touches neither counts nor locks. -/
theorem at_inert (h : Inert prog) : Preserves (At t x V) (onFs p prog) := at_onFs h.counts

theorem add_nonneg_of (hx : ∀ ip, 0 ≤ x ip) (ip : Nat) : 0 ≤ (t.refs + x) ip :=
  Int.add_nonneg (t.refs_nonneg ip) (hx ip)

/-- A put gives back what the call holds. -/
theorem at_put (ctx : Option Nat) (hx : 0 ≤ (t.refs + x) ip) (hV : V ip ≤ 1) :
    Hoare (At t (x + ref ip) V) (onFs p (inodePut env ctx ip)) (fun _ => At t x V) := by
  refine at_onFs (Y := fun _ => x) ?_
  rw [← add_assoc]
  exact inodePut_counts ctx hx hV

theorem at_lock (h : (t.refs + x) ip ≠ 0) :
    Hoare (At t x V) (onFs p (inodeLock env ip)) (fun _ => At t x (V - ref ip)) :=
  at_onFs (inodeLock_counts h)

theorem at_unlock (hV : V ip ≤ 1) :
    Hoare (At t x (V - ref ip)) (onFs p (inodeUnlock ip : FsM κ Unit)) (fun _ => At t x V) :=
  at_onFs (inodeUnlock_counts hV)

theorem at_unlockPut (ctx : Option Nat) (hx : ∀ ip, 0 ≤ x ip) (hV : V ip ≤ 1) :
    Hoare (At t (x + ref ip) (V - ref ip)) (onFs p (unlockPut env ctx ip)) (fun _ => At t x V) := by
  refine at_onFs (Y := fun _ => x) ?_
  rw [← add_assoc]
  exact unlockPut_counts ctx (add_nonneg_of hx ip) hV

/-! ## Files -/

/-- `file_close` drops the reference of the file, if it was the last close. -/
theorem fileClose_at (f : Fin NFILE) (hx : ∀ ip, 0 ≤ x ip) (hV : ∀ ip, V ip ≤ 1) :
    Hoare (At t x V) (fileClose env p f) (fun _ => At (t.close f) x V) := by
  refine at_get fun s hs => ?_
  rw [hs]
  have hclose : (t.close f).refs + (x + optRef (t.lastIp f)) = t.refs + x := by
    rw [← t.refs_close f]
    abel
  refine .bind (at_modify hclose) fun _ => ?_
  cases t.lastIp f with
  | none => exact .pure fun _ h => by simpa [optRef] using h
  | some ip =>
    refine at_onFs (Y := fun _ => x) (transaction_counts (Q := fun _ => (t.close f).refs + x) ?_)
    rw [optRef, ← add_assoc]
    exact inodePut_counts _ (add_nonneg_of hx ip) (hV ip)

/-- `fdalloc` only fills a slot of descriptors. -/
theorem fdalloc_at (f : Fin NFILE) : Hoare (At t x V) (fdalloc p f : KernelM κ (Option Nat))
      (fun r => At (r.elim t fun fd => t.setOfile p fd (some f)) x V) := by
  refine at_get fun s _ => ?_
  split
  next fd _ =>
    refine .bind (at_modify (y := x) ?_) fun _ => Triple.pure fun _ h => h
    rw [Tables.setOfile, Tables.refs_setProc _ _ (by rfl)]
  next => exact .pure fun _ h => h

/-- `file_alloc` only takes a slot of the table. -/
theorem fileAlloc_at : Hoare (At t x V) (fileAlloc : KernelM κ (Option (Fin NFILE)))
      (fun r => At (r.elim t fun f => t.setFile f { File.none with ref := 1 }) x V) := by
  refine at_get fun s hs => ?_
  split
  next f hf =>
    rw [hs] at hf
    have href := Tables.findFree_ref hf
    have hold : (t.flist f).refs = 0 := if_neg fun h => by omega
    have hnew : File.refs { File.none with ref := 1 } = 0 := rfl
    refine .bind (at_modify (y := x) ?_) fun _ => Triple.pure fun _ h => h
    rw [Tables.refs_setFile, hold, hnew, sub_zero, add_zero]
  next => exact .pure fun _ h => h

/-! ## Tables that change

The calls that only open and close files leave the working directories as they are. -/

/-- Like `At`, for some tables with the working directories of `t`. -/
def Near (t : Tables) (x V : Nat → Int) (s : FileSys κ) : Prop :=
  ∃ t', t'.FilesOk ∧ t.SameCwd t' ∧ At t' x V s

theorem At.near {s : FileSys κ} (h : At t' x V s) (hd : t'.FilesOk) (ht : t.SameCwd t') :
    Near t x V s := ⟨t', hd, ht, h⟩

/-- A rule for tables that are not known, except for working directories. -/
theorem near_elim {prog : KernelM κ α} {Q : α → FileSys κ → Prop} {E : FileSys κ → Prop}
    (h : ∀ t' : Tables, t'.FilesOk → t.SameCwd t' → Triple (At t' x V) prog Q E) :
    Triple (Near t x V) prog Q E := fun s hs => by
  obtain ⟨t', hd, ht, hs⟩ := hs
  exact h t' hd ht s hs

/-- A call that changes the tables in a known way. -/
theorem near_of_at {prog : KernelM κ α} {g : α → Tables → Tables}
    (hg : ∀ a (t' : Tables), t'.FilesOk → (g a t').FilesOk ∧ t'.SameCwd (g a t'))
    (h : ∀ t' : Tables, t'.FilesOk →
      Hoare (At t' x V) prog (fun a => At (g a t') x W)) :
    Hoare (Near t x V) prog (fun _ => Near t x W) :=
  near_elim fun t' hd ht => (h t' hd).conseq (fun _ h => h)
    (fun a _ h => h.near (hg a t' hd).1 (ht.trans (hg a t' hd).2)) fun _ h => h

theorem near_onFs (h : ∀ ρ : Nat → Int, ∀ w, Hoare (Counts w ρ V) prog (fun _ => Counts w ρ W)) :
    Hoare (Near t x V) (onFs p prog) (fun _ => Near t x W) :=
  near_of_at (g := fun _ t' => t') (fun _ _ hd => ⟨hd, .refl _⟩) fun _ _ =>
    at_onFs (Y := fun _ => x) (Z := fun _ => W) (h _ _)

theorem near_inert (h : Inert prog) :
    Preserves (Near t x V) (onFs p prog) := near_onFs fun _ _ => h.counts

theorem near_setProc {g : Tables → ProcFiles} (hg : ∀ t', (g t').cwd = (t'.procs p).cwd) :
    Preserves (Near t x V)
      (modifyTables fun t' => t'.setProc p (g t') : KernelM κ Unit) :=
  near_of_at (g := fun _ t' => t'.setProc p (g t'))
    (fun _ t' hd => ⟨hd, t'.sameCwd_setProc p (hg t')⟩) fun t' _ => at_modify (by
      rw [Tables.refs_setProc _ _ (hg t')])

theorem near_setOfile (fd : Nat) (f : Option (Fin NFILE)) : Preserves (Near t x V)
      (modifyTables fun t' => t'.setOfile p fd f : KernelM κ Unit) :=
  near_setProc (g := fun t' =>
    { t'.procs p with ofile := update (t'.procs p).ofile fd f }) fun _ => rfl

theorem near_setSections (g : Tables → List Section) : Preserves (Near t x V)
      (modifyTables fun t' => t'.setSections p (g t') : KernelM κ Unit) :=
  near_setProc (g := fun t' => { t'.procs p with sections := g t' }) fun _ => rfl

theorem near_dup (f : Fin NFILE) :
    Preserves (Near t x V) (modifyTables fun t' => t'.dup f : KernelM κ Unit) :=
  near_of_at (g := fun _ t' => t'.dup f)
    (fun _ t' hd => ⟨hd.dup f, t'.sameCwd_setFile f _⟩) fun t' hd => at_modify (by
      rw [Tables.refs_dup hd])

theorem fileClose_near (f : Fin NFILE) (hx : ∀ ip, 0 ≤ x ip) (hV : ∀ ip, V ip ≤ 1) :
    Preserves (Near t x V) (fileClose env p f) :=
  near_of_at (g := fun _ t' => t'.close f) (fun _ t' hd => ⟨hd.close f, t'.sameCwd_close f⟩)
    fun _ _ => fileClose_at f hx hV

theorem fileCloseOpt_near (f : Option (Fin NFILE)) (hx : ∀ ip, 0 ≤ x ip) (hV : ∀ ip, V ip ≤ 1) :
    Preserves (Near t x V) (fileCloseOpt env p f) := by
  cases f with
  | none => exact .pure _
  | some f => exact fileClose_near f hx hV

theorem fileDupOpt_near (f : Option (Fin NFILE)) :
    Preserves (Near t x V) (fileDupOpt f : KernelM κ Unit) := by
  cases f with
  | none => exact .pure _
  | some f => exact near_dup f

theorem fdalloc_near (f : Fin NFILE) :
    Preserves (Near t x V) (fdalloc p f : KernelM κ (Option Nat)) := by
  refine .read fun s => ?_
  split
  · exact (near_setOfile _ _).bind fun _ => Keeps.pure _
  · exact .pure _

theorem fd2file_near (fd : Int) :
    Preserves (Near t x V) (fd2file p fd : KernelM κ (Option (Fin NFILE))) :=
  Keeps.read fun _ => Keeps.ite (Keeps.pure _) (Keeps.pure _)

end

end FileSys

end OsKernel
