import OsKernel.Fs.FileArray
import OsKernel.Kernel.FileRefs

/-!
# System calls and reference counts

Every system call leaves as many references on an inode as there are live files, working
directories and `inodes.root` that refer to it.
-/

namespace OsKernel

open Tables

namespace FileSys

open Prog

section

variable {κ : Type} {env : FsEnv κ} {α β : Type} {t : Tables} {p w ip : Nat} {x V : Nat → Int}

/-! ## Executable files -/

theorem readPages_inert (file stop fuel : Nat) (vaddr pos : Nat) :
    Inert (readPages env file stop fuel vaddr pos) := by
  induction fuel generalizing vaddr pos with
  | zero => exact .pure _
  | succ fuel ih =>
    refine .ite ?_ (Inert.pure _)
    exact (Text.inodeRead file _ _ _).inert.bind fun _ => Inert.ite (Inert.pure _) (ih _ _)

theorem mapElfSegment_inert (file : Nat) (phdr : Elf64Phdr) :
    Inert (mapElfSegment env file phdr) := by
  refine (assert_inert _).bind fun _ => (assert_inert _).bind fun _ => ?_
  cases getSectionType (phdr.readLE 4 4) with
  | none => exact .pure _
  | some segType =>
    exact (readPages_inert file _ _ _ _).bind fun _ => Inert.ite (Inert.pure _) (Inert.pure _)

theorem loadSegments_inert (file : Nat) (hdr : Elf64Ehdr) (l : List Nat) (sections : List Section) :
    Inert (loadSegments env file hdr sections l) := by
  induction l generalizing sections with
  | nil => exact .pure _
  | cons i rest ih =>
    refine uninit_inert.bind fun buf => (Text.inodeRead file _ _ _).inert.bind fun r => ?_
    refine .ite (Inert.pure _) (Inert.ite (ih _) ?_)
    refine (mapElfSegment_inert file _).bind fun seg => ?_
    cases seg with
    | none => exact .pure _
    | some seg => exact ih _

theorem readElf_inert (file : Nat) : Inert (readElf env file) := by
  refine uninit_inert.bind fun buf => (Text.inodeRead file _ _ _).inert.bind fun r => ?_
  exact .ite (Inert.pure _) (Inert.ite (loadSegments_inert file _ _ _) (Inert.pure _))

theorem zero_nonneg (ip : Nat) : 0 ≤ (0 : Nat → Int) ip := Int.le_refl 0

/-- The call balances the counts of references again. -/
abbrev Balances (t : Tables) (prog : KernelM κ α) : Prop :=
  Hoare (At t 0 unlocked) prog fun _ => Balanced

theorem pure_balanced {a : α} (hd : t.FilesOk) : Balances t (pure a : KernelM κ α) :=
  Triple.pure fun _ h => h.balanced hd

theorem endOp_balanced {a : α} (hd : t.FilesOk) : Balances t
      (onFs p (onCache (env.cache.endOp stackCtx)) >>= fun _ => (pure a : KernelM κ α)) :=
  Triple.bind (at_inert (onCache_inert _)) fun _ => pure_balanced hd

theorem unlockPut_balanced {a : α} (hd : t.FilesOk) : Hoare (At t (ref ip) (unlocked - ref ip)) (do
        onFs p (unlockPut env (some stackCtx) ip)
        onFs p (onCache (env.cache.endOp stackCtx))
        (pure a : KernelM κ α))
      (fun _ => Balanced) := by
  refine .bind (Q := fun _ => At t 0 unlocked) ?_ fun _ => endOp_balanced hd
  have h : Hoare (At t (0 + ref ip) (unlocked - ref ip)) (onFs p (unlockPut env (some stackCtx) ip))
      (fun _ => At t 0 unlocked) :=
    at_unlockPut _ zero_nonneg (unlocked_le ip)
  rwa [zero_add] at h

section

variable (hd : t.FilesOk)
include hd

theorem near_balanced {prog : KernelM κ α} (h : Preserves (Near t 0 unlocked) prog) :
    Balances t prog :=
  h.conseq (fun _ h => h.near hd (.refl t))
    (fun _ _ h => by obtain ⟨t', hd', -, h⟩ := h; exact h.balanced hd') fun _ h => h

theorem close_balanced (fd : Int) : Balances t (close env p fd) := by
  refine near_balanced hd ((fd2file_near fd).bind fun f => ?_)
  cases f with
  | none => exact .pure _
  | some f =>
    refine (near_setOfile _ _).bind fun _ => ?_
    exact (fileClose_near f zero_nonneg unlocked_le).bind fun _ => Keeps.pure _

theorem dup_balanced (fd : Int) : Balances t (dup p fd : KernelM κ Int) := by
  refine near_balanced hd ((fd2file_near fd).bind fun f => ?_)
  cases f with
  | none => exact .pure _
  | some f =>
    refine (fdalloc_near f).bind fun fd' => ?_
    cases fd' with
    | none => exact .pure _
    | some fd' => exact (near_dup f).bind fun _ => Keeps.pure _

/-! ## Mappings -/

omit hd in
theorem mmapSection_near (addr memSize flags : Nat) (f : Fin NFILE) (offset : Nat) :
    Preserves (Near t x V)
      (mmapSection p addr memSize flags f ip offset : KernelM κ Int) := by
  refine (near_inert (getInode_inert ip)).bind fun i => Keeps.ite (Keeps.pure _) ?_
  refine .read fun s => ?_
  have haddr : Preserves (Near t x V) (modifyTables fun t' =>
      if addr = 0 then { t' with nextAddr := usize (t'.nextAddr + memSize) } else t'
      : KernelM κ Unit) := by
    by_cases h : addr = 0
    · simp only [if_pos h]
      exact near_of_at (g := fun _ t' => { t' with nextAddr := usize (t'.nextAddr + memSize) })
        (fun _ t' hd => ⟨hd, rfl, fun _ => rfl⟩) fun t' _ => at_modify rfl
    · simp only [if_neg h]
      exact near_of_at (g := fun _ t' => t') (fun _ t' hd => ⟨hd, .refl t'⟩) fun t' _ => at_modify rfl
  refine haddr.bind fun _ => (near_dup f).bind fun _ => ?_
  exact (near_setSections _).bind fun _ => Keeps.pure _

theorem mmap_balanced (addr : Nat) (length : Int) (prot flags : Nat) (fd : Int) (offset : Nat) :
    Balances t (mmap env p addr length prot flags fd offset) := by
  refine near_balanced hd (Keeps.ite ((fd2file_near fd).bind fun f => ?_) (Keeps.pure _))
  cases f with
  | none => exact .pure _
  | some f =>
    refine near_elim fun t' hd' ht => at_get fun s hs => ?_
    have hret : Hoare (At t' 0 unlocked) (pure (-1) : KernelM κ Int)
        (fun _ => Near t 0 unlocked) := Triple.pure fun _ h => h.near hd' ht
    refine .ite (fun _ => ?_) fun _ => hret
    rw [hs]
    cases hip : (t'.flist f).ip with
    | none => exact hret
    | some ip =>
      refine .ite (fun _ => hret) fun _ => ?_
      refine .bind (at_inert (onCache_inert _)) fun _ => ?_
      have hlive : (t'.refs + 0) ip ≠ 0 := by
        rw [add_zero]
        exact refs_ip hd' hip
      refine .bind (at_lock hlive) fun _ => ?_
      refine .bind ((mmapSection_near _ _ _ _ _).pre fun _ h => h.near hd' ht) fun _ => ?_
      refine .bind (near_onFs fun _ _ => inodeUnlock_counts (unlocked_le ip)) fun _ => ?_
      exact (near_inert (onCache_inert _)).bind fun _ => Keeps.pure _

omit hd in
theorem writeBack_near (st : Section) (va : Nat) (page : Nat → UInt8) :
    Preserves (Near t x V) (writeBack env p st va page) := by
  refine .read fun s => ?_
  cases st.fp.bind fun f => (s.tables.flist f).ip with
  | none => exact .throw _ fun _ _ => trivial
  | some ip => exact (near_inert (Text.inodeWrite trivial ip page _ _).inert).bind fun _ => Keeps.pure _

omit hd in
theorem dropSection_near (i : Nat) (st : Section) (start mappedLen : Nat) :
    Preserves (Near t 0 unlocked) (dropSection env p i st start mappedLen) := by
  refine .read fun s => Keeps.ite ?_ (Keeps.ite (Keeps.pure _) (Keeps.ite ?_ (Keeps.ite ?_
    (Keeps.pure _))))
  · refine (near_setSections _).bind fun _ => ?_
    exact (fileCloseOpt_near st.fp zero_nonneg unlocked_le).bind fun _ => Keeps.pure _
  · exact (near_setSections _).bind fun _ => Keeps.pure _
  · exact (near_setSections _).bind fun _ => Keeps.pure _

theorem munmap_balanced (addr length : Nat) (pages : Nat → Option (Nat → UInt8)) :
    Balances t (munmap env p addr length pages) := by
  refine near_balanced hd (Keeps.ite (Keeps.pure _) (Keeps.read fun s => ?_))
  dsimp only
  split
  next => exact .pure _
  next i _ =>
    split
    next => exact .pure _
    next st _ =>
      refine .ite ?_ (dropSection_near i st _ _)
      refine (Keeps.forM fun va => ?_).bind fun _ => dropSection_near i st _ _
      cases pages va with
      | none => exact .pure _
      | some page => exact writeBack_near st va page

/-! ## Calls with a path -/

variable (hp : p < t.nprocs) (hw : (t.procs p).cwd = some w)
include hp hw

omit hd in
theorem at_call {prog : FsM κ α} {Y Z : α → Nat → Int}
    (h : ∀ ρ : Nat → Int, (∀ ip, 0 ≤ ρ ip) → ρ w ≠ 0 →
      Hoare (Counts w ρ unlocked) prog (fun r => Counts w (ρ + Y r) (Z r))) :
    Hoare (At t 0 unlocked) (onFs p prog) (fun r => At t (Y r) (Z r)) := by
  refine at_onFs ?_
  rw [add_zero, hw, Option.getD_some]
  exact h _ t.refs_nonneg (refs_cwd hp hw)

omit hd in
theorem at_namei (path : List UInt8) (ctx : Option Nat) :
    Hoare (At t 0 unlocked) (onFs p (namei env path ctx)) (fun r => At t (optRef r) unlocked) :=
  at_call hp hw fun _ hρ hw => namei_counts ctx path (fun _ => hw) hρ unlocked_le

theorem call_balanced {prog : FsM κ α} (h : ∀ ρ : Nat → Int, (∀ ip, 0 ≤ ρ ip) → ρ w ≠ 0 →
      Preserves (Counts w ρ unlocked) prog) :
    Balances t (onFs p prog) := by
  refine (at_call (Y := fun _ => 0) (Z := fun _ => unlocked) hp hw fun ρ hρ hw => ?_).conseq
    (fun _ h => h) (fun _ _ h => h.balanced hd) fun _ h => h
  rw [add_zero]
  exact h ρ hρ hw

section

variable (path : List UInt8)

include path

theorem newfstatat_balanced : Balances t (newfstatat env p path) := by
  refine call_balanced hd hp hw fun ρ hρ hw => transaction_counts (Q := fun _ => ρ) ?_
  refine .bind (namei_counts _ path (fun _ => hw) hρ unlocked_le) fun found => ?_
  cases found with
  | none => exact .pure fun _ h => by simpa [optRef] using h
  | some ip =>
    refine .bind (inodeLock_counts (add_ref_ne_zero hρ ip)) fun _ => ?_
    have hstat : Inert (stati ip : FsM κ Unit) := (getInode_inert ip).bind fun _ => assert_inert _
    refine .bind hstat.counts fun _ => ?_
    refine .bind (unlockPut_counts _ (hρ ip) (unlocked_le ip)) fun _ => ?_
    exact .pure fun _ h => h

theorem openat_balanced (creat wronly rdwr : Bool) :
    Balances t (openat env p path creat wronly rdwr) := by
  refine .bind (at_inert (onCache_inert _)) fun _ => ?_
  refine .bind (at_call (Y := optRef) (Z := fun r => unlocked - optRef r) hp hw
    fun _ hρ hw => openInode_counts hρ unlocked_le hw _ path creat) fun found => ?_
  cases found with
  | none =>
    refine (endOp_balanced hd).pre fun _ h => ?_
    simpa [optRef] using h
  | some ip =>
    refine .bind fileAlloc_at fun f => ?_
    cases f with
    | none => exact unlockPut_balanced hd
    | some f =>
      have hd' : (t.setFile f { File.none with ref := 1 }).FilesOk := hd.setFile (File.ok_none 1)
      refine .bind (fdalloc_at f) fun fd => ?_
      cases fd with
      | none =>
        refine .bind (fileClose_at f (ref_nonneg ip) (sub_ref_le unlocked_le ip)) ?_
        exact fun _ => unlockPut_balanced (hd'.close f)
      | some fd =>
        refine .bind (at_unlock (unlocked_le ip)) fun _ => ?_
        refine .bind (at_inert (onCache_inert _)) fun _ => ?_
        have hblank : ((t.setFile f { File.none with ref := 1 }).setOfile p fd (some f)).flist f
            = { File.none with ref := 1 } := Function.update_self f _ t.flist
        refine .bind (at_modify (y := 0) ?_) fun _ => pure_balanced ?_
        · rw [Option.elim_some, Option.elim_some, refs_setFile, hblank, add_zero]
          have hold : File.refs { File.none with ref := 1 } = 0 := rfl
          have hnew : File.refs ⟨.FD_INODE, 1, !wronly, wronly || rdwr, some ip, 0⟩ = ref ip := rfl
          rw [hold, sub_zero, hnew, optRef]
        · refine Tables.FilesOk.setFile hd' ⟨fun h => ?_, fun h => absurd rfl h⟩
          rw [Option.elim_some, Option.elim_some, hblank] at h
          exact absurd Int.one_pos h

theorem chdir_balanced : Balances t (chdir env p path) := by
  refine .bind (at_inert (onCache_inert _)) fun _ => ?_
  refine .bind (at_namei hp hw path _) fun found => ?_
  cases found with
  | none =>
    refine (endOp_balanced hd).pre fun _ h => ?_
    simpa [optRef] using h
  | some target =>
    refine .bind (at_lock (add_ref_ne_zero t.refs_nonneg target)) fun _ => ?_
    refine .bind (at_inert (getInode_inert target)) fun i => ?_
    refine .ite (fun _ => unlockPut_balanced hd) fun _ => ?_
    refine .bind (at_unlock (unlocked_le target)) fun _ => at_get fun s hs => ?_
    rw [hs, hw]
    -- the working directory has no reference from the table any more
    have hself := refs_cwd hp hw
    have hput : 0 ≤ (t.refs + (ref target - ref w)) w := by
      have h1 := t.refs_nonneg w
      have h2 := ref_nonneg target w
      rw [Pi.add_apply, Pi.sub_apply, ref_self]
      omega
    refine .bind (Q := fun _ => At t (ref target - ref w) unlocked) ?_ fun _ => ?_
    · refine (at_put _ hput (unlocked_le w)).pre fun _ h => ?_
      rwa [sub_add_cancel]
    refine .bind (at_modify (y := 0) ?_) fun _ => endOp_balanced (hd.setProc p _)
    rw [refs_setCwd hp, hw, add_zero]
    rfl

theorem execve_balanced : Balances t (execve env p path) := by
  refine .bind (at_call (Y := fun _ => 0) (Z := fun _ => unlocked) hp hw
    fun ρ hρ hw => ?_) fun sections => ?_
  · refine transaction_counts (Q := fun _ => ρ + 0) ?_
    rw [add_zero]
    refine .bind (namei_counts _ path (fun _ => hw) hρ unlocked_le) fun found => ?_
    cases found with
    | none => exact .pure fun _ h => by simpa [optRef] using h
    | some ip =>
      refine .bind (inodeLock_counts (add_ref_ne_zero hρ ip)) fun _ => ?_
      refine .bind (readElf_inert ip).counts fun _ => ?_
      refine .bind (unlockPut_counts _ (hρ ip) (unlocked_le ip)) fun _ => ?_
      exact .pure fun _ h => h
  · cases sections with
    | none => exact pure_balanced hd
    | some sections =>
      refine .bind (at_modify (y := 0) ?_) fun _ => pure_balanced (hd.setProc p _)
      rw [setSections, refs_setProc _ _ (by rfl)]

end

/-! ## Processes -/

theorem fork_balanced : Balances t (fork p : KernelM κ Int) := by
  refine at_get fun s hs => ?_
  rw [hs]
  dsimp only
  rw [hw]
  have hsections : Preserves (Near t 0 unlocked)
      ((t.procs p).sections.forM fun st => fileDupOpt st.fp : KernelM κ Unit) :=
    Keeps.forM fun st => fileDupOpt_near st.fp
  refine .bind (hsections.pre fun _ h => h.near hd (.refl t)) fun _ => ?_
  refine .bind (Keeps.forM fun fd => fileDupOpt_near _) fun _ => ?_
  refine near_elim fun t' hd' ht => ?_
  have hlive : (t'.refs + 0) w ≠ 0 := by
    rw [add_zero]
    exact refs_cwd (ht.nprocs ▸ hp) ((ht.cwd p).trans hw)
  refine .bind (at_onFs (Y := ref) (Z := fun _ => unlocked) ?_) fun cwd => ?_
  · refine (inodeShare_counts hlive).conseq (fun _ h => h) (fun r s h => ?_) fun _ h => h
    obtain ⟨rfl, h⟩ := h
    rwa [add_zero] at h
  · refine .bind (at_modify (y := 0) ?_) fun _ => pure_balanced hd'
    rw [refs_addProc, add_zero]
    rfl

theorem clone_balanced (flag : Int) : Balances t (clone p flag : KernelM κ Int) :=
  Triple.ite (fun _ => pure_balanced hd) fun _ => fork_balanced hd hp hw

omit hd hp hw in
theorem closeFd_near (fd : Nat) : Preserves (Near t 0 unlocked) (closeFd env p fd) := by
  refine .read fun s => ?_
  cases (s.tables.procs p).ofile fd with
  | none => exact .pure _
  | some f => exact (fileClose_near f zero_nonneg unlocked_le).bind fun _ => near_setOfile _ _

theorem exit_balanced : Balances t (exit env p) := by
  refine .bind ((Keeps.forM closeFd_near).pre fun _ h => h.near hd (.refl t)) fun _ => ?_
  refine near_elim fun t' hd' ht => at_get fun s hs => ?_
  have hp' : p < t'.nprocs := ht.nprocs ▸ hp
  have hw' := (ht.cwd p).trans hw
  rw [hs, hw']
  have hput : 0 ≤ (t'.refs + -ref w) w := by
    have h1 := t'.refs_nonneg w
    have h2 := refs_cwd hp' hw'
    rw [Pi.add_apply, Pi.neg_apply, ref_self]
    omega
  refine .bind (at_onFs (Y := fun _ => -ref w) (Z := fun _ => unlocked)
    (transaction_counts (Q := fun _ => t'.refs + -ref w) ?_)) fun _ => ?_
  · refine (inodePut_counts _ hput (unlocked_le w)).pre fun _ h => ?_
    rwa [add_assoc, neg_add_cancel]
  refine .bind (at_modify (y := 0) ?_) fun _ => ?_
  · rw [refs_setCwd hp', hw', optRef, optRef, zero_sub, add_zero]
  exact near_balanced (hd'.setProc p _) (Keeps.forM fun st =>
    fileCloseOpt_near st.fp zero_nonneg unlocked_le)

theorem call_run_balanced (c : Call) : Balances t (c.run env p) := by
  cases c with
  | openat path creat wronly rdwr =>
    exact .bind (openat_balanced hd hp hw path creat wronly rdwr) fun _ => Triple.pure fun _ h => h
  | close fd => exact .bind (close_balanced hd fd) fun _ => Triple.pure fun _ h => h
  | dup fd => exact .bind (dup_balanced hd fd) fun _ => Triple.pure fun _ h => h
  | chdir path => exact .bind (chdir_balanced hd hp hw path) fun _ => Triple.pure fun _ h => h
  | mkdirat path =>
    exact .bind (call_balanced hd hp hw fun _ hρ hw =>
      makeNode_counts hρ unlocked_le hw path _ _ _) fun _ => Triple.pure fun _ h => h
  | mknodat path major minor =>
    exact .bind (call_balanced hd hp hw fun _ hρ hw =>
      makeNode_counts hρ unlocked_le hw path _ _ _) fun _ => Triple.pure fun _ h => h
  | unlinkat path =>
    exact .bind (call_balanced hd hp hw fun _ hρ hw =>
      unlinkat_counts hρ unlocked_le hw path) fun _ => Triple.pure fun _ h => h
  | newfstatat path =>
    exact .bind (newfstatat_balanced hd hp hw path) fun _ => Triple.pure fun _ h => h
  | mmap addr length prot flags fd offset =>
    exact .bind (mmap_balanced hd addr length prot flags fd offset) fun _ => Triple.pure fun _ h => h
  | munmap addr length pages =>
    exact .bind (munmap_balanced hd addr length pages) fun _ => Triple.pure fun _ h => h
  | clone flag => exact .bind (clone_balanced hd hp hw flag) fun _ => Triple.pure fun _ h => h
  | execve path =>
    exact .bind (execve_balanced hd hp hw path) fun _ => Triple.pure fun _ h => h
  | exit => exact exit_balanced hd hp hw

end

/-! ## Runs -/

structure Blank (t : Tables) : Prop where
  files : ∀ f, t.flist f = File.none
  nprocs : t.nprocs = 0

theorem Blank.filesOk (h : Blank t) : t.FilesOk := fun f => h.files f ▸ File.ok_none 0

theorem Blank.refs (h : Blank t) : t.refs = optRef t.root := by
  have hfile : ∀ f, (t.flist f).refs = 0 := fun f => by rw [h.files f]; rfl
  rw [Tables.refs, Finset.sum_congr rfl fun f _ => hfile f, Finset.sum_const_zero, h.nprocs,
    Finset.sum_range_zero, zero_add, zero_add]

theorem boot_balanced : Hoare (fun _ => True) (boot env) (fun _ => Balanced) := by
  refine .bind (Q := fun _ s => Blank s.tables)
    (Triple.modify fun s _ => ⟨fun _ => rfl, rfl⟩) fun _ => ?_
  -- `init_inodes` starts with an empty list, whatever was in memory
  refine .bind (Q := fun r s => Blank s.tables ∧
    ∀ w, Counts w (optRef r) unlocked { s.fs with cwd := w }) (fun s hs => ?_) fun root => ?_
  · rw [onFs, exec_zoom]
    let f0 : Fs κ := { s.fs with cwd := (s.tables.procs 0).cwd.getD 0 }
    have hinit : Hoare (fun f => f.cwd = f0.cwd) (initInodes env)
        (fun r => Counts f0.cwd (optRef r) unlocked) := initInodes_counts
    rcases hinit.elim (s := f0) rfl with ⟨r, f, he, hq⟩ | ⟨e, f, he, -⟩
    · rw [he]
      exact ⟨hs, fun w => ⟨rfl, hq.nodup, hq.lt, hq.rc, hq.lock, hq.other⟩⟩
    · rw [he]
      trivial
  refine .bind (Q := fun _ s => Blank s.tables ∧ At s.tables 0 unlocked s)
    (Triple.modify fun s hs => ?_) fun _ => ?_
  · have hb : Blank { s.tables with root := root } := ⟨hs.1.files, hs.1.nprocs⟩
    refine ⟨hb, rfl, fun w => ?_⟩
    rw [hb.refs, add_zero]
    exact hs.2 w
  intro s hs
  refine (Triple.bind (at_onFs (Y := optRef) (Z := fun _ => unlocked) ?_) fun cwd => ?_ :
    Triple (At s.tables 0 unlocked) _ _ _) s hs.2
  · rw [add_zero]
    exact transaction_counts (Q := fun r => s.tables.refs + optRef r)
      (namei_counts _ _ (fun h => absurd rfl h) s.tables.refs_nonneg unlocked_le)
  · refine (at_modify (y := 0) ?_).conseq (fun _ h => h) (fun _ _ h => h.balanced hs.1.filesOk)
      fun _ h => h
    have hadd := s.tables.refs_addProc ⟨cwd, fun _ => none, []⟩
    rw [hs.1.nprocs] at hadd
    rw [add_zero, ← hadd]

theorem step_balanced {s s' : FileSys κ} {a : Nat × Call} (h : step env s a = .ok s')
    (hs : s.Balanced) : s'.Balanced := by
  rw [step] at h
  split at h
  next hc =>
    obtain ⟨w, hw⟩ := Option.isSome_iff_exists.mp hc.2
    have hcall : Balances s.tables (a.2.run env a.1) := call_run_balanced hs.1 hc.1 hw a.2
    rcases hcall.elim hs.2 with ⟨r, s1, he, hq⟩ | ⟨e, s1, he, -⟩
    · rw [he] at h
      cases h
      exact hq
    · rw [he] at h
      cases h
  next => cases h

theorem init_of_isOk {m : FileSys κ} (h : ((boot env).exec m).1.isOk = true) :
    Init env ((boot env).exec m).2 := by
  refine ⟨m, ?_⟩
  cases hr : (boot env).exec m with
  | mk r s =>
    rw [hr] at h
    cases r with
    | ok _ => rfl
    | error _ => cases h

theorem Reach.balanced {s : FileSys κ} (h : Reach env s) : s.Balanced := by
  refine Runs.Reach.invariant (fun s hs => ?_) (fun s a s' hs _ h => step_balanced h hs) h
  obtain ⟨m, hm⟩ := hs
  have hb : Post (fun _ => Balanced) (fun _ => True) ((boot env).exec m) := boot_balanced m trivial
  rwa [hm] at hb

/-! ## Reference counts -/

/-- The live files with inode `ip`. -/
def liveFiles (s : FileSys κ) (ip : Nat) : Finset (Fin NFILE) :=
  Finset.univ.filter fun f =>
    0 < (s.tables.flist f).ref ∧ (s.tables.flist f).type = .FD_INODE ∧
      (s.tables.flist f).ip = some ip

/-- The processes with working directory `ip`. -/
def cwdOf (s : FileSys κ) (ip : Nat) : Finset Nat :=
  (Finset.range s.tables.nprocs).filter fun p => (s.tables.procs p).cwd = some ip

theorem optRef_eq (r : Option Nat) (ip : Nat) : optRef r ip = if r = some ip then 1 else 0 := by
  cases r with
  | none => rfl
  | some jp =>
    by_cases h : jp = ip
    · rw [h, optRef, ref_self, if_pos rfl]
    · rw [optRef, ref_of_ne (Ne.symm h), if_neg fun he => h (Option.some.inj he)]

theorem file_refs_eq (f : File) (ip : Nat) :
    f.refs ip = if 0 < f.ref ∧ f.type = .FD_INODE ∧ f.ip = some ip then 1 else 0 := by
  rw [File.refs]
  by_cases h : 0 < f.ref ∧ f.type = .FD_INODE
  · rw [if_pos h, optRef_eq]
    simp only [h, true_and]
  · rw [if_neg h, if_neg fun hc => h ⟨hc.1, hc.2.1⟩]
    rfl

theorem refs_eq_card (s : FileSys κ) (ip : Nat) :
    s.tables.refs ip = (s.liveFiles ip).card + (s.cwdOf ip).card +
      if s.tables.root = some ip then 1 else 0 := by
  rw [Tables.refs, Pi.add_apply, Pi.add_apply, Finset.sum_apply, Finset.sum_apply, optRef_eq,
    liveFiles, cwdOf, Finset.natCast_card_filter, Finset.natCast_card_filter]
  simp only [file_refs_eq, optRef_eq]

/-- After every call no inode is locked, and each has one reference for every live file,
every working directory and `inodes.root` that is it. -/
theorem inode_references_balance {κ : Type} {env : FsEnv κ} {s : FileSys κ}
    (h : FileSys.Reach env s) :
    ∀ ip ∈ s.fs.inodeHead, (s.fs.inodes ip).lock = Semaphore.initSem 1 ∧
      (s.fs.inodes ip).rc = (s.liveFiles ip).card + (s.cwdOf ip).card +
        if s.tables.root = some ip then 1 else 0 := by
  intro ip hip
  have hcounts := h.balanced.2.2 0
  refine ⟨hcounts.lock ip hip, ?_⟩
  have hrc := hcounts.rc ip hip
  rw [add_zero, refs_eq_card] at hrc
  exact hrc

/-- After every call the inode of each live file, each working directory and `inodes.root` is in
memory with a positive count: no inode is given up while something points to it. -/
theorem referenced_inode_in_memory {κ : Type} {env : FsEnv κ} {s : FileSys κ}
    (h : FileSys.Reach env s) {ip : Nat}
    (hip : (s.liveFiles ip).Nonempty ∨ (s.cwdOf ip).Nonempty ∨ s.tables.root = some ip) :
    ip ∈ s.fs.inodeHead ∧ 0 < (s.fs.inodes ip).rc := by
  have hcounts := h.balanced.2.2 0
  rw [add_zero] at hcounts
  have hpos : 0 < s.tables.refs ip := by
    rw [refs_eq_card]
    simp only [← Finset.card_pos] at hip
    grind
  have hmem := hcounts.mem (Int.ne_of_gt hpos)
  exact ⟨hmem, (hcounts.rc ip hmem).symm ▸ hpos⟩

end

namespace Example

/-- A disk with a root directory that has no entries. -/
def memory : FileSys MockCache where
  fs := { MockCache.start with
    cache := { MockCache.start.cache with
      blocks := Function.update (fun _ => Bytes.zero) 200
        (Bytes.zero.splice 64 64 (InodeEntry.setType Bytes.zero INODE_DIRECTORY).get) } }
  tables := ⟨fun _ => File.none, fun _ => ⟨none, fun _ => none, []⟩, 0, none, 0⟩

/-- The root directory is opened, and there is a second process. -/
def calls : List (Nat × Call) := [(0, .openat [SLASH] false false false), (0, .clone 17)]

theorem inode_references_balance_root :
    ∃ s : FileSys MockCache, Reach MockCache.env s ∧ 1 ∈ s.fs.inodeHead ∧
      (s.fs.inodes 1).rc = 4 ∧
      (s.liveFiles 1).card + (s.cwdOf 1).card + (if s.tables.root = some 1 then 1 else 0) = 4 := by
  obtain ⟨s, hs, hq⟩ := Runs.Reach.of_execTest (init_of_isOk (m := memory)
      (by decide +kernel : ((boot MockCache.env).exec memory).1.isOk = true))
    (by decide +kernel : Runs.execTest (step MockCache.env) _ calls
      (fun s => decide (1 ∈ s.fs.inodeHead ∧ (s.fs.inodes 1).rc = 4)) = true)
  obtain ⟨hmem, hrc⟩ := of_decide_eq_true hq
  refine ⟨s, hs, hmem, hrc, ?_⟩
  have h := (inode_references_balance hs 1 hmem).2
  rw [hrc] at h
  exact_mod_cast h.symm

/-- After the two calls the inode of the file that process 0 has opened is in memory. -/
theorem referenced_inode_in_memory_opened :
    ∃ s : FileSys MockCache, Reach MockCache.env s ∧ 0 ∈ s.liveFiles 1 ∧ 1 ∈ s.fs.inodeHead ∧
      0 < (s.fs.inodes 1).rc := by
  obtain ⟨s, hs, hq⟩ := Runs.Reach.of_execTest (init_of_isOk (m := memory)
      (by decide +kernel : ((boot MockCache.env).exec memory).1.isOk = true))
    (by decide +kernel : Runs.execTest (step MockCache.env) _ calls
      (fun s => decide (0 < (s.tables.flist 0).ref ∧ (s.tables.flist 0).type = .FD_INODE ∧
        (s.tables.flist 0).ip = some 1)) = true)
  have hlive : 0 ∈ s.liveFiles 1 :=
    Finset.mem_filter.mpr ⟨Finset.mem_univ _, of_decide_eq_true hq⟩
  exact ⟨s, hs, hlive, referenced_inode_in_memory hs (.inl ⟨0, hlive⟩)⟩

end Example

end FileSys

end OsKernel
