import OsKernel.Fs.InodeText

/-!
# References to inodes and their locks

Which programs of the inode layer change the reference counts and the sleep locks of the
in-memory inodes, on any block cache.

*Inert programs.*  Everything that only reads or writes blocks and entries leaves counts,
locks and the list of inodes as they are (`Inert`).  That includes reads and writes of
a device, which release the lock of the inode and take it again.

*Counting.*  `Counts w ρ V` says that the inodes on the list have the reference counts `ρ` and
the lock values `V`, and that an inode that is not on the list has no reference and is not
locked.  A call that returns a reference goes from `ρ` to `ρ + ref ip`, one that drops it back; a
lock goes from `V` to `V - ref ip`.  The proofs follow the text of the functions.
-/

namespace OsKernel

open Prog Function Triple

variable {κ : Type} {env : FsEnv κ} {α β : Type}

/-! ## Inert programs -/

/-- Counts, locks and the list of inodes are the same. -/
structure Fs.SameRefs (s s' : Fs κ) : Prop where
  cwd : s'.cwd = s.cwd
  head : s'.inodeHead = s.inodeHead
  brk : s'.inodeBrk = s.inodeBrk
  rc : ∀ ip, (s'.inodes ip).rc = (s.inodes ip).rc
  lock : ∀ ip, (s'.inodes ip).lock = (s.inodes ip).lock

theorem Fs.SameRefs.refl (s : Fs κ) : s.SameRefs s := ⟨rfl, rfl, rfl, fun _ => rfl, fun _ => rfl⟩

theorem Fs.SameRefs.trans {s s' s'' : Fs κ} (h : s.SameRefs s') (h' : s'.SameRefs s'') :
    s.SameRefs s'' :=
  ⟨h'.cwd.trans h.cwd, h'.head.trans h.head, h'.brk.trans h.brk,
    fun ip => (h'.rc ip).trans (h.rc ip), fun ip => (h'.lock ip).trans (h.lock ip)⟩

/-- A program that leaves counts, locks and list as they are. -/
def Inert (x : FsM κ α) : Prop := ∀ s₀ : Fs κ, Preserves (Fs.SameRefs s₀) x

namespace Inert

variable {x : FsM κ α} {f : α → FsM κ β}

theorem pure (a : α) : Inert (Pure.pure a : FsM κ α) := fun _ => .pure a

theorem throw (e : Halt) : Inert (throw e : FsM κ α) := fun _ => .throw e fun _ _ => trivial

theorem bind (hx : Inert x) (hf : ∀ a, Inert (f a)) : Inert (x >>= f) :=
  fun s₀ => (hx s₀).bind fun a => hf a s₀

theorem read {f : Fs κ → FsM κ β} (hf : ∀ s, Inert (f s)) : Inert (get >>= f) :=
  fun s₀ => .read fun s => hf s s₀

theorem ite {c : Prop} [Decidable c] {y : FsM κ α} (hx : Inert x) (hy : Inert y) :
    Inert (if c then x else y) := fun s₀ => (hx s₀).ite (hy s₀)

/-- An inert program keeps what depends on counts and locks alone. -/
theorem keeps (hx : Inert x) {I : Fs κ → Prop} (hI : ∀ s s', s.SameRefs s' → I s → I s') :
    Preserves I x := fun s hs =>
  (hx s s (.refl s)).imp (fun _ s' h => hI s s' h hs) fun _ h => h

end Inert

/-- The cache knows nothing of inodes in memory. -/
theorem onCache_inert (x : Prog Halt κ α) : Inert (onCache x) := fun s₀ s h => by
  rw [onCache, exec_zoom]
  cases (x.exec s.cache).1 with
  | ok a => exact ⟨h.cwd, h.head, h.brk, h.rc, h.lock⟩
  | error e => trivial

theorem getInode_inert (ip : Nat) : Inert (getInode ip : FsM κ Inode) := .read fun _ => .pure _

/-- A change of an inode that leaves count and lock alone. -/
theorem setInode_inert (ip : Nat) {f : Inode → Inode} (hrc : ∀ i, (f i).rc = i.rc)
    (hlock : ∀ i, (f i).lock = i.lock) : Inert (setInode ip f : FsM κ Unit) := fun s₀ s h => by
  refine ⟨h.cwd, h.head, h.brk, fun jp => ?_, fun jp => ?_⟩
  · rw [← h.rc jp]
    obtain rfl | hj := eq_or_ne jp ip
    · exact (congrArg Inode.rc (update_self ..)).trans (hrc _)
    · exact congrArg Inode.rc (update_of_ne hj ..)
  · rw [← h.lock jp]
    obtain rfl | hj := eq_or_ne jp ip
    · exact (congrArg Inode.lock (update_self ..)).trans (hlock _)
    · exact congrArg Inode.lock (update_of_ne hj ..)

theorem setEntry_inert (ip : Nat) (f : InodeEntry → InodeEntry) :
    Inert (setEntry ip f : FsM κ Unit) := setInode_inert ip (fun _ => rfl) fun _ => rfl

theorem assert_inert (c : Prop) [Decidable c] : Inert (assert c : FsM κ Unit) :=
  .ite (.pure _) (.throw _)

theorem uninit_inert : Inert (uninit : FsM κ (Nat → UInt8)) :=
  fun _ _ h => ⟨h.cwd, h.head, h.brk, h.rc, h.lock⟩

/-! ### Locks -/

/-- The state with another lock of the inode at `ip`. -/
def Fs.setLock (s : Fs κ) (ip : Nat) (sem : Semaphore) : Fs κ :=
  { s with inodes := update s.inodes ip { s.inodes ip with lock := sem } }

theorem Fs.SameRefs.setLock {s s' : Fs κ} (h : s.SameRefs s') (ip : Nat) (sem : Semaphore) :
    (s.setLock ip sem).SameRefs (s'.setLock ip sem) := by
  refine ⟨h.cwd, h.head, h.brk, fun jp => ?_, fun jp => ?_⟩ <;>
    by_cases hj : jp = ip <;> simp [Fs.setLock, hj, h.rc, h.lock]

section

variable (s₀ : Fs κ) (ip : Nat)

include s₀ ip

/-- The lock is taken at once, or the call stops. -/
theorem lockInode_triple : Hoare s₀.SameRefs (lockInode ip)
      (fun _ s => ∃ sem, (s₀.inodes ip).lock.waitSem 0 = (sem, true) ∧
        (s₀.setLock ip sem).SameRefs s) := by
  intro s h
  have hlock := h.lock ip
  rw [lockInode, exec_bind_ok (exec_getInode ip s)]
  split
  next sem hw =>
    rw [hlock] at hw
    exact ⟨sem, hw, h.setLock ip sem⟩
  next sem hw => trivial

/-- The token goes back to the lock. -/
theorem postInode_triple : Hoare s₀.SameRefs (postInode ip)
      (fun _ s => ∃ sem p, (s₀.inodes ip).lock.postSem = some (sem, p) ∧
        (s₀.setLock ip sem).SameRefs s) := by
  intro s h
  have hlock := h.lock ip
  rw [postInode, exec_bind_ok (exec_getInode ip s)]
  split
  next hp => trivial
  next sem p hp =>
    rw [hlock] at hp
    exact ⟨sem, p, hp, h.setLock ip sem⟩

theorem inodeLock_triple : Hoare s₀.SameRefs (inodeLock env ip)
      (fun _ s => ∃ sem, (s₀.inodes ip).lock.waitSem 0 = (sem, true) ∧
        (s₀.setLock ip sem).SameRefs s) := by
  refine .bind (getInode_inert ip s₀) fun _ => bind (assert_inert _ s₀) fun _ => ?_
  refine .bind (lockInode_triple s₀ ip) fun _ => ?_
  have hload : Inert (getInode ip >>= fun i =>
      if i.valid then return ()
      else do
        let block ← acquire env (env.sb.toBlockNo i.inodeNo)
        let d ← blockData env block
        setEntry ip fun _ => .ofBlock d i.inodeNo
        release env block
        setInode ip fun i => { i with valid := true }) := by
    refine (getInode_inert ip).bind fun i => .ite (.pure _) ?_
    refine (onCache_inert _).bind fun block => (onCache_inert _).bind fun d => ?_
    refine (setEntry_inert ip _).bind fun _ => (onCache_inert _).bind fun _ => ?_
    exact setInode_inert ip (fun _ => rfl) fun _ => rfl
  exact hload.keeps fun s s' hs ⟨sem, hw, h⟩ => ⟨sem, hw, h.trans hs⟩

theorem inodeUnlock_triple : Hoare s₀.SameRefs (inodeUnlock ip)
      (fun _ s => ∃ sem p, (s₀.inodes ip).lock.postSem = some (sem, p) ∧
        (s₀.setLock ip sem).SameRefs s) :=
  bind (getInode_inert ip s₀) fun _ => bind (assert_inert _ s₀) fun _ =>
    postInode_triple s₀ ip

/-- The lock is taken again as it was before it was given back. -/
theorem relock_triple : Hoare (fun s => ∃ sem p, (s₀.inodes ip).lock.postSem = some (sem, p) ∧
      (s₀.setLock ip sem).SameRefs s) (inodeLock env ip) (fun _ => s₀.SameRefs) := by
  rintro s ⟨sem, p, hp, h⟩
  refine (inodeLock_triple _ ip s h).imp ?_ fun _ h => h
  rintro _ s' ⟨sem', hw, h'⟩
  have hlock : ((s₀.setLock ip sem).inodes ip).lock = sem := by simp [Fs.setLock]
  rw [hlock] at hw
  obtain rfl := Semaphore.waitSem_of_postSem hp hw
  have hback : s₀.SameRefs ((s₀.setLock ip sem).setLock ip (s₀.inodes ip).lock) := by
    refine ⟨rfl, rfl, rfl, fun jp => ?_, fun jp => ?_⟩ <;>
      by_cases hj : jp = ip <;> simp [Fs.setLock, hj]
  exact hback.trans h'

end

/-! ### Contents -/

theorem consoleRead_inert (ip n : Nat) : Inert (consoleRead env ip n) := fun s₀ => by
  refine bind (inodeUnlock_triple s₀ ip) fun _ => ?_
  refine ite (fun _ => throw fun _ _ => trivial) fun _ => ?_
  exact bind (relock_triple s₀ ip) fun _ => Keeps.pure 0

theorem consoleWrite_inert (ip n : Nat) : Inert (consoleWrite env ip n) := fun s₀ =>
  bind (inodeUnlock_triple s₀ ip) fun _ =>
    bind (relock_triple s₀ ip) fun _ => Keeps.pure n

/-- By induction on the text: its actions are inert. -/
theorem inert_of_text {ok : Option Nat → Prop} {H : List Nat} {x : FsM κ α} {H' : α → List Nat}
    (h : Text env ok H x H') : Inert x := by
  induction h with
  | pure a => exact .pure a
  | throw e => exact .throw e
  | bind _ _ ihx ihf => exact ihx.bind ihf
  | ite hx hy ihx ihy =>
    split
    next hc => exact ihx hc
    next hc => exact ihy hc
  | getInode ip => exact getInode_inert ip
  | setInode ip hrc hlock => exact setInode_inert ip hrc hlock
  | uninit => exact uninit_inert
  | acquire | release | blockData | setBlockData | sync | alloc | free => exact onCache_inert _
  | consoleRead ip n => exact consoleRead_inert ip n
  | consoleWrite ip n => exact consoleWrite_inert ip n

theorem Text.inert {x : FsM κ α} {H' : α → List Nat}
    (h : Text env (fun _ => True) [] x H') : Inert x := inert_of_text h

/-! ## Counting -/

/-- One reference to `ip`, or its lock. -/
def ref (ip : Nat) : Nat → Int := Pi.single ip 1

@[simp] theorem ref_self (ip : Nat) : ref ip ip = 1 := Pi.single_eq_same ip 1

/-- A reference counts for its own inode only. -/
theorem ref_of_ne {ip jp : Nat} (h : jp ≠ ip) : ref ip jp = 0 := Pi.single_eq_of_ne h 1

theorem ref_nonneg (ip jp : Nat) : 0 ≤ ref ip jp := by
  by_cases h : jp = ip
  · rw [h, ref_self]
    decide
  · rw [ref_of_ne h]

theorem add_ref_nonneg {ρ : Nat → Int} (hρ : ∀ ip, 0 ≤ ρ ip) (ip jp : Nat) :
    0 ≤ (ρ + ref ip) jp := Int.add_nonneg (hρ jp) (ref_nonneg ip jp)

theorem add_ref_ne_zero {ρ : Nat → Int} (hρ : ∀ ip, 0 ≤ ρ ip) (ip : Nat) : (ρ + ref ip) ip ≠ 0 := by
  have := hρ ip
  rw [Pi.add_apply, ref_self]
  omega

theorem sub_ref_le {V : Nat → Int} (hV : ∀ ip, V ip ≤ 1) (ip jp : Nat) : (V - ref ip) jp ≤ 1 :=
  Int.le_trans (Int.sub_le_self _ (ref_nonneg ip jp)) (hV jp)

/-- The working directory is `w`; the inodes on the list have the counts `ρ` and the lock
values `V`, and no process sleeps on a lock; other inodes have no reference and are not locked. -/
structure Counts (w : Nat) (ρ V : Nat → Int) (s : Fs κ) : Prop where
  cwd : s.cwd = w
  nodup : s.inodeHead.Nodup
  lt : ∀ ip ∈ s.inodeHead, ip < s.inodeBrk
  rc : ∀ ip ∈ s.inodeHead, (s.inodes ip).rc = ρ ip
  lock : ∀ ip ∈ s.inodeHead, (s.inodes ip).lock = ⟨V ip, []⟩
  other : ∀ ip ∉ s.inodeHead, ρ ip = 0 ∧ V ip = 1

section

variable {w ip : Nat} {ρ V : Nat → Int} {s s' : Fs κ}

/-- An inode with references is on the list. -/
theorem Counts.mem (h : Counts w ρ V s) (hip : ρ ip ≠ 0) : ip ∈ s.inodeHead :=
  Decidable.byContradiction fun hn => hip (h.other ip hn).1

/-- The counts do not depend on anything else. -/
theorem Counts.sameRefs (h : Counts w ρ V s) (hs : s.SameRefs s') : Counts w ρ V s' where
  cwd := hs.cwd.trans h.cwd
  nodup := hs.head ▸ h.nodup
  lt := fun jp hj => by
    rw [hs.head] at hj
    rw [hs.brk]
    exact h.lt jp hj
  rc := fun jp hj => (hs.rc jp).trans (h.rc jp (hs.head ▸ hj))
  lock := fun jp hj => (hs.lock jp).trans (h.lock jp (hs.head ▸ hj))
  other := fun jp hj => h.other jp (hs.head ▸ hj)

theorem Inert.counts {x : FsM κ α} (hx : Inert x) :
    Preserves (Counts w ρ V) x := hx.keeps fun _ _ hs h => h.sameRefs hs

section

variable (h : Counts w ρ V s)

include h

/-- Another value of one lock. -/
theorem Counts.setLock (hip : ip ∈ s.inodeHead) {W : Nat → Int}
    (hother : ∀ jp, jp ≠ ip → W jp = V jp) : Counts w ρ W (s.setLock ip ⟨W ip, []⟩) where
  cwd := h.cwd
  nodup := h.nodup
  lt := h.lt
  rc := fun jp hj => by
    rw [← h.rc jp hj]
    by_cases hjp : jp = ip <;> simp [Fs.setLock, hjp]
  lock := fun jp hj => by
    by_cases hjp : jp = ip
    · simp [Fs.setLock, hjp]
    · simp [Fs.setLock, hjp, h.lock jp hj, hother jp hjp]
  other := fun jp hj => by
    have hjp : jp ≠ ip := fun he => hj (he ▸ hip)
    rw [hother jp hjp]
    exact h.other jp hj

/-- The lock was free, and is taken. -/
theorem Counts.lock_taken (hip : ip ∈ s.inodeHead) {sem : Semaphore}
    (hw : (s.inodes ip).lock.waitSem 0 = (sem, true)) :
    0 < V ip ∧ Counts w ρ (V - ref ip) (s.setLock ip sem) := by
  rw [h.lock ip hip, Semaphore.waitSem] at hw
  split at hw
  next hv =>
    obtain ⟨rfl, -⟩ := Prod.mk.inj hw
    have hW : (V - ref ip) ip = V ip - 1 := by rw [Pi.sub_apply, ref_self]
    dsimp only at hv ⊢
    refine ⟨by omega, hW ▸ h.setLock hip fun jp hj => ?_⟩
    rw [Pi.sub_apply, ref_of_ne hj, Int.sub_zero]
  next => cases (Prod.mk.inj hw).2

theorem Counts.lock_posted (hip : ip ∈ s.inodeHead) {sem : Semaphore}
    {p : Option Nat} (hp : (s.inodes ip).lock.postSem = some (sem, p)) :
    Counts w ρ (V + ref ip) (s.setLock ip sem) := by
  rw [h.lock ip hip, Semaphore.postSem] at hp
  split at hp
  next => cases hp
  next =>
    cases hp
    have hW : (V + ref ip) ip = V ip + 1 := by rw [Pi.add_apply, ref_self]
    refine hW ▸ h.setLock hip fun jp hj => ?_
    rw [Pi.add_apply, ref_of_ne hj, Int.add_zero]

/-- The lock of an inode that is not on the list does not matter. -/
theorem Counts.setLock_other (hip : ip ∉ s.inodeHead) (sem : Semaphore) :
    Counts w ρ V (s.setLock ip sem) := by
  have hne : ∀ jp ∈ s.inodeHead, jp ≠ ip := fun jp hj he => hip (he ▸ hj)
  refine ⟨h.cwd, h.nodup, h.lt, fun jp hj => ?_, fun jp hj => ?_, h.other⟩
  · rw [← h.rc jp hj]
    exact congrArg Inode.rc (update_of_ne (hne jp hj) ..)
  · rw [← h.lock jp hj]
    exact congrArg Inode.lock (update_of_ne (hne jp hj) ..)

/-- Another count for one inode. -/
theorem Counts.setRc (hip : ip ∈ s.inodeHead) {π : Nat → Int} {n : Int}
    (hself : n = π ip) (hother : ∀ jp, jp ≠ ip → π jp = ρ jp) :
    Counts w π V { s with inodes := update s.inodes ip { s.inodes ip with rc := n } } := by
  refine ⟨h.cwd, h.nodup, h.lt, fun jp hj => ?_, fun jp hj => ?_, fun jp hj => ?_⟩
  · by_cases hjp : jp = ip
    · simp [hjp, hself]
    · simp [hjp, h.rc jp hj, hother jp hjp]
  · obtain rfl | hjp := eq_or_ne jp ip
    · simp [h.lock jp hj]
    · simp [hjp, h.lock jp hj]
  · have hjp : jp ≠ ip := fun he => hj (he ▸ hip)
    rw [hother jp hjp]
    exact h.other jp hj

end

/-- A referenced inode is locked. -/
theorem inodeLock_counts (hip : ρ ip ≠ 0) :
    Hoare (Counts w ρ V) (inodeLock env ip) (fun _ => Counts w ρ (V - ref ip)) := by
  intro s h
  refine (inodeLock_triple s ip s (.refl s)).imp ?_ fun _ h => h
  rintro _ s' ⟨sem, hw, hs⟩
  exact (h.lock_taken (h.mem hip) hw).2.sameRefs hs

/-- A locked inode is on the list. -/
theorem Counts.mem_of_locked (h : Counts w ρ (V - ref ip) s) (hV : V ip ≤ 1) :
    ip ∈ s.inodeHead := by
  by_contra hn
  have hlock := (h.other ip hn).2
  rw [Pi.sub_apply, ref_self] at hlock
  omega

theorem inodeUnlock_counts (hV : V ip ≤ 1) :
    Hoare (Counts w ρ (V - ref ip)) (inodeUnlock ip : FsM κ Unit) (fun _ => Counts w ρ V) := by
  intro s h
  refine (inodeUnlock_triple s ip s (.refl s)).imp ?_ fun _ h => h
  rintro _ s' ⟨sem, p, hp, hs⟩
  have h' := h.lock_posted (h.mem_of_locked hV) hp
  rw [sub_add_cancel] at h'
  exact h'.sameRefs hs

theorem inodeShare_counts (hip : ρ ip ≠ 0) : Hoare (Counts w ρ V) (inodeShare ip : FsM κ Nat)
      (fun r s => r = ip ∧ Counts w (ρ + ref ip) V s) := by
  intro s h
  refine ⟨rfl, h.setRc (h.mem hip) ?_ fun jp hj => ?_⟩
  · rw [h.rc ip (h.mem hip), Pi.add_apply, ref_self]
  · rw [Pi.add_apply, ref_of_ne hj, Int.add_zero]

/-- A new inode in memory, with one reference. -/
theorem Counts.push (h : Counts w ρ V s) (no : Nat) (l : List (κ × Nat)) :
    Counts w (ρ + ref s.inodeBrk) V
      { s with
        inodes := update s.inodes s.inodeBrk { initInode with inodeNo := no, rc := 1 }
        inodeHead := s.inodeBrk :: s.inodeHead
        inodeBrk := s.inodeBrk + 1
        loads := l } := by
  have hnew : s.inodeBrk ∉ s.inodeHead := fun hm => Nat.lt_irrefl _ (h.lt _ hm)
  obtain ⟨hρ, hV⟩ := h.other _ hnew
  refine ⟨h.cwd, List.nodup_cons.mpr ⟨hnew, h.nodup⟩, fun jp hj => ?_, fun jp hj => ?_,
    fun jp hj => ?_, fun jp hj => ?_⟩
  · rcases List.mem_cons.mp hj with rfl | hj
    · exact Nat.lt_succ_self _
    · exact Nat.lt_succ_of_lt (h.lt jp hj)
  · by_cases hjp : jp = s.inodeBrk
    · simp [hjp, hρ]
    · have hj := (List.mem_cons.mp hj).resolve_left hjp
      simp [hjp, h.rc jp hj, ref_of_ne hjp]
  · by_cases hjp : jp = s.inodeBrk
    · simp [hjp, hV, initInode, Semaphore.initSem]
    · have hj := (List.mem_cons.mp hj).resolve_left hjp
      simp [hjp, h.lock jp hj]
  · obtain ⟨hjp, hj⟩ := not_or.mp fun hm => hj (List.mem_cons.mpr hm)
    obtain ⟨h1, h2⟩ := h.other jp hj
    rw [Pi.add_apply, h1, ref_of_ne hjp]
    exact ⟨rfl, h2⟩

/-- `inode_get` returns one more reference. -/
theorem inodeGet_counts (no : Nat) :
    Hoare (Counts w ρ V) (inodeGet env no) (fun ip => Counts w (ρ + ref ip) V) := by
  refine .bind (assert_inert _).counts fun _ => bind (assert_inert _).counts fun _ => ?_
  refine .get_bind fun s h => ?_
  split
  next ip hfind =>
    have hip := List.mem_of_find?_eq_some hfind
    rintro _ rfl
    refine h.setRc hip ?_ fun jp hj => ?_
    · rw [h.rc ip hip, Pi.add_apply, ref_self]
    · rw [Pi.add_apply, ref_of_ne hj, Int.add_zero]
  next =>
    refine .bind (Q := fun _ => Counts w (ρ + ref s.inodeBrk) V) ?_ fun _ => ?_
    · rintro _ rfl
      exact h.push no _
    · refine .bind (Text.inodeSync trivial _ false).inert.counts fun _ => ?_
      exact .pure fun _ h => h

/-- With no inode in memory all counts are zero. -/
theorem counts_nil (s : Fs κ) (hs : s.inodeHead = []) : Counts s.cwd 0 (fun _ => 1) s := by
  refine ⟨rfl, ?_, ?_, ?_, ?_, fun _ _ => ⟨rfl, rfl⟩⟩ <;> rw [hs]
  · exact List.nodup_nil
  all_goals exact fun _ h => absurd h List.not_mem_nil

/-- An inode without references leaves the list. -/
theorem Counts.erase (h : Counts w ρ (V - ref ip) s) (hρ : ρ ip = 0) (hV : V ip = 1) :
    Counts w ρ V { s with inodeHead := s.inodeHead.erase ip } := by
  have hmem : ∀ {jp}, jp ∈ s.inodeHead.erase ip → jp ≠ ip ∧ jp ∈ s.inodeHead :=
    fun hj => (h.nodup.mem_erase_iff).mp hj
  have hval : ∀ {jp}, jp ≠ ip → (V - ref ip) jp = V jp := fun hj => by
    rw [Pi.sub_apply, ref_of_ne hj, Int.sub_zero]
  refine ⟨h.cwd, h.nodup.erase ip, fun jp hj => h.lt jp (hmem hj).2,
    fun jp hj => h.rc jp (hmem hj).2, fun jp hj => ?_, fun jp hj => ?_⟩
  · rw [h.lock jp (hmem hj).2, hval (hmem hj).1]
  · by_cases hjp : jp = ip
    · rw [hjp]
      exact ⟨hρ, hV⟩
    · rw [← hval hjp]
      exact h.other jp fun hm => hj ((h.nodup.mem_erase_iff).mpr ⟨hjp, hm⟩)

/-- A put drops one reference.  The inode leaves the list only if that was the last one. -/
theorem inodePut_counts (ctx : Option Nat) (hρ : 0 ≤ ρ ip) (hV : V ip ≤ 1) :
    Hoare (Counts w (ρ + ref ip) V) (inodePut env ctx ip) (fun _ => Counts w ρ V) := by
  have hself : (ρ + ref ip) ip = ρ ip + 1 := by rw [Pi.add_apply, ref_self]
  let D : Fs κ → Prop := fun s => ip ∈ s.inodeHead ∧ Counts w ρ (V - ref ip) s
  have hD : ∀ s s' : Fs κ, s.SameRefs s' → D s → D s' := fun s s' hs h =>
    ⟨hs.head ▸ h.1, h.2.sameRefs hs⟩
  refine .bind (Q := fun _ s => V ip = 1 ∧ ip ∈ s.inodeHead ∧
    Counts w (ρ + ref ip) (V - ref ip) s) ?_ fun _ => of_and fun hV1 => ?_
  · intro s h
    have hip : ip ∈ s.inodeHead := h.mem (by omega)
    refine (lockInode_triple s ip s (.refl s)).imp ?_ fun _ h => h
    rintro _ s' ⟨sem, hw, hs⟩
    obtain ⟨hpos, h'⟩ := h.lock_taken hip hw
    exact ⟨by omega, hs.head ▸ hip, h'.sameRefs hs⟩
  refine .bind (Q := fun _ => D) ?_ fun _ => ?_
  · rintro s ⟨hip, h⟩
    refine ⟨hip, h.setRc hip ?_ fun jp hj => ?_⟩
    · rw [h.rc ip hip, hself, Int.add_sub_cancel]
    · rw [Pi.add_apply, ref_of_ne hj, Int.add_zero]
  refine .bind (Q := fun i s => i.rc = ρ ip ∧ D s)
    (fun s h => ⟨h.2.rc ip h.1, h⟩) fun i => of_and fun hrc => ?_
  refine .ite (fun hfree => ?_) fun _ => ?_
  · refine .bind ((setEntry_inert ip _).keeps hD) fun _ => ?_
    refine .bind ((Text.inodeClear trivial ip).inert.keeps hD) fun _ => ?_
    refine .bind ((Text.inodeSync trivial ip true).inert.keeps hD) fun _ => ?_
    refine .bind (Q := fun _ s => ip ∉ s.inodeHead ∧ Counts w ρ V s) ?_ fun _ => ?_
    · rintro s ⟨hip, h⟩
      refine ⟨fun hm => ?_, h.erase (hrc ▸ hfree.1) hV1⟩
      exact ((h.nodup.mem_erase_iff).mp hm).1 rfl
    · rintro s ⟨hip, h⟩
      refine (postInode_triple s ip s (.refl s)).imp ?_ fun _ h => h
      rintro _ s' ⟨sem, p, -, hs⟩
      exact (h.setLock_other hip sem).sameRefs hs
  · rintro s ⟨hip, h⟩
    refine (postInode_triple s ip s (.refl s)).imp ?_ fun _ h => h
    rintro _ s' ⟨sem, p, hp, hs⟩
    have h' := h.lock_posted hip hp
    rw [sub_add_cancel] at h'
    exact h'.sameRefs hs

/-- The end of every use of an inode that was locked. -/
theorem unlockPut_counts (ctx : Option Nat) (hρ : 0 ≤ ρ ip) (hV : V ip ≤ 1) :
    Hoare (Counts w (ρ + ref ip) (V - ref ip)) (unlockPut env ctx ip) (fun _ => Counts w ρ V) :=
  bind (inodeUnlock_counts hV) fun _ => inodePut_counts ctx hρ hV

theorem transaction_counts {body : Option Nat → FsM κ α} {Q : α → Nat → Int}
    (h : Hoare (Counts w ρ V) (body (some stackCtx)) (fun r => Counts w (Q r) V)) :
    Hoare (Counts w ρ V) (transaction env body) (fun r => Counts w (Q r) V) := by
  refine .bind (onCache_inert _).counts fun _ => bind h fun r => ?_
  exact .bind (onCache_inert _).counts fun _ => pure fun _ h => h

/-! ## Paths -/

/-- The references of a call that may return an inode. -/
def optRef : Option Nat → Nat → Int
  | none => 0
  | some ip => ref ip

/-- `init_inodes` gets the root. -/
theorem initInodes_counts : Hoare (fun s => s.cwd = w) (initInodes env)
      (fun r => Counts w (optRef r) (fun _ => 1)) := by
  refine .bind (Q := fun _ => Counts w 0 (fun _ => 1)) (modify fun s hs => ?_) fun _ => ?_
  · exact hs ▸ counts_nil { s with inodeHead := [] } rfl
  refine .ite (fun _ => ?_) fun _ => pure fun _ h => h
  refine .bind (inodeGet_counts _) fun root => pure fun _ h => ?_
  rwa [zero_add] at h

/-- The loop exchanges its reference for one to the next inode, and drops it on failure. -/
theorem namexLoop_counts (ctx : Option Nat) (parent : Bool) (hρ : ∀ ip, 0 ≤ ρ ip)
    (hV : ∀ ip, V ip ≤ 1) (fuel : Nat) :
    ∀ (current : Nat) (cursor : List UInt8) (name : Nat → UInt8), cursor.length < fuel →
    Hoare (Counts w (ρ + ref current) V) (namexLoop env ctx parent fuel current cursor name)
      (fun r => Counts w (ρ + optRef (r.map Prod.fst)) V) := by
  induction fuel with
  | zero => exact fun _ _ _ h => absurd h (Nat.not_lt_zero _)
  | succ fuel ih =>
    intro current cursor name hfuel
    have hcur := add_ref_ne_zero hρ current
    -- every way out without an inode gives the reference back
    have hleave : ∀ {γ : Type} {x : FsM κ γ} {Q : γ → Fs κ → Prop},
        Hoare (Counts w ρ V) x Q →
        Hoare (Counts w (ρ + ref current) (V - ref current)) (do
          inodeUnlock current
          inodePut env ctx current
          x) Q := fun hx =>
      bind (inodeUnlock_counts (hV current)) fun _ =>
        bind (inodePut_counts ctx (hρ current) (hV current)) fun _ => hx
    have hnone : Hoare (Counts w ρ V) (Pure.pure none : FsM κ (Option (Nat × (Nat → UInt8))))
        (fun r => Counts w (ρ + optRef (r.map Prod.fst)) V) :=
      pure fun _ h => by simpa [optRef] using h
    rw [namexLoop]
    split
    next =>
      refine .ite (fun _ => ?_) fun _ => pure fun _ h => h
      exact .bind (inodePut_counts ctx (hρ current) (hV current)) fun _ => hnone
    next rest name' hskip =>
      have hlen := length_of_skipelem hskip
      refine .bind (inodeLock_counts hcur) fun _ => ?_
      refine .bind (getInode_inert current).counts fun i => ?_
      refine .ite (fun _ => hleave hnone) fun _ => ite (fun _ => ?_) fun _ => ?_
      · exact .bind (inodeUnlock_counts (hV current)) fun _ => pure fun _ h => h
      refine .bind (Text.inodeLookup current _).inert.counts fun found => ?_
      split
      next => exact hleave hnone
      next no index =>
        exact hleave (bind (inodeGet_counts no) fun next =>
          ih next rest name' (by omega))

/-- `namex` returns a reference, or none at all. -/
theorem namex_counts (ctx : Option Nat) (path : List UInt8) (parent : Bool) (name : Nat → UInt8)
    (hw : deref path ≠ SLASH → ρ w ≠ 0) (hρ : ∀ ip, 0 ≤ ρ ip) (hV : ∀ ip, V ip ≤ 1) :
    Hoare (Counts w ρ V) (namex env path parent name ctx)
      (fun r => Counts w (ρ + optRef (r.map Prod.fst)) V) := by
  refine .bind (Q := fun current => Counts w (ρ + ref current) V) ?_ fun current =>
    namexLoop_counts ctx parent hρ hV _ current path name (Nat.lt_succ_self _)
  refine .ite (fun _ => inodeGet_counts _) fun hrel => get_bind fun s h => ?_
  rw [h.cwd]
  intro s' hs
  refine (inodeShare_counts (hw hrel) s' (hs ▸ h)).imp ?_ fun _ h => h
  rintro _ s'' ⟨rfl, h'⟩
  exact h'

theorem namei_counts (ctx : Option Nat) (path : List UInt8)
    (hw : deref path ≠ SLASH → ρ w ≠ 0) (hρ : ∀ ip, 0 ≤ ρ ip) (hV : ∀ ip, V ip ≤ 1) :
    Hoare (Counts w ρ V) (namei env path ctx)
      (fun r => Counts w (ρ + optRef r) V) :=
  bind uninit_inert.counts fun name =>
    bind (namex_counts ctx path false name hw hρ hV) fun _ => pure fun _ h => h

/-! ## Calls

`create` returns its inode locked. -/

section

variable (hρ : ∀ ip, 0 ≤ ρ ip) (hV : ∀ ip, V ip ≤ 1)
include hρ hV

/-- The parent is put back, and an inode that is returned is locked. -/
theorem createExisting_counts (ctx : Option Nat) (type parent no : Nat) :
    Hoare (Counts w (ρ + ref parent) (V - ref parent))
      (createExisting env ctx type parent no)
      (fun r => Counts w (ρ + optRef r) (V - optRef r)) := by
  refine .bind (inodeGet_counts no) fun existing => ?_
  rw [add_right_comm]
  refine .bind (unlockPut_counts ctx (add_ref_nonneg hρ existing parent) (hV parent)) ?_
  intro _
  refine .bind (inodeLock_counts (add_ref_ne_zero hρ existing)) fun _ => ?_
  refine .bind (getInode_inert existing).counts fun i => ?_
  refine .ite (fun _ => pure fun _ h => h) fun _ => ?_
  refine .bind (unlockPut_counts ctx (hρ existing) (hV existing)) fun _ => ?_
  exact .pure fun _ h => by simpa [optRef] using h

theorem createNew_counts (ctx : Option Nat) (type major minor parent : Nat) (name : Nat → UInt8) :
    Hoare (Counts w (ρ + ref parent) (V - ref parent))
      (createNew env ctx type major minor parent name)
      (fun r => Counts w (ρ + optRef r) (V - optRef r)) := by
  have hnone : Hoare (Counts w ρ V) (Pure.pure none : FsM κ (Option Nat))
      (fun r => Counts w (ρ + optRef r) (V - optRef r)) :=
    pure fun _ h => by simpa [optRef] using h
  refine .bind (Text.inodeAlloc type).inert.counts fun no => ite (fun _ => ?_) fun _ => ?_
  · exact .bind (unlockPut_counts ctx (hρ parent) (hV parent)) fun _ => hnone
  refine .bind (inodeGet_counts no) fun ip => ?_
  have hnn := add_ref_nonneg hρ parent
  refine .bind (inodeLock_counts (add_ref_ne_zero hnn ip)) fun _ => ?_
  refine .bind (setEntry_inert ip _).counts fun _ => ?_
  refine .bind (Text.inodeSync trivial ip true).inert.counts fun _ => ?_
  refine .bind (Text.createDots trivial type parent ip).inert.counts fun _ => ?_
  refine .bind (getInode_inert ip).counts fun i => ?_
  refine .bind (Text.inodeInsert trivial parent name _).inert.counts fun insertResult => ?_
  refine .ite (fun _ => ?_) fun _ => ?_
  · refine .bind (Text.dropParentLink trivial type parent).inert.counts fun _ => ?_
    refine .bind (unlockPut_counts ctx (hnn ip) (sub_ref_le hV parent ip)) fun _ => ?_
    exact .bind (unlockPut_counts ctx (hρ parent) (hV parent)) fun _ => hnone
  · rw [add_right_comm, sub_right_comm]
    refine .bind (unlockPut_counts ctx (add_ref_nonneg hρ ip parent)
      (sub_ref_le hV ip parent)) fun _ => ?_
    exact .pure fun _ h => h

variable (hw : ρ w ≠ 0)
include hw

/-- `create` returns a locked inode, or nothing. -/
theorem create_counts (ctx : Option Nat) (path : List UInt8) (type major minor : Nat) :
    Hoare (Counts w ρ V) (create env path type major minor ctx)
      (fun r => Counts w (ρ + optRef r) (V - optRef r)) := by
  refine .bind uninit_inert.counts fun name => ?_
  refine .bind (namex_counts ctx path true name (fun _ => hw) hρ hV) fun found => ?_
  split
  next => exact .pure fun _ h => by simpa [optRef] using h
  next parent name' =>
    refine .bind (inodeLock_counts (add_ref_ne_zero hρ parent)) fun _ => ?_
    refine .bind (Text.inodeLookup parent name').inert.counts fun existing => ?_
    split
    · exact createExisting_counts hρ hV ctx type parent _
    · exact createNew_counts hρ hV ctx type major minor parent name'

theorem openInode_counts (ctx : Option Nat) (path : List UInt8) (creat : Bool) :
    Hoare (Counts w ρ V) (openInode env path creat ctx)
      (fun r => Counts w (ρ + optRef r) (V - optRef r)) := by
  refine .ite (fun _ => create_counts hρ hV hw ctx path _ _ _) fun _ => ?_
  refine .bind (namei_counts ctx path (fun _ => hw) hρ hV) fun found => ?_
  split
  next => exact .pure fun _ h => by simpa [optRef] using h
  next ip =>
    refine .bind (inodeLock_counts (add_ref_ne_zero hρ ip)) fun _ => ?_
    exact .pure fun _ h => h

theorem makeNode_counts (path : List UInt8) (type major minor : Nat) :
    Preserves (Counts w ρ V) (makeNode env path type major minor) := by
  refine transaction_counts (Q := fun _ => ρ) ?_
  refine .bind (create_counts hρ hV hw _ path type major minor) fun found => ?_
  split
  next => exact .pure fun _ h => by simpa [optRef] using h
  next ip =>
    refine .bind (unlockPut_counts _ (hρ ip) (hV ip)) fun _ => ?_
    exact .pure fun _ h => h

omit hw in
/-- Both the directory and the inode are put back on every path. -/
theorem unlinkEntry_counts (ctx : Option Nat) (dp no off : Nat) :
    Hoare (Counts w (ρ + ref dp) (V - ref dp)) (unlinkEntry env ctx dp no off)
      (fun _ => Counts w ρ V) := by
  refine .bind (inodeGet_counts no) fun ip => ?_
  have hnn := add_ref_nonneg hρ dp
  refine .bind (inodeLock_counts (add_ref_ne_zero hnn ip)) fun _ => ?_
  refine .bind (getInode_inert ip).counts fun i => ?_
  refine .bind (assert_inert _).counts fun _ => ?_
  refine .bind (Text.nonemptyDir ip).inert.counts fun nonempty => ?_
  refine .ite (fun _ => ?_) fun _ => ?_
  · refine .bind (unlockPut_counts ctx (hnn ip) (sub_ref_le hV dp ip)) fun _ => ?_
    refine .bind (unlockPut_counts ctx (hρ dp) (hV dp)) fun _ => ?_
    exact .pure fun _ h => h
  refine .bind (Text.inodeWrite trivial dp _ off _).inert.counts fun n => ?_
  refine .bind (assert_inert _).counts fun _ => ?_
  refine .bind (getInode_inert ip).counts fun i => ?_
  refine .bind (Text.dropParentLink trivial _ dp).inert.counts fun _ => ?_
  rw [add_right_comm, sub_right_comm]
  refine .bind (unlockPut_counts ctx (add_ref_nonneg hρ ip dp) (sub_ref_le hV ip dp)) ?_
  intro _
  refine .bind (setEntry_inert ip _).counts fun _ => ?_
  refine .bind (Text.inodeSync trivial ip true).inert.counts fun _ => ?_
  refine .bind (unlockPut_counts ctx (hρ ip) (hV ip)) fun _ => ?_
  exact .pure fun _ h => h

/-- A system call that keeps no reference. -/
theorem unlinkat_counts (path : List UInt8) : Preserves (Counts w ρ V) (unlinkat env path) := by
  refine transaction_counts (Q := fun _ => ρ) ?_
  refine .bind uninit_inert.counts fun name => ?_
  refine .bind (namex_counts _ path true name (fun _ => hw) hρ hV) fun found => ?_
  split
  next => exact .pure fun _ h => by simpa [optRef] using h
  next dp name' =>
    have hbad : Hoare (Counts w (ρ + ref dp) (V - ref dp))
        (unlockPut env (some stackCtx) dp >>= fun _ => Pure.pure (-1 : Int))
        (fun _ => Counts w ρ V) :=
      bind (unlockPut_counts _ (hρ dp) (hV dp)) fun _ => pure fun _ h => h
    refine .bind (inodeLock_counts (add_ref_ne_zero hρ dp)) fun _ => ?_
    refine .ite (fun _ => hbad) fun _ => ?_
    refine .bind (Text.inodeLookup dp name').inert.counts fun entry => ?_
    split
    · exact hbad
    · exact unlinkEntry_counts hρ hV _ dp _ _

end

end

end OsKernel
