import Mathlib.Algebra.Group.Pi.Lemmas
import Mathlib.Data.List.DropRight
import OsKernel.Fs.DirIndex
import OsKernel.Fs.InodeLife

/-!
# Path resolution

`namex` follows the components of a path from the root or from the working directory.  On a tree of
directories it returns the inode that the successive lookups give, with one more reference, and puts
back every reference that it took on the way, also where it returns `NULL`.

With `parent` it stops before the last component.  It returns the inode there only if that is a
directory.
-/

namespace OsKernel

open Prog List InodeEntry

variable {r : Option (Nat × (Nat → UInt8))} {path : List UInt8} {last : Option FileName}
  {target : Option Nat}

/-! ## Components -/

/-- The components of a path: it is split at the slashes, and the empty parts are dropped. -/
def components (path : List UInt8) : List (List UInt8) := (path.splitOn SLASH).filter (· ≠ [])

theorem components_slash (path : List UInt8) : components (SLASH :: path) = components path := by
  rfl

theorem components_dropWhile (path : List UInt8) :
    components (path.dropWhile (· == SLASH)) = components path := by
  induction path with
  | nil => rfl
  | cons c path ih =>
    obtain rfl | hc := eq_or_ne c SLASH
    · rw [dropWhile_cons_of_pos (by decide), ih, components_slash]
    · rw [dropWhile_cons_of_neg (by simpa using hc)]

theorem components_append {elem : List UInt8} (hne : elem ≠ []) (hs : SLASH ∉ elem)
    (rest : List UInt8) :
    components elem = [elem] ∧ components (elem ++ SLASH :: rest) = elem :: components rest := by
  have hc : ∀ c ∈ elem, (c == SLASH) = false := fun c hc => by
    rw [beq_eq_false_iff_ne]
    rintro rfl
    exact hs hc
  constructor
  · rw [components, List.splitOn, splitOnP_eq_singleton hc]
    simp [hne]
  · rw [components, List.splitOn, splitOnP_append_cons_of_forall_mem hc _ (by decide)]
    simp [hne, components, List.splitOn]

theorem components_eq (hnul : 0 ∉ path) : components path =
      if pathElem path = [] then [] else pathElem path :: components (pathRest path) := by
  have hq : 0 ∉ path.dropWhile (· == SLASH) := fun h => hnul ((dropWhile_sublist _).mem h)
  rw [← components_dropWhile path]
  split
  next h =>
    -- only slashes
    rw [pathElem_eq_nil] at h
    cases hd : path.dropWhile (· == SLASH) with
    | nil => rfl
    | cons c t =>
      rw [hd] at h hq
      exact absurd (show c = 0 from h) fun hc => hq (hc ▸ mem_cons_self)
  next h =>
    have hs : SLASH ∉ pathElem path := fun hm => (nameChar_of_mem_pathElem hm).1 rfl
    have happ : path.dropWhile (· == SLASH) =
        pathElem path ++ (path.dropWhile (· == SLASH)).dropWhile nameChar :=
      (takeWhile_append_dropWhile).symm
    have hrest : components (pathRest path) =
        components ((path.dropWhile (· == SLASH)).dropWhile nameChar) := components_dropWhile _
    rw [hrest]
    cases hd : (path.dropWhile (· == SLASH)).dropWhile nameChar with
    | nil =>
      rw [hd, append_nil] at happ
      rw [happ]
      exact (components_append h hs []).1
    | cons c t =>
      have hc : nameChar c = false := by
        have hhead := head_dropWhile_not nameChar (l := path.dropWhile (· == SLASH))
        simpa [hd] using hhead
      rw [hd] at happ
      have hc0 : c ≠ 0 := by
        rintro rfl
        exact hq (happ ▸ mem_append_right _ mem_cons_self)
      obtain rfl : c = SLASH := by simpa [nameChar, hc0] using hc
      rw [happ, (components_append h hs t).2, components_slash]

theorem deref_pathRest (hnul : 0 ∉ path) :
    deref (pathRest path) = 0 ↔ components (pathRest path) = [] := by
  have hq : 0 ∉ pathRest path := fun h =>
    hnul ((dropWhile_sublist _).mem ((dropWhile_sublist _).mem
      ((dropWhile_sublist _).mem h)))
  have hdrop : (pathRest path).dropWhile (· == SLASH) = pathRest path := by
    rw [pathRest, dropWhile_idempotent]
  rw [components_eq hq, ← hdrop, ← pathElem_eq_nil, hdrop]
  simp

theorem length_pathRest_lt (h : pathElem path ≠ []) :
    (pathRest path).length < path.length := by
  have hskip : skipelem path (fun _ => 0) =
      some (pathRest path, elemBuffer (pathElem path) fun _ => 0) := by
    rw [skipelem_eq, if_neg h]
  exact length_of_skipelem hskip

/-! ## Trees of directories -/

section

variable {κ : Type} {B : StoreView κ} {env : FsEnv κ} {sb : SuperBlock} {c c' : κ} {no : Nat}

/-- The inode number that a name has in a directory. -/
def lookupNo (sb : SuperBlock) (v : Nat → Data) (no : Nat) (name : FileName) : Option Nat :=
  if (entryAt sb v no).type = INODE_DIRECTORY then dirMap v (entryAt sb v no) name else none

/-- The inode that the lookups of the names lead to. -/
def resolve (sb : SuperBlock) (v : Nat → Data) : Nat → List FileName → Option Nat
  | no, [] => some no
  | no, name :: names => (lookupNo sb v no name).bind fun next => resolve sb v next names

/-- The directory that all names but the last lead to. -/
def resolveParent (sb : SuperBlock) (v : Nat → Data) : Nat → List FileName → Option Nat
  | _, [] => none
  | no, [_] => if (entryAt sb v no).type = INODE_DIRECTORY then some no else none
  | no, name :: names => (lookupNo sb v no name).bind fun next => resolveParent sb v next names

theorem resolveParent_eq (v : Nat → Data) (names : List FileName) (hne : names ≠ []) :
    ∀ no, resolveParent sb v no names =
      (resolve sb v no names.dropLast).filter fun p => (entryAt sb v p).type = INODE_DIRECTORY := by
  induction names with
  | nil => exact absurd rfl hne
  | cons name names ih =>
    intro no
    cases names with
    | nil =>
      rw [resolveParent, dropLast_singleton, resolve, Option.filter_some]
      simp
    | cons name' names =>
      rw [resolveParent, dropLast_cons_cons, resolve]
      cases lookupNo sb v no name with
      | none => rfl
      | some next => exact ih (cons_ne_nil _ _) next
      exact cons_ne_nil _ _

/-- Every directory is a file of whole entries without holes, and its live entries name inodes with
links. -/
structure DirTree (B : StoreView κ) (sb : SuperBlock) (c : κ) : Prop where
  dir : ∀ no, sb.HasInode no → (entryAt sb (B.view c) no).type = INODE_DIRECTORY →
    DirFile B c (entryAt sb (B.view c) no)
  target : ∀ no name next, sb.HasInode no → lookupNo sb (B.view c) no name = some next →
    sb.HasInode next ∧ (entryAt sb (B.view c) next).numLinks ≠ 0

end

/-! ## References -/

section
open InodeRun

variable {κ : Type} {B : StoreView κ} {env : FsEnv κ} {s s' s'' : Fs κ} {ip no : Nat}
  {d d' : Nat → Int}

/-- The count of references to inode `no`. -/
def Fs.refCount (s : Fs κ) (no : Nat) : Int :=
  (s.inodeHead.find? fun ip => (s.inodes ip).inodeNo = no).elim 0 fun ip => (s.inodes ip).rc

theorem InodeRun.Balanced.refCount_eq {b : Nat → Int} (hb : Balanced s b) : s.refCount = b := by
  funext no
  rw [Fs.refCount]
  cases hf : s.inodeHead.find? fun ip => (s.inodes ip).inodeNo = no with
  | none =>
    rw [List.find?_eq_none] at hf
    exact (hb.none no fun ip hip he => hf ip hip (by simpa using he)).symm
  | some ip =>
    have hno : (s.inodes ip).inodeNo = no := by simpa using List.find?_some hf
    rw [← hno]
    exact hb.rc ip (mem_of_find?_eq_some hf)

theorem FsOk.balanced (h : FsOk B env.sb s) : Balanced s s.refCount := by
  refine ⟨fun ip hip => ?_, fun no hno => ?_⟩
  · rw [Fs.refCount, h.find_eq hip]
    rfl
  have hf : s.inodeHead.find? (fun ip => (s.inodes ip).inodeNo = no) = none := by
    rw [List.find?_eq_none]
    intro ip hip
    simpa using hno ip hip
  rw [Fs.refCount, hf]
  rfl

/-- From `s` to `s'` the counts have changed by `d`, and the volume reads the same. -/
structure Moved (B : StoreView κ) (sb : SuperBlock) (s : Fs κ) (d : Nat → Int) (s' : Fs κ) :
    Prop where
  ok : FsOk B sb s'
  same : B.Same s.cache s'.cache
  cwd : s'.cwd = s.cwd
  count : s'.refCount = s.refCount + d
  stays : ∀ ip ∈ s.inodeHead, ip ∈ s'.inodeHead ∧ (s'.inodes ip).inodeNo = (s.inodes ip).inodeNo

theorem Moved.trans (h : Moved B env.sb s d s') (h' : Moved B env.sb s' d' s'') :
    Moved B env.sb s (d + d') s'' where
  ok := h'.ok
  same := h.same.trans h'.same
  cwd := h'.cwd.trans h.cwd
  count := by rw [h'.count, h.count, add_assoc]
  stays := fun ip hip => by
    obtain ⟨h1, hno1⟩ := h.stays ip hip
    obtain ⟨h2, hno2⟩ := h'.stays ip h1
    exact ⟨h2, hno2.trans hno1⟩

theorem FsOk.rc_eq (h : FsOk B env.sb s) (hip : ip ∈ s.inodeHead) :
    (s.inodes ip).rc = s.refCount (s.inodes ip).inodeNo := h.balanced.rc ip hip

theorem update_eq_add_single (b : Nat → Int) (no : Nat) (k : Int) :
    Function.update b no (b no + k) = b + Pi.single no k := by
  funext x
  obtain rfl | hx := eq_or_ne x no
  · simp
  · simp [hx]

theorem FsOk.moved_addRef (h : FsOk B env.sb s) (hip : ip ∈ s.inodeHead) (k : Int) :
    Moved B env.sb s (Pi.single (s.inodes ip).inodeNo k) (s.addRef ip k) where
  ok := h.addRef ip k
  same := .refl h.volume.settled
  cwd := rfl
  count := by
    rw [← update_eq_add_single]
    exact (h.balanced.addRef h hip k).refCount_eq
  stays := fun jp hjp => ⟨hjp, s.inodeNo_addRef ip jp k⟩

theorem FsOk.moved_same (L : StoreLaws env.cache B) (hib : InodeBlocks B env.sb)
    (h : FsOk B env.sb s) {c : κ} (hs : B.Same s.cache c) (j : Nat → Nat → UInt8) :
    Moved B env.sb s 0 { s with cache := c, junk := j } where
  ok := h.of_same L hib hs j
  same := hs
  cwd := rfl
  count := (add_zero _).symm
  stays := fun _ hip => ⟨hip, rfl⟩

theorem moved_get (L : StoreLaws env.cache B) (hib : InodeBlocks B env.sb)
    (hnull : SyncsDirect env.cache B) (h : FsOk B env.sb s) (hno : env.sb.HasInode no) :
    ∃ ip s', (inodeGet env no).exec s = (.ok ip, s') ∧ ip ∈ s'.inodeHead ∧
      (s'.inodes ip).inodeNo = no ∧ Moved B env.sb s (Pi.single no 1) s' := by
  by_cases hmem : ∃ ip ∈ s.inodeHead, (s.inodes ip).inodeNo = no
  · obtain ⟨ip, hip, rfl⟩ := hmem
    exact ⟨ip, _, exec_inodeGet_hit h hip, hip, s.inodeNo_addRef ip ip 1, h.moved_addRef hip 1⟩
  have hnone : ∀ ip ∈ s.inodeHead, (s.inodes ip).inodeNo ≠ no := fun ip hip he =>
    hmem ⟨ip, hip, he⟩
  obtain ⟨s', hexec, hl⟩ := exec_inodeGet_miss L hib hnull h.volume.settled hno hnone
  refine ⟨_, s', hexec, ?_, by rw [hl.new], h.loaded L hib hno hnone hl, hl.same, hl.cwd, ?_,
    fun ip hip => ⟨?_, ?_⟩⟩
  · rw [hl.head]
    exact mem_cons_self
  · rw [← update_eq_add_single]
    exact (hl.balanced h h.balanced hnone).refCount_eq
  · rw [hl.head]
    exact mem_cons_of_mem _ hip
  · rw [hl.old ip (Nat.ne_of_lt (h.fresh ip hip))]

/-- `inode_put` of a reference that is not the last one, or of an inode with links. -/
theorem moved_put (ctx : Option Nat) (h : FsOk B env.sb s) (hip : ip ∈ s.inodeHead)
    (hkeep : (s.inodes ip).entry.numLinks = 0 → 1 < (s.inodes ip).rc) :
    ∃ s', (inodePut env ctx ip).exec s = (.ok (), s') ∧
      Moved B env.sb s (Pi.single (s.inodes ip).inodeNo (-1)) s' := by
  refine ⟨_, exec_inodePut_kept ctx (h.resident ip hip).lock ?_, h.moved_addRef hip (-1)⟩
  omega

theorem moved_lookup (L : StoreLaws env.cache B) (hib : InodeBlocks B env.sb) (h : FsOk B env.sb s)
    (hip : ip ∈ s.inodeHead) (hrc : 0 < (s.inodes ip).rc)
    (hd : DirFile B s.cache (s.inodes ip).entry) (name : FileName) :
    ∃ s1 s', (inodeLookup env ip name.str).exec (s.setLock ip (.initSem 0)) =
        (.ok ((dirFind (B.view s.cache) (s.inodes ip).entry name).map fun k =>
          ((dirEntry (B.view s.cache) (s.inodes ip).entry k).inodeNo, DIR_ENTRY_BYTES * k)), s1) ∧
      (inodeUnlock ip).exec s1 = (.ok (), s') ∧ Moved B env.sb s 0 s' := by
  obtain ⟨s1, hexec, j, c, rfl, hs⟩ := exec_inodeLookup (s.setLock ip (.initSem 0)) ip L hd name
  rw [← s.setLock_eq_setFile] at hexec
  refine ⟨_, { s with cache := c, junk := j }, hexec, ?_, h.moved_same L hib hs j⟩
  have hself : ({ s with junk := j } : Fs κ).setFile ip c (s.inodes ip).entry =
      { s with cache := c, junk := j } := by
    simp [Fs.setFile]
  rw [← hself]
  exact exec_inodeUnlock_setFile (s := { s with junk := j }) (h.resident ip hip) hrc c _

theorem DirFile.lookup_same (L : StoreLaws env.cache B) {c c' : κ} {e : InodeEntry}
    (h : DirFile B c e) (hs : B.Same c c') (name : FileName) :
    ((dirFind (B.view c') e name).map fun k =>
        ((dirEntry (B.view c') e k).inodeNo, DIR_ENTRY_BYTES * k)) =
      (dirFind (B.view c) e name).map fun k =>
        ((dirEntry (B.view c) e k).inodeNo, DIR_ENTRY_BYTES * k) := by
  have hde := fun k hk => h.dirEntry_same L hs (k := k) hk
  rw [dirFind_congr hde]
  refine Option.map_congr fun k hk => ?_
  rw [hde k (dirFind_eq_some hk).1]

/-! ## The loop -/

/-- Where `namex` leads. -/
def namexTarget (sb : SuperBlock) (v : Nat → Data) (parent : Bool) (no : Nat)
    (names : List FileName) : Option Nat :=
  if parent then resolveParent sb v no names else resolve sb v no names

/-- The name that `namex` leaves in the buffer. -/
def namexLast (parent : Bool) (names : List FileName) : Option FileName :=
  if parent then names.getLast? else none

theorem namexTarget_cons (sb : SuperBlock) (v : Nat → Data) (parent : Bool) (no : Nat)
    (name : FileName) (names : List FileName) :
    namexTarget sb v parent no (name :: names) =
      if (entryAt sb v no).type = INODE_DIRECTORY then
        if parent = true ∧ names = [] then some no
        else (dirMap v (entryAt sb v no) name).bind fun next => namexTarget sb v parent next names
      else none := by
  by_cases htype : (entryAt sb v no).type = INODE_DIRECTORY
  · cases parent with
    | false => simp [namexTarget, resolve, lookupNo, htype]
    | true => cases names <;> simp [namexTarget, resolveParent, lookupNo, htype]
  · cases parent with
    | false => simp [namexTarget, resolve, lookupNo, htype]
    | true => cases names <;> simp [namexTarget, resolveParent, lookupNo, htype]

theorem namexLast_cons (parent : Bool) (name : FileName) {names : List FileName}
    (h : ¬ (parent = true ∧ names = [])) :
    namexLast parent (name :: names) = namexLast parent names := by
  cases parent with
  | false => rfl
  | true =>
    cases names with
    | nil => exact absurd ⟨rfl, rfl⟩ h
    | cons name' names => simp [namexLast, List.getLast?_cons_cons]

/-- `namex` has a reference to the inode at `cur`, which its put does not free. -/
structure NamexAt (B : StoreView κ) (sb : SuperBlock) (c₀ : κ) (s : Fs κ) (cur : Nat) : Prop where
  ok : FsOk B sb s
  same : B.Same c₀ s.cache
  nonneg : ∀ no, 0 ≤ s.refCount no
  mem : cur ∈ s.inodeHead
  rc : 0 < (s.inodes cur).rc
  keep : (s.inodes cur).entry.numLinks = 0 → 1 < (s.inodes cur).rc

/-- What `namex` does with its reference to inode `no`: it is put back, or exchanged for one to the
inode that is returned. -/
inductive NamexResult (B : StoreView κ) (sb : SuperBlock) (s : Fs κ) (no : Nat)
    (last : Option FileName) : Option Nat → Option (Nat × (Nat → UInt8)) → Fs κ → Prop where
  | null {s' : Fs κ} : Moved B sb s (-Pi.single no 1) s' → NamexResult B sb s no last none none s'
  | found {s' : Fs κ} {ip p : Nat} {name : Nat → UInt8} : ip ∈ s'.inodeHead →
      (s'.inodes ip).inodeNo = p → Moved B sb s (Pi.single p 1 - Pi.single no 1) s' →
      (∀ l, last = some l → Names name l) →
      NamexResult B sb s no last (some p) (some (ip, name)) s'

section

variable {c₀ : κ} {cur : Nat}

theorem NamexAt.entry (L : StoreLaws env.cache B) (hib : InodeBlocks B env.sb)
    (hv : Volume B env.sb c₀) (h : NamexAt B env.sb c₀ s cur) :
    (s.inodes cur).entry = entryAt env.sb (B.view c₀) (s.inodes cur).inodeNo := by
  have hr := h.ok.resident cur h.mem
  rw [hr.entry]
  exact (EntryKept.of_same L hib hv h.same hr.inode).entry

theorem NamexAt.put (h : NamexAt B env.sb c₀ s cur) (ctx : Option Nat) :
    ∃ s', (inodePut env ctx cur).exec s = (.ok (), s') ∧
      Moved B env.sb s (-Pi.single (s.inodes cur).inodeNo 1) s' := by
  rw [← Pi.single_neg]
  exact moved_put ctx h.ok h.mem h.keep

theorem NamexAt.moved (L : StoreLaws env.cache B) (hib : InodeBlocks B env.sb)
    (hv : Volume B env.sb c₀) (h : NamexAt B env.sb c₀ s cur) (hm : Moved B env.sb s 0 s') :
    NamexAt B env.sb c₀ s' cur ∧ (s'.inodes cur).inodeNo = (s.inodes cur).inodeNo := by
  obtain ⟨hmem, hno⟩ := hm.stays cur h.mem
  have hcount : s'.refCount = s.refCount := by rw [hm.count, add_zero]
  have hrc : (s'.inodes cur).rc = (s.inodes cur).rc := by
    rw [hm.ok.rc_eq hmem, h.ok.rc_eq h.mem, hno, hcount]
  have hentry : (s'.inodes cur).entry = (s.inodes cur).entry := by
    have hr := hm.ok.resident cur hmem
    rw [hr.entry, h.entry L hib hv, hno]
    exact (EntryKept.of_same L hib hv (h.same.trans hm.same) (h.ok.resident cur h.mem).inode).entry
  refine ⟨⟨hm.ok, h.same.trans hm.same, fun no => ?_, hmem, ?_, ?_⟩, hno⟩
  · rw [hcount]
    exact h.nonneg no
  · rw [hrc]
    exact h.rc
  · rw [hentry, hrc]
    exact h.keep

theorem NamexAt.get (L : StoreLaws env.cache B) (hib : InodeBlocks B env.sb)
    (hnull : SyncsDirect env.cache B) (hv : Volume B env.sb c₀) (h : FsOk B env.sb s)
    (hsame : B.Same c₀ s.cache) (hnn : ∀ no, 0 ≤ s.refCount no) (hno : env.sb.HasInode no)
    (hlinks : (entryAt env.sb (B.view c₀) no).numLinks ≠ 0) :
    ∃ ip s', (inodeGet env no).exec s = (.ok ip, s') ∧ NamexAt B env.sb c₀ s' ip ∧
      (s'.inodes ip).inodeNo = no ∧ Moved B env.sb s (Pi.single no 1) s' := by
  obtain ⟨ip, s', hexec, hmem, hino, hm⟩ := moved_get L hib hnull h hno
  have hle : ∀ x, s.refCount x ≤ s'.refCount x := fun x => by
    rw [hm.count, Pi.add_apply]
    obtain rfl | hx := eq_or_ne x no
    · simp
    · simp [hx]
  have hentry : (s'.inodes ip).entry = entryAt env.sb (B.view c₀) no := by
    have hr := hm.ok.resident ip hmem
    rw [hr.entry, hino]
    exact (EntryKept.of_same L hib hv (hsame.trans hm.same) hno).entry
  refine ⟨ip, s', hexec, ⟨hm.ok, hsame.trans hm.same, fun x => le_trans (hnn x) (hle x), hmem, ?_,
    fun h0 => ?_⟩, hino, hm⟩
  · have := hnn no
    rw [hm.ok.rc_eq hmem, hino, hm.count, Pi.add_apply, Pi.single_eq_same]
    omega
  · rw [hentry] at h0
    exact absurd h0 hlinks

theorem NamexAt.unlock (h : NamexAt B env.sb c₀ s cur) :
    (inodeUnlock cur).exec (s.setLock cur (.initSem 0)) = (.ok (), s) := by
  have hr := h.ok.resident cur h.mem
  rw [s.setLock_eq_setFile, exec_inodeUnlock_setFile hr h.rc, Fs.setFile_self]

theorem NamexAt.nonneg_put (h : NamexAt B env.sb c₀ s cur)
    (hm : Moved B env.sb s (-Pi.single (s.inodes cur).inodeNo 1) s') (x : Nat) :
    0 ≤ s'.refCount x := by
  have hx := h.nonneg x
  have hrc := h.rc
  rw [h.ok.rc_eq h.mem] at hrc
  rw [hm.count, Pi.add_apply, Pi.neg_apply]
  by_cases hxc : x = (s.inodes cur).inodeNo
  · rw [hxc, Pi.single_eq_same]
    omega
  · rw [Pi.single_eq_of_ne hxc]
    omega

theorem NamexResult.after {no next : Nat} (h : NamexResult B env.sb s' next last target r s'')
    (hm : Moved B env.sb s (-Pi.single no 1 + Pi.single next 1) s') :
    NamexResult B env.sb s no last target r s'' := by
  cases h with
  | null hm' =>
    refine .null ?_
    have := hm.trans hm'
    rwa [add_neg_cancel_right] at this
  | found hmem hno hm' hlast =>
    refine .found hmem hno ?_ hlast
    have := hm.trans hm'
    rwa [add_assoc, add_sub_cancel, neg_add_eq_sub] at this

theorem NamexResult.spec {no : Nat} (h : NamexResult B env.sb s' no last target r s'')
    (hm : Moved B env.sb s (Pi.single no 1) s') :
    (r.map fun p => (s''.inodes p.1).inodeNo) = target ∧
      (∀ ip name, r = some (ip, name) → ip ∈ s''.inodeHead ∧ ∀ l, last = some l → Names name l) ∧
      ∀ x, s''.refCount x =
        s.refCount x + if (r.map fun p => (s''.inodes p.1).inodeNo) = some x then 1 else 0 := by
  cases h with
  | null hm' =>
    refine ⟨rfl, (fun ip name he => nomatch he), fun x => ?_⟩
    have := (hm.trans hm').count
    rw [add_neg_cancel, add_zero] at this
    rw [this, Option.map_none, if_neg (fun he => nomatch he), add_zero]
  | @found _ ip p name hmem hp hm' hlast =>
    refine ⟨congrArg some hp, fun ip' name' he => ?_, fun x => ?_⟩
    · cases he
      exact ⟨hmem, hlast⟩
    · have := (hm.trans hm').count
      rw [add_sub_cancel] at this
      rw [this, Pi.add_apply, Pi.single_apply, Option.map_some, hp]
      simp only [Option.some.injEq, eq_comm]

/-- The loop of `namex`, with a reference to the inode at `cur`, follows the names of the rest of the
path. -/
theorem exec_namexLoop (ctx : Option Nat) (parent : Bool) (L : StoreLaws env.cache B)
    (hib : InodeBlocks B env.sb) (hnull : SyncsDirect env.cache B) (hv : Volume B env.sb c₀)
    (ht : DirTree B env.sb c₀) (names : List FileName) :
    ∀ {fuel : Nat} {cursor : List UInt8} (buf : Nat → UInt8) {s : Fs κ} {cur : Nat},
    cursor.length < fuel → 0 ∉ cursor → components cursor = names.map Subtype.val →
    NamexAt B env.sb c₀ s cur →
    ∃ r s', (namexLoop env ctx parent fuel cur cursor buf).exec s = (.ok r, s') ∧
      NamexResult B env.sb s (s.inodes cur).inodeNo (namexLast parent names)
        (namexTarget env.sb (B.view c₀) parent (s.inodes cur).inodeNo names) r s' := by
  induction names with
  | nil =>
    intro fuel cursor buf s cur hfuel hnul hcomp h
    obtain ⟨fuel, rfl⟩ := Nat.exists_eq_succ_of_ne_zero (Nat.ne_of_gt (Nat.zero_lt_of_lt hfuel))
    have helem : pathElem cursor = [] := by
      rw [components_eq hnul] at hcomp
      by_contra hne
      rw [if_neg hne] at hcomp
      cases hcomp
    have hskip : skipelem cursor buf = none := by rw [skipelem_eq, if_pos helem]
    rw [namexLoop, hskip]
    cases parent with
    | true =>
      obtain ⟨s', hput, hm⟩ := h.put ctx
      refine ⟨none, s', ?_, .null hm⟩
      rw [if_pos rfl, exec_bind_ok hput]
      rfl
    | false =>
      refine ⟨some (cur, buf), s, rfl, .found h.mem rfl ?_ fun l hl => by cases hl⟩
      rw [sub_self]
      exact h.ok.moved_same L hib (.refl h.ok.volume.settled) s.junk
  | cons name names ih =>
    intro fuel cursor buf s cur hfuel hnul hcomp h
    obtain ⟨fuel, rfl⟩ := Nat.exists_eq_succ_of_ne_zero (Nat.ne_of_gt (Nat.zero_lt_of_lt hfuel))
    rw [components_eq hnul, map_cons] at hcomp
    have helem : pathElem cursor ≠ [] := by
      intro hnil
      rw [if_pos hnil] at hcomp
      cases hcomp
    rw [if_neg helem] at hcomp
    obtain ⟨hname, hrest⟩ := List.cons.inj hcomp
    have hnames : Names (elemBuffer (pathElem cursor) buf) name := by
      rw [hname]
      exact names_elemBuffer name buf
    have hskip : skipelem cursor buf =
        some (pathRest cursor, elemBuffer (pathElem cursor) buf) := by
      rw [skipelem_eq, if_neg helem]
    have hrestnul : 0 ∉ pathRest cursor := fun hm => hnul
      ((dropWhile_sublist _).mem ((dropWhile_sublist _).mem
        ((dropWhile_sublist _).mem hm)))
    have hderef : deref (pathRest cursor) = 0 ↔ names = [] := by
      rw [deref_pathRest hnul, hrest, map_eq_nil_iff]
    generalize elemBuffer (pathElem cursor) buf = nm at hnames hskip
    have hr := h.ok.resident cur h.mem
    have hlocked : ((s.setLock cur (.initSem 0)).inodes cur).entry =
        entryAt env.sb (B.view c₀) (s.inodes cur).inodeNo := by
      rw [s.inodes_setLock]
      exact h.entry L hib hv
    rw [namexTarget_cons, namexLoop, hskip]
    rw [exec_bind_ok (exec_inodeLock hr h.rc), exec_bind_ok (exec_getInode cur _), hlocked]
    by_cases htype : (entryAt env.sb (B.view c₀) (s.inodes cur).inodeNo).type = INODE_DIRECTORY
    · rw [if_neg (not_not.mpr htype), if_pos htype]
      by_cases hlast : parent = true ∧ names = []
      · rw [if_pos ⟨hlast.1, hderef.mpr hlast.2⟩, if_pos hlast, exec_bind_ok h.unlock]
        refine ⟨_, s, rfl, .found h.mem rfl ?_ fun l hl => ?_⟩
        · rw [sub_self]
          exact h.ok.moved_same L hib (.refl h.ok.volume.settled) s.junk
        · rw [namexLast, if_pos hlast.1, hlast.2] at hl
          cases hl
          exact hnames
      · rw [if_neg (fun hc => hlast ⟨hc.1, hderef.mp hc.2⟩), if_neg hlast, hnames.inodeLookup_eq,
          namexLast_cons parent name hlast]
        have hd := ht.dir _ hr.inode htype
        have hfile : DirFile B s.cache (s.inodes cur).entry := by
          rw [h.entry L hib hv]
          exact hd.same L h.same
        obtain ⟨s1, s2, hlookup, hunlock, hm2⟩ := moved_lookup L hib h.ok h.mem h.rc hfile name
        obtain ⟨h2, hno2⟩ := h.moved L hib hv hm2
        rw [h.entry L hib hv, hd.lookup_same L h.same name] at hlookup
        rw [exec_bind_ok hlookup, dirMap]
        obtain ⟨s3, hput, hm3⟩ := h2.put ctx
        have hm := hm2.trans hm3
        rw [zero_add, hno2] at hm
        have htarget := fun next => ht.target _ name next hr.inode
        rw [lookupNo, if_pos htype, dirMap] at htarget
        cases hfind : dirFind (B.view c₀)
            (entryAt env.sb (B.view c₀) (s.inodes cur).inodeNo) name with
        | none =>
          refine ⟨none, s3, ?_, .null hm⟩
          simp only [Option.map_none]
          rw [exec_bind_ok hunlock, exec_bind_ok hput]
          rfl
        | some k =>
          rw [hfind] at htarget
          obtain ⟨hnext, hlinks⟩ := htarget _ rfl
          obtain ⟨ip, s4, hget, h4, hno4, hm4⟩ := NamexAt.get L hib hnull hv hm.ok
            (h.same.trans hm.same) (h.nonneg_put hm) hnext hlinks
          have hfuel' := length_pathRest_lt helem
          have hlt : (pathRest cursor).length < fuel := by omega
          obtain ⟨r, s5, hrec, hres⟩ := ih nm hlt hrestnul hrest h4
          simp only [Option.map_some, Option.bind_some]
          rw [exec_bind_ok hunlock, exec_bind_ok hput, exec_bind_ok hget]
          rw [hno4] at hres
          exact ⟨r, s5, hrec, hres.after (hm.trans hm4)⟩
    · obtain ⟨s', hput, hm⟩ := h.put ctx
      rw [if_pos htype, if_neg htype, exec_bind_ok h.unlock, exec_bind_ok hput]
      exact ⟨none, s', rfl, .null hm⟩

end

/-! ## `namex` -/

/-- The process has a working directory, and the volume a root and directories. -/
structure NamexReady (B : StoreView κ) (sb : SuperBlock) (s : Fs κ) : Prop where
  ok : FsOk B sb s
  tree : DirTree B sb s.cache
  counted : ∀ ip ∈ s.inodeHead, 0 ≤ (s.inodes ip).rc
  root : sb.HasInode ROOT_INODE_NO
  rootLinks : (entryAt sb (B.view s.cache) ROOT_INODE_NO).numLinks ≠ 0
  cwd : s.cwd ∈ s.inodeHead
  cwdRc : 0 < (s.inodes s.cwd).rc

def Fs.startNo (s : Fs κ) (path : List UInt8) : Nat :=
  if deref path = SLASH then ROOT_INODE_NO else (s.inodes s.cwd).inodeNo

theorem NamexReady.nonneg (h : NamexReady B env.sb s) (no : Nat) : 0 ≤ s.refCount no := by
  rw [Fs.refCount]
  cases hf : s.inodeHead.find? fun ip => (s.inodes ip).inodeNo = no with
  | none => exact Int.le_refl 0
  | some ip => exact h.counted ip (mem_of_find?_eq_some hf)

theorem NamexReady.exec_startInode (L : StoreLaws env.cache B) (hib : InodeBlocks B env.sb)
    (hnull : SyncsDirect env.cache B) (h : NamexReady B env.sb s) (path : List UInt8) :
    ∃ cur s', (startInode env path).exec s = (.ok cur, s') ∧ NamexAt B env.sb s.cache s' cur ∧
      (s'.inodes cur).inodeNo = s.startNo path ∧
      Moved B env.sb s (Pi.single (s.startNo path) 1) s' := by
  rw [startInode, Fs.startNo]
  by_cases hslash : deref path = SLASH
  · rw [if_pos hslash, if_pos hslash]
    exact NamexAt.get L hib hnull h.ok.volume h.ok (.refl h.ok.volume.settled) h.nonneg h.root
      h.rootLinks
  rw [if_neg hslash, if_neg hslash]
  have hm := h.ok.moved_addRef h.cwd 1
  have hrc : ((s.addRef s.cwd 1).inodes s.cwd).rc = (s.inodes s.cwd).rc + 1 := by
    simp [Fs.addRef]
  have hpos := h.cwdRc
  refine ⟨s.cwd, s.addRef s.cwd 1, rfl, ⟨hm.ok, hm.same, fun no => ?_, h.cwd, ?_, fun _ => ?_⟩,
    s.inodeNo_addRef s.cwd s.cwd 1, hm⟩
  · have hno := h.nonneg no
    rw [hm.count, Pi.add_apply, Pi.single_apply]
    split <;> omega
  · omega
  · omega

theorem exec_namex (ctx : Option Nat) (parent : Bool) (L : StoreLaws env.cache B)
    (hib : InodeBlocks B env.sb) (hnull : SyncsDirect env.cache B) (h : NamexReady B env.sb s)
    (buf : Nat → UInt8) (hnul : 0 ∉ path) {names : List FileName}
    (hcomp : components path = names.map Subtype.val) :
    ∃ r s', (namex env path parent buf ctx).exec s = (.ok r, s') ∧
      (r.map fun p => (s'.inodes p.1).inodeNo) =
        namexTarget env.sb (B.view s.cache) parent (s.startNo path) names ∧
      (∀ ip name, r = some (ip, name) → ip ∈ s'.inodeHead ∧
        ∀ last, namexLast parent names = some last → Names name last) ∧
      ∀ no, s'.refCount no =
        s.refCount no + if (r.map fun p => (s'.inodes p.1).inodeNo) = some no then 1 else 0 := by
  obtain ⟨cur, s1, hstart, hat, hno, hm⟩ := h.exec_startInode L hib hnull path
  obtain ⟨r, s', hloop, hres⟩ := exec_namexLoop ctx parent L hib hnull h.ok.volume h.tree names
    buf (Nat.lt_succ_self path.length) hnul hcomp hat
  rw [hno] at hres
  refine ⟨r, s', ?_, hres.spec hm⟩
  rw [namex, exec_bind_ok hstart]
  exact hloop

/-- Path resolution on the cache of `fs/cache.c`. -/
theorem kernel_exec_namex {sb : SuperBlock} (hl : sb.Layout) (ctx : Option Nat) (parent : Bool)
    {s : Fs Cache} (h : NamexReady (kernelView sb) sb s) (buf : Nat → UInt8) (hnul : 0 ∉ path)
    {names : List FileName} (hcomp : components path = names.map Subtype.val) :
    ∃ r s', (namex (.kernel sb) path parent buf ctx).exec s = (.ok r, s') ∧
      (r.map fun p => (s'.inodes p.1).inodeNo) =
        namexTarget sb s.cache.contents parent (s.startNo path) names := by
  have L : StoreLaws (FsEnv.kernel sb).cache (kernelView sb) := kernelLaws hl
  obtain ⟨r, s', hexec, hr, -⟩ := exec_namex ctx parent L (kernelBlocks hl) (kernel_syncsDirect sb) h
    buf hnul hcomp
  exact ⟨r, s', hexec, hr⟩

/-- `namex` in a well-formed tree returns the inode that the components of the path lead to, with
one more reference and every other count unchanged, and `NULL` only if a lookup fails or its inode is
no directory.  With `nameiparent` all components but the last are looked up; the inode that they lead
to has to be a directory, and the last component is in `name`. -/
theorem namex_resolves (ctx : Option Nat) (parent : Bool) (L : StoreLaws env.cache B)
    (hib : InodeBlocks B env.sb) (hnull : SyncsDirect env.cache B) (h : NamexReady B env.sb s)
    (buf : Nat → UInt8) {path : List UInt8} (hnul : 0 ∉ path) {names : List FileName}
    (hcomp : components path = names.map Subtype.val) :
    ∃ r s', (namex env path parent buf ctx).exec s = (.ok r, s') ∧
      (parent = false → (r.map fun p => (s'.inodes p.1).inodeNo) =
        resolve env.sb (B.view s.cache) (s.startNo path) names) ∧
      (parent = true → (r.map fun p => (s'.inodes p.1).inodeNo) = if names = [] then none
        else (resolve env.sb (B.view s.cache) (s.startNo path) names.dropLast).filter fun p =>
          (entryAt env.sb (B.view s.cache) p).type = INODE_DIRECTORY) ∧
      (∀ ip name, r = some (ip, name) → ip ∈ s'.inodeHead ∧
        (parent = true → ∀ last, names.getLast? = some last → Names name last)) ∧
      ∀ no, s'.refCount no =
        s.refCount no + if (r.map fun p => (s'.inodes p.1).inodeNo) = some no then 1 else 0 := by
  obtain ⟨r, s', hexec, hr, hfound, hcount⟩ := exec_namex ctx parent L hib hnull h buf hnul hcomp
  refine ⟨r, s', hexec, fun hp => ?_, fun hp => ?_, ?_, hcount⟩
  · rw [hr, hp]
    rfl
  · rw [hr, hp, namexTarget, if_pos rfl]
    split
    next hnil =>
      rw [hnil]
      rfl
    next hne => exact resolveParent_eq _ names hne _
  · intro ip name he
    obtain ⟨hmem, hlast⟩ := hfound ip name he
    refine ⟨hmem, fun hp last hl => hlast last ?_⟩
    rw [namexLast, if_pos hp, hl]

end

namespace MockCache

def rootDir : InodeEntry :=
  (((InodeEntry.setType Bytes.zero INODE_DIRECTORY).setNumLinks 1).setNumBytes 16).setAddr 0 BLOCK_START

def plainFile : InodeEntry := (InodeEntry.setType Bytes.zero INODE_REGULAR).setNumLinks 1

/-- A root directory whose entry `a` is the regular file with inode 2. -/
def treeCache : MockCache where
  blocks := fun b =>
    if b = 200 then rootDir.intoBlock (plainFile.intoBlock Bytes.zero 2) ROOT_INODE_NO
    else if b = BLOCK_START then Bytes.zero.splice 0 16 (DirEntry.new nameA.str 2).get
    else Bytes.zero
  used := fun b => b == BLOCK_START
  locked := fun _ => false

theorem entryAt_tree (no : Nat) (hno : superBlock.HasInode no) :
    entryAt superBlock (view.view treeCache) no =
      if no = ROOT_INODE_NO then rootDir else if no = 2 then plainFile else Bytes.zero := by
  have hlt : no < 1000 := hno.2
  by_cases hblock : superBlock.toBlockNo no = 200
  · have h8 : no < 8 := by
      simp only [SuperBlock.toBlockNo, superBlock, INODE_PER_BLOCK, INODE_ENTRY_BYTES,
        BLOCK_SIZE] at hblock
      omega
    have hmod : ∀ m < 8, no ≠ m → no % INODE_PER_BLOCK ≠ m % INODE_PER_BLOCK := by
      simp only [INODE_PER_BLOCK, INODE_ENTRY_BYTES, BLOCK_SIZE]
      omega
    rw [entryAt, hblock]
    show ofBlock (rootDir.intoBlock (plainFile.intoBlock Bytes.zero 2) ROOT_INODE_NO) no = _
    by_cases h1 : no = ROOT_INODE_NO
    · rw [if_pos h1, h1, ofBlock_intoBlock]
    · rw [if_neg h1, ofBlock_intoBlock_of_ne _ _ (hmod _ (by decide) h1)]
      by_cases h2 : no = 2
      · rw [if_pos h2, h2, ofBlock_intoBlock]
      · rw [if_neg h2, ofBlock_intoBlock_of_ne _ _ (hmod _ (by decide) h2), ofBlock_zero]
  · have hb : superBlock.toBlockNo no ≠ BLOCK_START := by
      simp only [SuperBlock.toBlockNo, superBlock, INODE_PER_BLOCK, INODE_ENTRY_BYTES, BLOCK_SIZE,
        BLOCK_START]
      omega
    have hzero : view.view treeCache (superBlock.toBlockNo no) = Bytes.zero := by
      show (if _ then _ else _) = _
      rw [if_neg hblock, if_neg hb]
    have h1 : no ≠ ROOT_INODE_NO := by
      rintro rfl
      exact hblock rfl
    have h2 : no ≠ 2 := by
      rintro rfl
      exact hblock rfl
    rw [entryAt, hzero, ofBlock_zero, if_neg h1, if_neg h2]

theorem refs_tree {no : Nat} (hno : superBlock.HasInode no) :
    refs (view.view treeCache) (entryAt superBlock (view.view treeCache) no) =
      if no = ROOT_INODE_NO then [BLOCK_START] else [] := by
  rw [entryAt_tree _ hno]
  split
  · decide +kernel
  · split
    · decide +kernel
    · exact refs_eq_nil (fun _ _ => Bytes.readLE_zero _ _) (Bytes.readLE_zero _ _)

theorem volume_of_refs {c : MockCache} (owner : Nat) (hlocked : ∀ b, c.locked b = false)
    (hused : c.used BLOCK_START = true)
    (hrefs : ∀ no, superBlock.HasInode no →
      refs (view.view c) (entryAt superBlock (view.view c) no) =
        if no = owner then [BLOCK_START] else []) : Volume view superBlock c := by
  have hidle : ∀ a, view.held c a = none := fun a => if_neg (by rw [hlocked]; decide)
  exact .of_owner ⟨trivial, hidle, fun _ _ _ => trivial⟩ (nodup_singleton _)
    (forall_mem_singleton.mpr (.inl hused)) (forall_mem_singleton.mpr
      (show ¬ (BLOCK_START < BLOCK_START ∨ NUM_BLOCKS ≤ BLOCK_START) by decide)) hrefs

theorem volume_tree : Volume view superBlock treeCache :=
  volume_of_refs ROOT_INODE_NO (fun _ => rfl) rfl fun _ => refs_tree

theorem dirFile_tree : DirFile view treeCache rootDir := by
  have hfile := volume_tree.file ROOT_INODE_NO ⟨by decide, by decide⟩
  rw [entryAt_tree _ ⟨by decide, by decide⟩, if_pos rfl] at hfile
  have hsize : rootDir.numBytes = 16 := by decide +kernel
  refine ⟨volume_tree.settled, hfile, by decide +kernel, by decide +kernel, by decide +kernel,
    fun i hi => ?_⟩
  have hi0 : i = 0 := by
    rw [hsize, BLOCK_SIZE] at hi
    omega
  rw [hi0]
  decide +kernel

theorem root_of_type {no : Nat} (hno : superBlock.HasInode no)
    (htype : (entryAt superBlock (view.view treeCache) no).type = INODE_DIRECTORY) :
    no = ROOT_INODE_NO := by
  by_contra h1
  rw [entryAt_tree _ hno, if_neg h1] at htype
  split at htype
  · exact absurd htype (by decide +kernel)
  · exact absurd htype (by decide +kernel)

theorem dirTree_tree : DirTree view superBlock treeCache := by
  have hroot := entryAt_tree ROOT_INODE_NO ⟨by decide, by decide⟩
  rw [if_pos rfl] at hroot
  refine ⟨fun no hno htype => ?_, fun no name next hno hlookup => ?_⟩
  · rw [root_of_type hno htype, hroot]
    exact dirFile_tree
  rw [lookupNo] at hlookup
  split at hlookup
  next htype =>
    rw [root_of_type hno htype, hroot, dirMap, Option.map_eq_some_iff] at hlookup
    obtain ⟨k, hfind, hnext⟩ := hlookup
    have hsize : dirSize rootDir = 1 := by decide +kernel
    have hk := (dirFind_eq_some hfind).1
    have hk0 : k = 0 := by omega
    have h2 : next = 2 := by
      rw [← hnext, hk0]
      decide +kernel
    rw [h2, entryAt_tree _ ⟨by decide, by decide⟩]
    exact ⟨⟨by decide, by decide⟩, by decide +kernel⟩
  next => cases hlookup

/-- The root is in memory, as the working directory. -/
def treeStart : Fs MockCache :=
  { start with
    cache := treeCache
    inodes := fun _ => { initInode with
      inodeNo := ROOT_INODE_NO
      rc := 1
      valid := true
      entry := rootDir } }

theorem treeStart_ready : NamexReady view superBlock treeStart := by
  have hroot := entryAt_tree ROOT_INODE_NO ⟨by decide, by decide⟩
  rw [if_pos rfl] at hroot
  refine ⟨⟨volume_tree, fun ip hip => ?_, nodup_singleton _, fun ip hip => ?_⟩, dirTree_tree,
    fun _ _ => Int.one_nonneg, ⟨by decide, by decide⟩, ?_, mem_singleton_self 0, by decide⟩
  · have hno : superBlock.HasInode ROOT_INODE_NO := ⟨by decide, by decide⟩
    exact ⟨rfl, hno, rfl, hroot.symm⟩
  · rw [mem_singleton.mp hip]
    decide
  · show (entryAt superBlock (view.view treeCache) ROOT_INODE_NO).numLinks ≠ 0
    rw [hroot]
    decide +kernel

/-- The path `//a/` leads to the file. -/
theorem namex_resolves_mock :
    ∃ ip name s', (namex env [SLASH, SLASH, 97, SLASH] false (fun _ => 0) none).exec treeStart =
        (.ok (some (ip, name)), s') ∧
      (s'.inodes ip).inodeNo = 2 ∧ s'.refCount 2 = 1 ∧ s'.refCount ROOT_INODE_NO = 1 := by
  have L : StoreLaws env.cache view := laws
  obtain ⟨r, s', hexec, hr, -, -, hcount⟩ := namex_resolves (s := treeStart) none false L
    inodeBlocks (L.syncsDirect id) treeStart_ready (fun _ => 0)
    (show 0 ∉ [SLASH, SLASH, 97, SLASH] by decide)
    (show components _ = [nameA].map Subtype.val by decide)
  have hresolve : resolve superBlock (view.view treeCache) ROOT_INODE_NO [nameA] = some 2 := by
    decide +kernel
  have hr2 := (hr rfl).trans hresolve
  obtain ⟨⟨ip, name⟩, rfl, hno⟩ := Option.map_eq_some_iff.mp hr2
  refine ⟨ip, name, s', hexec, hno, ?_, ?_⟩
  · rw [hcount 2, hr2]
    decide
  · rw [hcount ROOT_INODE_NO, hr2]
    decide

/-- All components of `/a/b` but the last lead to the regular file 2, but with `nameiparent` the
result is `NULL`. -/
theorem nameiparent_null_of_file :
    resolve superBlock (view.view treeCache) ROOT_INODE_NO [nameA] = some 2 ∧
      ((namex env [SLASH, 97, SLASH, 98] true (fun _ => 0) none).exec treeStart).1 = .ok none := by
  refine ⟨by decide +kernel, ?_⟩
  have hnull : ((namex env [SLASH, 97, SLASH, 98] true (fun _ => 0) none).exec
      treeStart).1.toOption.map Option.isNone = some true := by decide +kernel
  generalize ((namex env [SLASH, 97, SLASH, 98] true (fun _ => 0) none).exec treeStart).1 = r
    at hnull ⊢
  rcases r with e | _ | p
  · cases hnull
  · rfl
  · cases hnull

end MockCache

end OsKernel
