import OsKernel.Fs.Sysfile

/-!
# The text of the inode layer

The functions that read and write the blocks and the entry of an inode are built from the calls of
the cache and a few actions on the inode.  `Text` describes them: which blocks are held, and with
which contexts blocks are synced, allocated and freed.  What holds of the actions and of their
sequence then holds of every function, by induction on its text.
-/

namespace OsKernel

variable {κ : Type}

/-- `x` starts with the blocks `H` held and ends with `H' a` held, where `a` is its result; `ok`
holds of the contexts that it syncs, allocates and frees with. -/
inductive Text (env : FsEnv κ) (ok : Option Nat → Prop) :
    List Nat → {α : Type} → FsM κ α → (α → List Nat) → Prop where
  | pure {H α} (a : α) : Text env ok H (Pure.pure a) fun _ => H
  | throw {H α} {H' : α → List Nat} (e : Halt) : Text env ok H (throw e) H'
  | bind {H α β} {x : FsM κ α} {f : α → FsM κ β} {H₁ H'} (hx : Text env ok H x H₁)
      (hf : ∀ a, Text env ok (H₁ a) (f a) H') : Text env ok H (x >>= f) H'
  | ite {H α} {c : Prop} [Decidable c] {x y : FsM κ α} {H'} (hx : c → Text env ok H x H')
      (hy : ¬ c → Text env ok H y H') : Text env ok H (if c then x else y) H'
  | getInode {H} (ip : Nat) : Text env ok H (getInode ip) fun _ => H
  | setInode {H} (ip : Nat) {f : Inode → Inode} (hrc : ∀ i, (f i).rc = i.rc)
      (hlock : ∀ i, (f i).lock = i.lock) : Text env ok H (setInode ip f) fun _ => H
  | uninit {H} : Text env ok H uninit fun _ => H
  | acquire {H} (b : Nat) : Text env ok H (acquire env b) fun a => a :: H
  | release {H} (a : Nat) : Text env ok (a :: H) (release env a) fun _ => H
  | blockData {H} (a : Nat) : Text env ok H (blockData env a) fun _ => H
  | setBlockData {H} (a : Nat) (g : Data → Data) :
      Text env ok (a :: H) (setBlockData env a g) fun _ => a :: H
  | sync {H ctx} (h : ok ctx) (a : Nat) : Text env ok (a :: H) (sync env ctx a) fun _ => a :: H
  | alloc {H ctx} (h : ok ctx) : Text env ok H (onCache (env.cache.alloc ctx)) fun _ => H
  | free {H ctx} (h : ok ctx) (b : Nat) : Text env ok H (onCache (env.cache.free ctx b)) fun _ => H
  | consoleRead {H} (ip n : Nat) : Text env ok H (consoleRead env ip n) fun _ => H
  | consoleWrite {H} (ip n : Nat) : Text env ok H (consoleWrite env ip n) fun _ => H

namespace Text

variable {env : FsEnv κ} {ok : Option Nat → Prop} {H : List Nat} {ctx : Option Nat}

theorem assert (c : Prop) [Decidable c] : Text env ok H (assert c) fun _ => H :=
  .ite (fun _ => .pure _) fun _ => .throw _

theorem setEntry (ip : Nat) (f : InodeEntry → InodeEntry) :
    Text env ok H (setEntry ip f) fun _ => H := .setInode ip (fun _ => rfl) fun _ => rfl

theorem forM {ι : Type} {g : ι → FsM κ PUnit} (hg : ∀ i, Text env ok H (g i) fun _ => H)
    (l : List ι) : Text env ok H (l.forM g) fun _ => H := by
  induction l with
  | nil => exact .pure _
  | cons i l ih => exact .bind (hg i) fun _ => ih

/-! ## Entries -/

/-- The entry is copied between the inode and a block that is held. -/
theorem copyEntry (ip block : Nat) (doWrite : Bool) :
    Text env ok (block :: H) (copyEntry env ip block doWrite) fun _ => block :: H := by
  refine .bind (.getInode ip) fun i => .ite (fun _ => .setBlockData block _) fun _ => ?_
  exact .bind (.blockData block) fun _ => .setInode ip (fun _ => rfl) fun _ => rfl

/-- `inode_sync` acquires the block of the entry, and releases it. -/
theorem inodeSync (h : ok ctx) (ip : Nat) (doWrite : Bool) :
    Text env ok H (inodeSync env ctx ip doWrite) fun _ => H := by
  refine .bind (.getInode ip) fun i => .bind (.assert _) fun _ => ?_
  refine .bind (.acquire _) fun block => .bind (.copyEntry ip block doWrite) fun _ => ?_
  exact .bind (.sync h block) fun _ => .release block

/-- The scan of `inode_alloc` holds one block at a time. -/
theorem inodeAlloc (type : Nat) : Text env ok H (inodeAlloc env type) fun _ => H := by
  refine .bind (.assert _) fun _ => ?_
  generalize List.map _ _ = l
  induction l with
  | nil => exact .throw _
  | cons no rest ih =>
    refine .bind (.acquire _) fun block => .bind (.blockData block) fun d => ?_
    refine .ite (fun _ => ?_) fun _ => .bind (.release block) fun _ => ih
    refine .bind (.setBlockData block _) fun _ => ?_
    exact .bind (.release block) fun _ => .pure no

/-- `inode_clear` frees the blocks of the inode, and syncs its entry. -/
theorem inodeClear (h : ok ctx) (ip : Nat) : Text env ok H (inodeClear env ctx ip) fun _ => H := by
  have hdirect : ∀ i, Text env ok H (clearDirect env ctx ip i) fun _ => H := fun i => by
    refine .bind (.getInode ip) fun e => .ite (fun _ => ?_) fun _ => .pure _
    exact .bind (.free h _) fun _ => .setEntry ip _
  have hentry : ∀ ib i, Text env ok (ib :: H) (clearIndirect env ctx ib i) fun _ => ib :: H :=
    fun ib i => by
      refine .bind (.blockData ib) fun d => .ite (fun _ => ?_) fun _ => .pure _
      exact .bind (.free h _) fun _ => .setBlockData ib _
  have hindirects : Text env ok H (clearIndirects env ctx ip) fun _ => H := by
    refine .bind (.getInode ip) fun i => .ite (fun _ => ?_) fun _ => .pure _
    refine .bind (.acquire _) fun ib => .bind (.forM (hentry ib) _) fun _ => ?_
    refine .bind (.release ib) fun _ => .bind (.free h _) fun _ => ?_
    exact .setEntry ip _
  refine .bind (.forM hdirect _) fun _ => .bind hindirects fun _ => ?_
  exact .bind (.setEntry ip _) fun _ => .inodeSync h ip true

/-! ## Contents -/

/-- The branch of `inode_map` for the indirect table. -/
theorem mapIndirect (h : ctx ≠ none → ok ctx) (ip idx : Nat) :
    Text env ok H (mapIndirect env ctx ip idx) fun _ => H := by
  refine .bind (.getInode ip) fun i => .bind (.acquire _) fun indBlk => ?_
  refine .ite (fun _ => .bind (.blockData indBlk) fun d => ?_) fun _ => .throw _
  refine .ite (fun hnew => ?_) fun _ => .bind (.release indBlk) fun _ => .pure _
  refine .bind (.alloc (h hnew.2)) fun blkNo => .bind (.setBlockData indBlk _) fun _ => ?_
  refine .bind (.sync (h hnew.2) indBlk) fun _ => ?_
  exact .bind (.release indBlk) fun _ => .pure blkNo

/-- `inode_map` uses the context only to allocate. -/
theorem inodeMap (h : ctx ≠ none → ok ctx) (ip offset : Nat) :
    Text env ok H (inodeMap env ctx ip offset) fun _ => H := by
  refine .bind (.getInode ip) fun i => .ite (fun _ => ?_) fun _ => ?_
  · refine .ite (fun hnew => ?_) fun _ => .pure _
    refine .bind (.alloc (h hnew.2)) fun blkNo => .bind (.setEntry ip _) fun _ => ?_
    exact .bind (.inodeSync (h hnew.2) ip true) fun _ => .pure blkNo
  refine .ite (fun _ => ?_) fun _ => .mapIndirect h ip _
  refine .ite (fun _ => .pure 0) fun hnew => ?_
  refine .bind (.alloc (h hnew)) fun blkNo => .bind (.setEntry ip _) fun _ => ?_
  refine .bind (.getInode ip) fun i => .bind (.acquire _) fun indBlk => ?_
  refine .bind (.setBlockData indBlk _) fun _ => .bind (.sync (h hnew) indBlk) fun _ => ?_
  exact .bind (.release indBlk) fun _ => .mapIndirect h ip _

/-- A turn of the loop of `inode_read` acquires the block that it copies from, and releases it. -/
theorem readLoop (ip offset count fuel : Nat) : ∀ (dest : Nat → UInt8) (readBytes : Nat),
    Text env ok H (readLoop env ip offset count fuel dest readBytes) fun _ => H := by
  induction fuel with
  | zero => exact fun dest readBytes => .pure _
  | succ fuel ih =>
    intro dest readBytes
    refine .ite (fun _ => .bind (.inodeMap (fun hc => absurd rfl hc) ip _) fun blkNo => ?_)
      fun _ => .pure _
    refine .ite (fun _ => .pure _) fun _ => ?_
    refine .bind (.acquire _) fun blk => .bind (.blockData blk) fun d => ?_
    exact .bind (.release blk) fun _ => ih _ _

theorem inodeRead (ip : Nat) (dest : Nat → UInt8) (offset count : Nat) :
    Text env ok H (inodeRead env ip dest offset count) fun _ => H := by
  refine .bind (.getInode ip) fun i => .ite (fun _ => ?_) fun _ => ?_
  · exact .bind (.consoleRead ip count) fun n => .pure (dest, n)
  · refine .bind (.assert _) fun _ => .bind (.assert _) fun _ => .bind (.assert _) fun _ => ?_
    exact .readLoop ip offset _ _ dest 0

/-- A turn of the loop of `inode_write` syncs the block that it has written. -/
theorem writeLoop (h : ok ctx) (ip : Nat) (src : Nat → UInt8) (offset count fuel : Nat) :
    ∀ written, Text env ok H (writeLoop env ctx ip src offset count fuel written) fun _ => H := by
  induction fuel with
  | zero => exact fun written => .pure written
  | succ fuel ih =>
    intro written
    refine .ite (fun _ => .bind (.inodeMap (fun _ => h) ip _) fun blkNo => ?_) fun _ => .pure _
    refine .bind (.assert _) fun _ => .bind (.acquire _) fun blk => ?_
    refine .bind (.setBlockData blk _) fun _ => .bind (.sync h blk) fun _ => ?_
    exact .bind (.release blk) fun _ => ih _

theorem inodeWrite (h : ok ctx) (ip : Nat) (src : Nat → UInt8) (offset count : Nat) :
    Text env ok H (inodeWrite env ctx ip src offset count) fun _ => H := by
  refine .bind (.getInode ip) fun i => .ite (fun _ => .consoleWrite ip count) fun _ => ?_
  refine .bind (.assert _) fun _ => .bind (.assert _) fun _ => .bind (.assert _) fun _ => ?_
  refine .bind (.writeLoop h ip src offset count count 0) fun written => ?_
  refine .bind (.getInode ip) fun i => .ite (fun _ => ?_) fun _ => .pure written
  refine .bind (.setEntry ip _) fun _ => ?_
  exact .bind (.inodeSync h ip true) fun _ => .pure written

/-! ## Directories -/

/-- `inode_lookup` only reads. -/
theorem inodeLookup (ip : Nat) (name : Nat → UInt8) :
    Text env ok H (inodeLookup env ip name) fun _ => H := by
  refine .bind (.getInode ip) fun i => .bind (.assert _) fun _ => ?_
  generalize List.map _ _ = l
  induction l with
  | nil => exact .pure none
  | cons off rest ih =>
    refine .bind .uninit fun junk => .bind (.inodeRead ip junk off _) fun r => ?_
    exact .ite (fun _ => .pure _) fun _ => ih

/-- `inode_insert` writes one entry of the directory. -/
theorem inodeInsert (h : ok ctx) (ip : Nat) (name : Nat → UInt8) (no : Nat) :
    Text env ok H (inodeInsert env ctx ip name no) fun _ => H := by
  refine .bind (.getInode ip) fun i => .bind (.assert _) fun _ => ?_
  refine .bind (.inodeLookup ip name) fun found => ?_
  cases found with
  | some r => exact .pure _
  | none =>
    refine .bind (.getInode ip) fun i => .bind (.inodeMap (fun _ => h) ip _) fun blockNo => ?_
    refine .bind (.assert _) fun _ => .bind (.acquire _) fun blk => ?_
    refine .bind (.setBlockData blk _) fun _ => .bind (.sync h blk) fun _ => ?_
    refine .bind (.release blk) fun _ => .bind (.setEntry ip _) fun _ => ?_
    exact .bind (.inodeSync h ip true) fun _ => .pure _

theorem nonemptyDir (ip : Nat) : Text env ok H (nonemptyDir env ip) fun _ => H := by
  have hfrom : ∀ l, Text env ok H (isdiremptyFrom env ip l) fun _ => H := by
    intro l
    induction l with
    | nil => exact .pure true
    | cons off rest ih =>
      refine .bind .uninit fun de => .bind (.inodeRead ip de off _) fun r => ?_
      exact .bind (.assert _) fun _ => .ite (fun _ => .pure false) fun _ => ih
  refine .bind (.getInode ip) fun i => .ite (fun _ => ?_) fun _ => .pure false
  exact .bind (.bind (.getInode ip) fun i => hfrom _) fun empty => .pure _

/-- The entries `.` and `..` of a new directory. -/
theorem createDots (h : ok ctx) (type parent ip : Nat) :
    Text env ok H (createDots env ctx type parent ip) fun _ => H := by
  refine .ite (fun _ => ?_) fun _ => .pure _
  refine .bind (.setEntry parent _) fun _ => .bind (.inodeSync h parent true) fun _ => ?_
  refine .bind (.getInode ip) fun i => .bind (.inodeInsert h ip _ _) fun _ => ?_
  refine .bind (.getInode parent) fun p => .bind (.inodeInsert h ip _ _) fun _ => ?_
  exact .pure _

/-- The link that `..` of a removed directory was. -/
theorem dropParentLink (h : ok ctx) (type parent : Nat) :
    Text env ok H (dropParentLink env ctx type parent) fun _ => H := by
  refine .ite (fun _ => ?_) fun _ => .pure _
  exact .bind (.setEntry parent _) fun _ => .inodeSync h parent true

end Text

end OsKernel
