import OsKernel.Fs.Discipline

/-!
# Crashes of the file system

A sequence of file-system operations runs on a device with an empty log, and the
machine stops at some device write: of an operation, of `init_filesystem`, or of an
`init_bcache` after an earlier crash.  As long as `inode_get` only loads inodes from
settled blocks, a complete `init_bcache` brings back the device as one of the finished
transactions left it.  `create` does not keep to that: `inode_alloc` changes the inode
block without logging it, and the `inode_get` that follows writes the changed block to
its place.
-/

namespace OsKernel

open Prog Cache
open RedoLog (apply)

section

variable {sb : SuperBlock} {d₀ : Nat → Data} {s : Fs Cache}

theorem OpInv.boot (h0 : (LogHeader.ofData (d₀ sb.logStart)).numBlocks = 0) :
    OpInv sb d₀ none [] (rebooted sb (powerOn d₀)) := by
  have hnum : (rebooted sb (powerOn d₀)).header.numBlocks = 0 := h0
  have hnil : (rebooted sb (powerOn d₀)).header.logged = [] := LogHeader.logged_eq_nil h0
  constructor
  case sem => exact .init (Int.le_refl 0)
  case idle => rfl
  case count => rfl
  case room =>
    rw [hnum, Nat.zero_add]
    exact Nat.le_refl _
  case held => exact List.forall_mem_nil _
  case distinct => exact List.nodup_nil
  case disk => rfl
  case history => exact .init hnil
  all_goals rw [hnil]
  · exact BlockList.WF.nil _ _
  · exact List.nodup_nil
  · exact List.forall_mem_nil _
  · exact List.forall_mem_nil _

theorem initFilesystem_triple :
    Triple (Fs.PowerOn sb d₀) (initFilesystem sb) (fun _ => FsAt sb d₀ none []) (FsStop sb d₀) := by
  refine Triple.bind (Q := fun _ => FsAt sb d₀ none []) ?_ fun _ => initInodes_stays
  rintro m ⟨h0, hm, -⟩
  rw [onCache, exec_zoom, hm, exec_initBcache_empty (s := powerOn d₀) h0]
  exact fun _ _ => OpInv.boot h0

theorem FsAt.of_reach (h : Fs.Reach sb d₀ s) : FsAt sb d₀ none [] s := by
  refine Runs.Reach.invariant (I := FsAt sb d₀ none []) ?_ ?_ h
  · rintro s ⟨m, root, hm, hexec⟩
    have hpost := initFilesystem_triple m hm
    rw [hexec] at hpost
    exact hpost
  intro s op s' hs _ hstep
  have hpost := op.run_stays s hs
  unfold Fs.step at hstep
  split at hstep
  next he =>
    cases hstep
    rw [he] at hpost
    exact hpost
  next => cases hstep

theorem FsStop.of_post {α : Type} {r : Except Halt α × Fs Cache} {H : List Nat}
    (h : Post (fun _ => FsAt sb d₀ none H) (FsStop sb d₀) r) : FsStop sb d₀ r.2 := by
  match r, h with
  | (.ok _, _), h => exact FsAt.stop h
  | (.error _, _), h => exact h

theorem FsStop.of_ran (h : Fs.Ran sb d₀ s) : FsStop sb d₀ s := by
  cases h with
  | boot hm => exact .of_post (initFilesystem_triple _ hm)
  | op o hs => exact .of_post (o.run_stays _ (.of_reach hs))

end

/-! ## A small image -/

/-- An image with the layout of `mkfs`: the root directory in block 92 holds `.`, `..` and
an empty file `f`, inode 2. -/
def smallImage : Nat → Data := fun b =>
  if b = 65 then
    let root := (((InodeEntry.setType Bytes.zero INODE_DIRECTORY).setNumLinks 1).setNumBytes
      48).setAddr 0 92
    let file := (InodeEntry.setType Bytes.zero INODE_REGULAR).setNumLinks 1
    InodeEntry.intoBlock file (InodeEntry.intoBlock root Bytes.zero 1) 2
  else if b = 91 then
    -- the first 93 blocks are in use
    fun i => if i.val < 11 then 255 else if i.val = 11 then 31 else 0
  else if b = 92 then
    ((Bytes.splice Bytes.zero 0 16 (DirEntry.new (cstr [46]) 1).get).splice 16 16
      (DirEntry.new (cstr [46, 46]) 1).get).splice 32 16 (DirEntry.new (cstr [102]) 2).get
  else Bytes.zero

/-- A machine that is switched on before the device `d`. -/
def switchedOn (d : Nat → Data) : Fs Cache where
  cache := powerOn d
  inodes := fun _ => initInode
  inodeHead := []
  inodeBrk := 0
  cwd := 0
  junk := fun _ _ => 0
  loads := []

theorem switchedOn_powerOn {sb : SuperBlock} {d : Nat → Data}
    (h : (LogHeader.ofData (d sb.logStart)).numBlocks = 0) : Fs.PowerOn sb d (switchedOn d) :=
  ⟨h, rfl, rfl⟩

/-- The small image after `init_filesystem`. -/
def smallBooted : Fs Cache := ((initFilesystem Mkfs.superBlock).exec (switchedOn smallImage)).2

theorem smallBooted_init : Fs.Init Mkfs.superBlock smallImage smallBooted := by
  have hok : ((initFilesystem Mkfs.superBlock).exec (switchedOn smallImage)).1 = .ok (some 0) := by
    decide +kernel
  refine ⟨switchedOn smallImage, some 0, switchedOn_powerOn LogHeader.numBlocks_ofData_zero, ?_⟩
  rw [← hok]
  rfl

/-! ## Crashes -/

/-- The write-ahead discipline of the file system.  Let every `inode_get` that loads an
inode find the inode block settled, in the cache as on the device, and let every
`cache_sync` with a context be of a block outside the log.  Whatever a crash leaves on the
device, a complete `init_bcache` returns and brings back, outside the log, the device as it
was at the start or when one of the transactions had been checkpointed; and outside the log
no block has changed on the device except while the log on the device named it. -/
theorem fs_write_ahead {sb : SuperBlock} {d₀ : Nat → Data} {s : Fs Cache} (h : Fs.Ran sb d₀ s)
    (hset : s.Settled) (hok : s.cache.Clean sb) :
    (∀ m : Cache, DeviceCrash sb d₀ s.cache.writes m.disk →
      ∃ m', (initBcache sb).exec m = (.ok (), m') ∧
        ∃ n ∈ 0 :: s.cache.commits, ∀ b, ¬ (logLayout sb).Area OP_MAX_NUM_BLOCKS b →
          m'.disk b = apply d₀ (s.cache.writes.take n) b) ∧
    (logLayout sb).Ahead OP_MAX_NUM_BLOCKS d₀ s.cache.writes := by
  obtain ⟨hsafe, hahead⟩ := FsStop.of_ran h hset hok
  refine ⟨fun m hd => ?_, hahead⟩
  have hred := hd.redo fun d hd => (hsafe d hd).1
  obtain ⟨hout, n, hn, hrec⟩ := hsafe _ hred
  obtain ⟨m', hexec, -, hm'⟩ := initBcache_spec sb m hout
  refine ⟨m', hexec, n, hn, fun b hb => ?_⟩
  rw [hm']
  exact hrec b hb

/-- Opening `f` and writing five bytes to it; the machine stops after the first of the
three home blocks is written. -/
theorem fs_write_ahead_file_write :
    ∃ s, Fs.Ran Mkfs.superBlock smallImage s ∧ s.Settled ∧ s.cache.Clean Mkfs.superBlock ∧
      s.cache.syncs = [91, 93, 65, 93, 65] ∧
      ∃ m', (initBcache Mkfs.superBlock).exec
          (powerOn (apply smallImage (s.cache.writes.take 9))) = (.ok (), m') ∧
        ∃ n ∈ 0 :: s.cache.commits, ∀ b,
          ¬ (logLayout Mkfs.superBlock).Area OP_MAX_NUM_BLOCKS b →
            m'.disk b = apply smallImage (s.cache.writes.take n) b := by
  obtain ⟨s, hs, ht⟩ := Runs.Reach.of_execTest smallBooted_init
    (show Runs.execTest (Fs.step Mkfs.superBlock) smallBooted [.openat [47, 102] false true]
      (fun s =>
        let s' := (((FsOp.fileWrite ⟨true, 1, 0⟩ (fun _ => 7) 5).run (.kernel Mkfs.superBlock)).exec s).2
        s'.Settled ∧ s'.cache.Clean Mkfs.superBlock ∧
          s'.cache.syncs = [91, 93, 65, 93, 65]) = true by
      decide +kernel)
  obtain ⟨hset, hclean, hsyncs⟩ := of_decide_eq_true ht
  have hran := Fs.Ran.op (FsOp.fileWrite ⟨true, 1, 0⟩ (fun _ => 7) 5) hs
  exact ⟨_, hran, hset, hclean, hsyncs,
    (fs_write_ahead hran hset hclean).1 _ (.writes (List.take_prefix 9 _))⟩

/-- `create("/a")` writes the inode block with the new inode before the transaction is
logged.  A crash right after that leaves, and recovery keeps, an inode that is allocated
but has no links, as at no commit. -/
theorem fs_write_ahead_create_fails : ∃ s m', Fs.Ran Mkfs.superBlock smallImage s ∧
      (initBcache Mkfs.superBlock).exec
        (powerOn (apply smallImage (s.cache.writes.take 2))) = (.ok (), m') ∧
      ¬ (logLayout Mkfs.superBlock).Area OP_MAX_NUM_BLOCKS 65 ∧
      ∀ n ∈ 0 :: s.cache.commits, m'.disk 65 ≠ apply smallImage (s.cache.writes.take n) 65 := by
  have hran := Fs.Ran.op (.openat [47, 97] true true) (.init smallBooted_init)
  generalize hs : (((FsOp.openat [47, 97] true true).run (.kernel Mkfs.superBlock)).exec smallBooted).2 = s
    at hran
  have hempty : (LogHeader.ofData ((powerOn (apply smallImage (s.cache.writes.take 2))).disk
      Mkfs.superBlock.logStart)).numBlocks = 0 := by
    subst hs
    decide +kernel
  refine ⟨s, _, hran, exec_initBcache_empty hempty, by decide, ?_⟩
  subst hs
  decide +kernel

end OsKernel
