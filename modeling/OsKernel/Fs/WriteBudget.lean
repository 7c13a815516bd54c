import OsKernel.Fs.FileContents
import OsKernel.Fs.Operations

/-!
# What a write passes to the log

`file_write` splits a write into operations of at most `maxbytes` bytes.  Such an operation passes to
`cache_sync` the data blocks, a bitmap block for each block that it allocates, the indirect block and
the inode block: what it passes is metered by the log.
-/

namespace OsKernel

open Prog

structure DiskFull {κ : Type} (B : StoreView κ) (O : OpView κ) (s₀ c : κ) : Prop where
  room : B.room c = 0
  running : O.running s₀ c
  log : (O.passed c).card + 2 ≤ OP_MAX_NUM_BLOCKS

variable {κ : Type} {env : FsEnv κ} {B : StoreView κ} {O : OpView κ} {c : κ} {e : InodeEntry} {P : Prop}

/-- The meter of the operation that has begun in `s₀`. -/
def OpLaws.meter {bc : BlockCache κ} (W : OpLaws bc B O) (s₀ : κ) :
    Meter bc B stackCtx OP_MAX_NUM_BLOCKS where
  In s T := O.running s₀ s ∧ O.passed s = T
  stop _ := False
  full := DiskFull B O s₀
  acquire := by
    rintro s _ b ⟨hrun, rfl⟩ hok hb hown hfree
    obtain ⟨a, s', hx, h⟩ := W.acquire hrun hok hb hown hfree
    exact .of_ok hx h
  setData := by
    rintro s _ a b f ⟨hrun, rfl⟩ hok ha hown
    obtain ⟨s', hx, h⟩ := W.setData f hrun hok ha hown
    exact .of_ok hx h
  release := by
    rintro s _ a b ⟨hrun, rfl⟩ hok ha hown
    obtain ⟨s', hx, h⟩ := W.release hrun hok ha hown
    exact .of_ok hx h
  sync := by
    rintro s _ a b ⟨hrun, rfl⟩ hok ha hown hcard
    obtain ⟨s', hx, h⟩ := W.sync hrun hok ha hown hcard
    exact .of_ok hx h
  alloc := by
    rintro s _ ⟨hrun, rfl⟩ hok hh hcard
    refine (W.alloc hrun hok hh hcard).imp ?_ ?_
    · rintro b s' ⟨hal, hrun', m, hpassed⟩
      exact ⟨hal, m, hrun', hpassed⟩
    · rintro s' ⟨hroom, hroom', hrun', hpassed⟩
      exact .inr ⟨hroom, hroom', hrun', by rwa [hpassed]⟩

theorem demand_le {p k : Nat} (hk : k ≤ maxbytes) : demand p k ≤ 7 := by
  have hmax : maxbytes = 1536 := rfl
  unfold demand
  simp only [BLOCK_SIZE]
  split_ifs <;> omega

theorem op_inodeWrite {s0 : κ} (s : Fs κ) (ip : Nat) (src : Nat → UInt8) (W : OpLaws env.cache B O)
    (L : StoreLaws env.cache B) (hib : InodeBlocks B env.sb)
    (hP : B.Scarce c e → P) {offset count : Nat} (hrun : O.running s0 c)
    (hs : B.Settled c) (h : FileOk B c e) (hno : (s.inodes ip).inodeNo < env.sb.numInodes)
    (htype : e.type ≠ INODE_DEVICE) (hf : Full (B.view c) e e.numBytes)
    (hnum : e.numBytes ≤ INODE_MAX_BYTES) (hoff : offset ≤ e.numBytes)
    (hmax : offset + count ≤ INODE_MAX_BYTES)
    (hfits : weight (O.passed c) (env.sb.toBlockNo (s.inodes ip).inodeNo) e.indirect +
      demand offset count ≤ OP_MAX_NUM_BLOCKS) :
    Post (fun r s' => r = count ∧ ∃ c' e', s' = s.setFile ip c' e' ∧
        FileWritten B env.sb (s.inodes ip).inodeNo c e offset count src c' e' ∧ O.running s0 c' ∧
        (O.passed c').card ≤ OP_MAX_NUM_BLOCKS)
      (fun s' => DiskFull B O s0 s'.cache ∧ P)
      ((inodeWrite env (some stackCtx) ip src offset count).exec (s.setFile ip c e)) := by
  refine (met_inodeWrite (M := W.meter s0) (E := fun c' => DiskFull B O s0 c' ∧ P) s ip src nofun L hib
    (fun hroom _ hfull => ⟨hfull, hP hroom⟩) ⟨hrun, rfl⟩ hs h hno htype hf hnum hoff hmax
    hfits).imp ?_ fun _ hp => hp
  rintro r s' ⟨hr, c', e', _, hs', hwr, ⟨hrun', rfl⟩, hcard⟩
  exact ⟨hr, c', e', hs', hwr, hrun', hcard⟩

end OsKernel
