import OsKernel.Fs.Inode

/-!
# Block stores

What the inode layer relies on in the block cache that it is given.  A `StoreView` reads
the state of a cache as a block store: the contents of each block, which blocks are
allocated, which `Block`s the caller holds and which blocks have nothing unsynced.
`StoreLaws` says what each call does in these terms.

A block with unsynced changes that is not held may lose them; all other blocks are *safe*
and read the same until they are changed.  The store keeps its own data (a bitmap, a log)
in the blocks of `own`, and never gives out nor frees the blocks of `fixed`.

`stops` says whether a call may stop although it is used as the laws demand, and `room`
how many blocks are left.  On a store with `¬ stops` every call returns until the room is
used up.
-/

namespace OsKernel

open Prog Function

variable {g : Data → Data} {κ : Type}

structure StoreView (κ : Type) where
  Ok : κ → Prop
  view : κ → Nat → Data
  used : κ → Nat → Prop
  room : κ → Nat
  held : κ → Nat → Option Nat
  synced : κ → Nat → Prop
  fixed : Nat → Prop
  own : Nat → Prop
  stops : Prop

namespace StoreView

variable (B : StoreView κ)

/-- The contents of block `x` cannot get lost. -/
def Safe (s : κ) (x : Nat) : Prop := B.synced s x ∨ ∃ a, B.held s a = some x

/-- Block `x` stays as it is if it is safe. -/
def Keeps (s s' : κ) (x : Nat) : Prop := B.Safe s x → B.Safe s' x ∧ B.view s' x = B.view s x

/-- The caller holds only blocks that are allocated and not the store's own. -/
def Holding (s : κ) : Prop := ∀ a b, B.held s a = some b → B.used s b ∧ ¬ B.own b

/-- `acquire(b)` has returned `a`. -/
structure Acquired (s : κ) (b a : Nat) (s' : κ) : Prop where
  ok : B.Ok s'
  new : B.held s a = none
  held : B.held s' = update (B.held s) a (some b)
  view : B.view s' b = B.view s b
  synced : B.synced s b → B.synced s' b
  keeps : ∀ x, B.Keeps s s' x
  used : B.used s' = B.used s
  room : B.room s' = B.room s

/-- The data of the held block `b` has been changed with `f`. -/
structure Changed (s : κ) (b : Nat) (f : Data → Data) (s' : κ) : Prop where
  ok : B.Ok s'
  held : B.held s' = B.held s
  view : B.view s' b = f (B.view s b)
  keeps : ∀ x, x ≠ b → B.Keeps s s' x
  used : B.used s' = B.used s
  room : B.room s' = B.room s

/-- `sync` of block `b` has returned. -/
structure Synced (s : κ) (b : Nat) (s' : κ) : Prop where
  ok : B.Ok s'
  held : B.held s' = B.held s
  synced : B.synced s' b
  keeps : ∀ x, B.Keeps s s' x
  used : B.used s' = B.used s
  room : B.room s' = B.room s

/-- `release(a)` has returned, with block `b` at `a`. -/
structure Released (s : κ) (a b : Nat) (s' : κ) : Prop where
  ok : B.Ok s'
  held : B.held s' = update (B.held s) a none
  keeps : ∀ x, x ≠ b → B.Keeps s s' x
  keepsSynced : B.synced s b → B.Keeps s s' b
  used : B.used s' = B.used s
  room : B.room s' = B.room s

/-- `alloc` has returned the block `b`. -/
structure Allocated (s : κ) (b : Nat) (s' : κ) : Prop where
  ok : B.Ok s'
  ne_zero : b ≠ 0
  lt : b < 2 ^ 32
  fresh : ¬ B.used s b
  zero : B.view s' b = Bytes.zero
  safe : B.Safe s' b
  held : B.held s' = B.held s
  keeps : ∀ x, ¬ B.own x → x ≠ b → B.Keeps s s' x
  used : ∀ x, B.used s' x ↔ x = b ∨ B.used s x
  room : B.room s' + 1 = B.room s

/-- `free(b)` has returned. -/
structure Freed (s : κ) (b : Nat) (s' : κ) : Prop where
  ok : B.Ok s'
  held : B.held s' = B.held s
  keeps : ∀ x, ¬ B.own x → B.Keeps s s' x
  used : ∀ x, B.used s' x ↔ x ≠ b ∧ B.used s x
  room : B.room s' = B.room s + 1

variable {B}

variable {s' s₁ s₂ : κ} {x b a : Nat}

theorem Keeps.trans {s s'' : κ} (h : B.Keeps s s' x) (h' : B.Keeps s' s'' x) :
    B.Keeps s s'' x := fun hx =>
  ⟨(h' (h hx).1).1, (h' (h hx).1).2.trans (h hx).2⟩

variable {s : κ}

theorem Acquired.held_self (h : B.Acquired s b a s') : B.held s' a = some b := by
  rw [h.held, update_self]

theorem Acquired.held_released (h : B.Acquired s b a s₁)
    (h2 : B.held s₂ = B.held s₁) (h' : B.Released s₂ a b s') : B.held s' = B.held s := by
  rw [h'.held, h2, h.held, update_idem, update_eq_self_iff, h.new]

variable (B)

/-! ## Between operations -/

/-- Nothing is held, and every allocated block outside `own` is synced. -/
structure Settled (s : κ) : Prop where
  ok : B.Ok s
  idle : ∀ a, B.held s a = none
  synced : ∀ x, B.used s x → ¬ B.own x → B.synced s x

/-- From a settled state to another one that reads the same. -/
structure Same (s s' : κ) : Prop where
  settled : B.Settled s'
  view : ∀ x, B.used s x → ¬ B.own x → B.view s' x = B.view s x
  used : B.used s' = B.used s
  room : B.room s' = B.room s

/-- From a settled state to one where block `b` has been changed with `f`. -/
structure Updated (s : κ) (b : Nat) (f : Data → Data) (s' : κ) : Prop where
  settled : B.Settled s'
  self : B.view s' b = f (B.view s b)
  view : ∀ x, B.used s x → ¬ B.own x → x ≠ b → B.view s' x = B.view s x
  used : B.used s' = B.used s
  room : B.room s' = B.room s

variable {B}

theorem Settled.safe (h : B.Settled s) (hx : B.used s x) (hown : ¬ B.own x) :
    B.Safe s x := .inl (h.synced x hx hown)

theorem Settled.holding (h : B.Settled s) : B.Holding s := fun a b hb => by
  rw [h.idle a] at hb
  cases hb

theorem Settled.free (h : B.Settled s) (b a : Nat) : B.held s a ≠ some b := by
  rw [h.idle a]
  nofun

theorem Safe.synced (h : B.Safe s x) (hidle : ∀ a, B.held s a = none) : B.synced s x := by
  refine h.resolve_right ?_
  rintro ⟨a, ha⟩
  rw [hidle a] at ha
  cases ha

theorem Settled.of_keeps (h : B.Settled s) (hok : B.Ok s') (hheld : B.held s' = B.held s)
    (hk : ∀ x, B.used s' x → ¬ B.own x → B.used s x ∧ B.Keeps s s' x ∨ B.Safe s' x) :
    B.Settled s' := by
  have hidle : ∀ a, B.held s' a = none := fun a => by rw [hheld, h.idle]
  refine ⟨hok, hidle, fun x hx hown => ?_⟩
  obtain ⟨hu, hkx⟩ | hs := hk x hx hown
  · exact (hkx (h.safe hu hown)).1.synced hidle
  · exact hs.synced hidle

theorem Settled.allocated (h : B.Settled s) (ha : B.Allocated s b s') : B.Settled s' :=
  h.of_keeps ha.ok ha.held fun x hx hown => by
    rcases (ha.used x).mp hx with rfl | hu
    · exact .inr ha.safe
    · refine .inl ⟨hu, ha.keeps x hown ?_⟩
      rintro rfl
      exact ha.fresh hu

theorem Allocated.view (ha : B.Allocated s b s') (h : B.Settled s)
    (hx : B.used s x) (hown : ¬ B.own x) : B.view s' x = B.view s x := by
  refine (ha.keeps x hown ?_ (h.safe hx hown)).2
  rintro rfl
  exact ha.fresh hx

theorem Settled.freed (h : B.Settled s) (hf : B.Freed s b s') : B.Settled s' :=
  h.of_keeps hf.ok hf.held fun x hx hown => .inl ⟨((hf.used x).mp hx).2, hf.keeps x hown⟩

theorem Same.refl (h : B.Settled s) : B.Same s s := ⟨h, fun _ _ _ => rfl, rfl, rfl⟩

theorem Same.trans {s s'' : κ} (h : B.Same s s') (h' : B.Same s' s'') : B.Same s s'' :=
  ⟨h'.settled, fun x hx hown => (h'.view x (h.used ▸ hx) hown).trans (h.view x hx hown),
    h'.used.trans h.used, h'.room.trans h.room⟩

theorem Settled.same_of_read (h : B.Settled s) (hused : B.used s b)
    (hown : ¬ B.own b) (h1 : B.Acquired s b a s₁) (h2 : B.Released s₁ a b s₂) : B.Same s s₂ := by
  have hk : ∀ x, B.Keeps s s₂ x := fun x => by
    obtain rfl | hx := eq_or_ne x b
    · exact (h1.keeps x).trans (h2.keepsSynced (h1.synced (h.synced x hused hown)))
    · exact (h1.keeps x).trans (h2.keeps x hx)
  have hu := h2.used.trans h1.used
  exact
    { settled := h.of_keeps h2.ok (h1.held_released rfl h2) fun x hx _ => .inl ⟨hu ▸ hx, hk x⟩
      view := fun x hx hox => (hk x (h.safe hx hox)).2
      used := hu
      room := h2.room.trans h1.room }

theorem Settled.updated {s s3 s4 : κ} (h : B.Settled s)
    (h1 : B.Acquired s b a s₁) (h2 : B.Changed s₁ b g s₂) (h3 : B.Synced s₂ b s3)
    (h4 : B.Released s3 a b s4) : B.Updated s b g s4 := by
  have ha2 : B.held s₂ a = some b := h2.held ▸ h1.held_self
  have hk : ∀ x, x ≠ b → B.Keeps s s4 x := fun x hx =>
    (((h1.keeps x).trans (h2.keeps x hx)).trans (h3.keeps x)).trans (h4.keeps x hx)
  have hb3 := h3.keeps b (.inr ⟨a, ha2⟩)
  have hb4 := h4.keepsSynced h3.synced (.inl h3.synced)
  have hu : B.used s4 = B.used s := by rw [h4.used, h3.used, h2.used, h1.used]
  refine
    { settled := h.of_keeps h4.ok ?_ fun x hx _ => ?_
      self := by rw [hb4.2, hb3.2, h2.view, h1.view]
      view := fun x hx hox hne => (hk x hne (h.safe hx hox)).2
      used := hu
      room := by rw [h4.room, h3.room, h2.room, h1.room] }
  · exact h1.held_released (h3.held.trans h2.held) h4
  · by_cases hxb : x = b
    · exact .inr (hxb ▸ hb4.1)
    · exact .inl ⟨hu ▸ hx, hk x hxb⟩

theorem Settled.holding_acquired (h : B.Settled s) (hused : B.used s b)
    (hown : ¬ B.own b) (ha : B.Acquired s b a s') : B.Holding s' := by
  intro a' b' hb'
  rw [ha.held] at hb'
  obtain rfl | ha' := eq_or_ne a' a
  · rw [update_self] at hb'
    cases hb'
    exact ⟨ha.used ▸ hused, hown⟩
  · rw [update_of_ne ha', h.idle] at hb'
    cases hb'

end StoreView

/-- The calls of a cache are those of a block store. -/
structure StoreLaws (bc : BlockCache κ) (B : StoreView κ) : Prop where
  fixed_of_own : ∀ {b}, B.own b → B.fixed b
  used_of_fixed : ∀ {s b}, B.Ok s → B.fixed b → B.used s b
  acquire : ∀ {s b}, B.Ok s → b < 2 ^ 64 → ¬ B.own b → (∀ a, B.held s a ≠ some b) →
    ∃ a s', (bc.acquire b).exec s = (.ok a, s') ∧ B.Acquired s b a s'
  data : ∀ {s a b}, B.Ok s → B.held s a = some b →
    (bc.data a).exec s = (.ok (B.view s b), s)
  setData : ∀ {s a b} (f : Data → Data), B.Ok s → B.held s a = some b → ¬ B.own b →
    ∃ s', (bc.setData a f).exec s = (.ok (), s') ∧ B.Changed s b f s'
  sync : ∀ {s a b} (ctx : Option Nat), B.Ok s → B.held s a = some b → ¬ B.own b →
    Post (fun _ => B.Synced s b) (fun _ => B.stops) ((bc.sync ctx a).exec s)
  release : ∀ {s a b}, B.Ok s → B.held s a = some b → ¬ B.own b →
    ∃ s', (bc.release a).exec s = (.ok (), s') ∧ B.Released s a b s'
  alloc : ∀ {s} (c : Nat), B.Ok s → B.Holding s →
    Post (fun b => B.Allocated s b) (fun _ => B.stops ∨ B.room s = 0)
      ((bc.alloc (some c)).exec s)
  free : ∀ {s b} (c : Nat), B.Ok s → B.Holding s → B.used s b → ¬ B.fixed b →
    Post (fun _ => B.Freed s b) (fun _ => B.stops) ((bc.free (some c) b).exec s)

/-- A `sync` without a context, which does not depend on the log, returns. -/
def SyncsDirect (bc : BlockCache κ) (B : StoreView κ) : Prop :=
  ∀ {c : κ} {a b : Nat}, B.Ok c → B.held c a = some b → ¬ B.own b →
    ∃ c', (bc.sync none a).exec c = (.ok (), c') ∧ B.Synced c b c'

theorem StoreLaws.syncsDirect {bc : BlockCache κ} {B : StoreView κ} (L : StoreLaws bc B)
    (hstop : ¬ B.stops) : SyncsDirect bc B := by
  intro c a b hok ha hown
  obtain ⟨⟨⟩, hc⟩ := (L.sync none hok ha hown).returns fun _ => hstop
  exact hc

/-! ## Rules for the calls

The rest `f` of the program runs on what the laws say about the state after the call. -/

section

variable {α β : Type} {env : FsEnv κ} {B : StoreView κ} {s : Fs κ} {R : β → Fs κ → Prop} {P : Prop}

theorem post_onCache {x : Prog Halt κ α} {f : α → FsM κ β} {Q : α → κ → Prop} {E : κ → Prop}
    (hx : Post Q E (x.exec s.cache))
    (hf : ∀ a c, Q a c → Post R (fun s' => E s'.cache) ((f a).exec { s with cache := c })) :
    Post R (fun s' => E s'.cache) ((onCache x >>= f).exec s) := by
  match h : x.exec s.cache, hx with
  | (.ok a, c), hq =>
    rw [exec_bind_ok (exec_onCache h)]
    exact hf a c hq
  | (.error r, c), he =>
    rw [exec_bind_error (exec_onCache h)]
    exact he

variable {b a : Nat} {E : Fs κ → Prop} {f : Unit → FsM κ β}

section

variable (L : StoreLaws env.cache B)

include L

theorem post_acquire {f : Nat → FsM κ β} (hok : B.Ok s.cache) (hb : b < 2 ^ 64) (hown : ¬ B.own b)
    (hfree : ∀ a, B.held s.cache a ≠ some b)
    (h : ∀ a c, B.Acquired s.cache b a c → Post R (fun _ => P) ((f a).exec { s with cache := c })) :
    Post R (fun _ => P) ((acquire env b >>= f).exec s) := by
  obtain ⟨a, c, hx, hacq⟩ := L.acquire hok hb hown hfree
  rw [acquire, usize, Nat.mod_eq_of_lt hb]
  exact post_onCache (E := fun _ => P) (.of_ok (Q := B.Acquired s.cache b) hx hacq) h

theorem post_blockData {f : Data → FsM κ β} (hok : B.Ok s.cache) (ha : B.held s.cache a = some b)
    (h : Post R E ((f (B.view s.cache b)).exec s)) :
    Post R E ((blockData env a >>= f).exec s) := by
  rw [blockData, exec_bind_ok (exec_onCache (L.data hok ha))]
  exact h

theorem post_setBlockData (hok : B.Ok s.cache) (ha : B.held s.cache a = some b) (hown : ¬ B.own b)
    (h : ∀ c, B.Changed s.cache b g c → Post R (fun _ => P) ((f ()).exec { s with cache := c })) :
    Post R (fun _ => P) ((setBlockData env a g >>= f).exec s) := by
  obtain ⟨c, hx, hch⟩ := L.setData g hok ha hown
  exact post_onCache (E := fun _ => P) (.of_ok (Q := fun _ => B.Changed s.cache b g) hx hch) fun _ => h

theorem post_sync (hP : B.stops → P) {ctx : Option Nat}
    (hok : B.Ok s.cache) (ha : B.held s.cache a = some b) (hown : ¬ B.own b)
    (h : ∀ c, B.Synced s.cache b c → Post R (fun _ => P) ((f ()).exec { s with cache := c })) :
    Post R (fun _ => P) ((sync env ctx a >>= f).exec s) :=
  post_onCache (E := fun _ => P) ((L.sync ctx hok ha hown).imp (fun _ _ hs => hs) fun _ => hP) fun _ => h

theorem post_release (hok : B.Ok s.cache) (ha : B.held s.cache a = some b) (hown : ¬ B.own b)
    (h : ∀ c, B.Released s.cache a b c → Post R (fun _ => P) ((f ()).exec { s with cache := c })) :
    Post R (fun _ => P) ((release env a >>= f).exec s) := by
  obtain ⟨c, hx, hr⟩ := L.release hok ha hown
  exact post_onCache (E := fun _ => P) (.of_ok (Q := fun _ => B.Released s.cache a b) hx hr) fun _ => h

theorem post_free (hP : B.stops → P) {c : Nat}
    (hok : B.Ok s.cache) (hh : B.Holding s.cache) (hused : B.used s.cache b) (hfix : ¬ B.fixed b)
    (h : ∀ c, B.Freed s.cache b c → Post R (fun _ => P) ((f ()).exec { s with cache := c })) :
    Post R (fun _ => P) ((onCache (env.cache.free (some c) b) >>= f).exec s) :=
  post_onCache (E := fun _ => P) ((L.free c hok hh hused hfix).imp (fun _ _ hf => hf) fun _ => hP) fun _ => h

end

theorem post_getInode {ip : Nat} {f : Inode → FsM κ β}
    (h : Post R E ((f (s.inodes ip)).exec s)) : Post R E ((getInode ip >>= f).exec s) := h

theorem post_assert {c : Prop} [Decidable c] (hc : c)
    (h : Post R E ((f ()).exec s)) : Post R E ((assert c >>= f).exec s) := by
  rw [assert, if_pos hc]
  exact h

theorem post_readBlock (L : StoreLaws env.cache B) {f : Data → Unit → FsM κ β}
    (hs : B.Settled s.cache) (hb : b < 2 ^ 64) (hused : B.used s.cache b) (hown : ¬ B.own b)
    (h : ∀ c, B.Same s.cache c →
      Post R (fun _ => P) ((f (B.view s.cache b) ()).exec { s with cache := c })) :
    Post R (fun _ => P) ((acquire env b >>= fun blk => blockData env blk >>= fun d =>
      release env blk >>= f d).exec s) := by
  refine post_acquire L hs.ok hb hown (hs.free b) fun a c1 h1 => ?_
  refine post_blockData L h1.ok h1.held_self ?_
  refine post_release L h1.ok h1.held_self hown fun c2 h2 => ?_
  have := h c2 (hs.same_of_read hused hown h1 h2)
  rwa [← h1.view] at this

theorem post_updateBlock (L : StoreLaws env.cache B) (hP : B.stops → P) {ctx : Option Nat}

    (hs : B.Settled s.cache) (hb : b < 2 ^ 64) (hown : ¬ B.own b)
    (h : ∀ c, B.Updated s.cache b g c → Post R (fun _ => P) ((f ()).exec { s with cache := c })) :
    Post R (fun _ => P) ((acquire env b >>= fun blk => setBlockData env blk g >>= fun _ =>
      sync env ctx blk >>= fun _ => release env blk >>= f).exec s) := by
  refine post_acquire L hs.ok hb hown (hs.free b) fun a c1 h1 => ?_
  refine post_setBlockData L h1.ok h1.held_self hown fun c2 h2 => ?_
  have ha2 : B.held c2 a = some b := h2.held ▸ h1.held_self
  refine post_sync L hP h2.ok ha2 hown fun c3 h3 => ?_
  have ha3 : B.held c3 a = some b := h3.held ▸ ha2
  refine post_release L h3.ok ha3 hown fun c4 h4 => ?_
  exact h c4 (hs.updated h1 h2 h3 h4)

end

end OsKernel
