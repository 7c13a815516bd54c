import Mathlib.Data.Finset.Card
import OsKernel.Fs.BlockStore

/-!
# Metered operations

An operation may pass only so many blocks to `cache_sync`.  A `Meter` says what the calls of an
operation do to the set of the blocks that it has passed, and where they may stop.  The `weight` of
an operation counts the blocks passed so far and those that it may still have to pass for the inode
and its indirect block; a call of `inode_map` adds at most two to it, and a block that is written in
place one.
-/

namespace OsKernel

open Prog Finset

/-! ## Weights -/

/-- What it costs to add block `x` to `T`. -/
def due (T : Finset Nat) (x : Nat) : Nat := if x ∈ T then 0 else 1

/-- What the indirect block `ind` may cost; while it does not exist it has to be allocated. -/
def dueIndirect (T : Finset Nat) (ind : Nat) : Nat := if ind = 0 then 2 else due T ind

/-- The blocks of `T`, and what may come for the inode block `ib` and the indirect block `ind`. -/
def weight (T : Finset Nat) (ib ind : Nat) : Nat := T.card + due T ib + dueIndirect T ind

section

variable {T T' : Finset Nat} {ib ind t x : Nat}

theorem due_le_one (T : Finset Nat) (x : Nat) : due T x ≤ 1 := by
  rw [due]
  split <;> omega

theorem due_of_mem (h : x ∈ T) : due T x = 0 := if_pos h

theorem due_anti (h : T ⊆ T') (x : Nat) : due T' x ≤ due T x := by
  by_cases hx : x ∈ T
  · rw [due_of_mem hx, due_of_mem (h hx)]
  · rw [due, due, if_neg hx]
    split <;> omega

theorem dueIndirect_anti (h : T ⊆ T') (ind : Nat) : dueIndirect T' ind ≤ dueIndirect T ind := by
  rw [dueIndirect, dueIndirect]
  split
  · exact Nat.le_refl 2
  · exact due_anti h ind

section

variable (T)

theorem card_insert_due (x : Nat) : (insert x T).card = T.card + due T x := by
  by_cases hx : x ∈ T
  · rw [insert_eq_of_mem hx, due_of_mem hx, Nat.add_zero]
  · rw [card_insert_of_notMem hx, due, if_neg hx]

theorem card_le_weight (ib ind : Nat) : T.card ≤ weight T ib ind := by
  rw [weight]
  omega

theorem card_insert_inode_le (ib ind : Nat) : (insert ib T).card ≤ weight T ib ind := by
  rw [card_insert_due, weight]
  omega

theorem card_insert_indirect_le (ib : Nat) (h0 : ind ≠ 0) :
    (insert ind T).card ≤ weight T ib ind := by
  rw [card_insert_due, weight, dueIndirect, if_neg h0]
  omega

theorem weight_insert (ib ind x : Nat) :
    weight (insert x T) ib ind ≤ weight T ib ind + due T x := by
  have hib := due_anti (subset_insert x T) ib
  have hind := dueIndirect_anti (subset_insert x T) ind
  rw [weight, weight, card_insert_due]
  omega

theorem weight_insert_inode (ib ind : Nat) : weight (insert ib T) ib ind ≤ weight T ib ind := by
  have hind := dueIndirect_anti (subset_insert ib T) ind
  rw [weight, weight, card_insert_due, due_of_mem (mem_insert_self ib T)]
  omega

theorem weight_insert_indirect (ib : Nat) (h0 : ind ≠ 0) :
    weight (insert ind T) ib ind ≤ weight T ib ind := by
  have hib := due_anti (subset_insert ind T) ib
  rw [weight, weight, card_insert_due, dueIndirect, dueIndirect, if_neg h0, if_neg h0,
    due_of_mem (mem_insert_self ind T)]
  omega

theorem weight_alloc (ib ind b m : Nat) :
    weight (insert b (insert m T)) ib ind ≤ weight T ib ind + 2 := by
  have hb := weight_insert (insert m T) ib ind b
  have hm := weight_insert T ib ind m
  have := due_le_one (insert m T) b
  have := due_le_one T m
  omega

theorem weight_alloc_indirect (ib m : Nat) (h0 : t ≠ 0) :
    weight (insert t (insert m T)) ib t ≤ weight T ib 0 := by
  have hsub := (subset_insert m T).trans (subset_insert t _)
  have hib := due_anti hsub ib
  have := due_le_one (insert m T) t
  have := due_le_one T m
  rw [weight, weight, card_insert_due, card_insert_due, dueIndirect, dueIndirect, if_neg h0,
    if_pos rfl, due_of_mem (mem_insert_self t _)]
  omega

end

theorem weight_empty_le (ib ind : Nat) : weight ∅ ib ind ≤ 3 := by
  have hib := due_le_one ∅ ib
  have hind := due_le_one ∅ ind
  rw [weight, dueIndirect, card_empty]
  split <;> omega

end

/-! ## Meters -/

/-- `In s T` holds in the operation `ctx` when it has passed the blocks `T`.  As long as these are
at most `cap`, its calls stop only in a state of `stop`, or without room in one of `full`. -/
structure Meter {κ : Type} (bc : BlockCache κ) (B : StoreView κ) (ctx cap : Nat) where
  In : κ → Finset Nat → Prop
  stop : κ → Prop
  full : κ → Prop
  acquire : ∀ {s T b}, In s T → B.Ok s → b < 2 ^ 64 → ¬ B.own b → (∀ a, B.held s a ≠ some b) →
    Post (fun a s' => B.Acquired s b a s' ∧ In s' T) stop ((bc.acquire b).exec s)
  setData : ∀ {s T a b} (f : Data → Data), In s T → B.Ok s → B.held s a = some b → ¬ B.own b →
    Post (fun _ s' => B.Changed s b f s' ∧ In s' T) stop ((bc.setData a f).exec s)
  release : ∀ {s T a b}, In s T → B.Ok s → B.held s a = some b → ¬ B.own b →
    Post (fun _ s' => B.Released s a b s' ∧ In s' T) stop ((bc.release a).exec s)
  sync : ∀ {s T a b}, In s T → B.Ok s → B.held s a = some b → ¬ B.own b → (insert b T).card ≤ cap →
    Post (fun _ s' => B.Synced s b s' ∧ In s' (insert b T)) stop ((bc.sync (some ctx) a).exec s)
  alloc : ∀ {s T}, In s T → B.Ok s → B.Holding s → T.card + 2 ≤ cap →
    Post (fun b s' => B.Allocated s b s' ∧ ∃ m, In s' (insert b (insert m T)))
      (fun s' => stop s' ∨ B.room s = 0 ∧ full s') ((bc.alloc (some ctx)).exec s)

/-- The meter that does not count. -/
def StoreLaws.meter {κ : Type} {bc : BlockCache κ} {B : StoreView κ} (L : StoreLaws bc B)
    (ctx cap : Nat) : Meter bc B ctx cap where
  In _ _ := True
  stop _ := B.stops
  full _ := True
  acquire _ hok hb hown hfree := by
    obtain ⟨a, s', hx, h⟩ := L.acquire hok hb hown hfree
    exact .of_ok hx ⟨h, trivial⟩
  setData f _ hok ha hown := by
    obtain ⟨s', hx, h⟩ := L.setData f hok ha hown
    exact .of_ok hx ⟨h, trivial⟩
  release _ hok ha hown := by
    obtain ⟨s', hx, h⟩ := L.release hok ha hown
    exact .of_ok hx ⟨h, trivial⟩
  sync _ hok ha hown _ := (L.sync _ hok ha hown).imp (fun _ _ h => ⟨h, trivial⟩) fun _ h => h
  alloc _ hok hh _ := (L.alloc _ hok hh).imp (fun _ _ h => ⟨h, 0, trivial⟩)
    fun _ h => h.imp_right fun hroom => ⟨hroom, trivial⟩

/-! ## Rules for the calls -/

section

variable {κ β : Type} {env : FsEnv κ} {B : StoreView κ} {ctx cap a b : Nat}
  {M : Meter env.cache B ctx cap} {s : Fs κ} {T : Finset Nat} {R : β → Fs κ → Prop} {E : κ → Prop}
  {f : Unit → FsM κ β} (hE : ∀ c, M.stop c → E c)

include hE

theorem met_acquire {f : Nat → FsM κ β} (hin : M.In s.cache T) (hs : B.Settled s.cache)
    (hb : b < 2 ^ 64) (hown : ¬ B.own b)
    (h : ∀ a c, B.Acquired s.cache b a c → M.In c T →
      Post R (fun s' => E s'.cache) ((f a).exec { s with cache := c })) :
    Post R (fun s' => E s'.cache) ((acquire env b >>= f).exec s) := by
  rw [acquire, usize, Nat.mod_eq_of_lt hb]
  exact post_onCache ((M.acquire hin hs.ok hb hown (hs.free b)).imp (fun _ _ h => h) hE)
    fun a c hc => h a c hc.1 hc.2

section

variable (hin : M.In s.cache T) (hok : B.Ok s.cache) (ha : B.held s.cache a = some b)
  (hown : ¬ B.own b)

include hin hok ha hown

theorem met_setBlockData {g : Data → Data} (h : ∀ c, B.Changed s.cache b g c → M.In c T →
      Post R (fun s' => E s'.cache) ((f ()).exec { s with cache := c })) :
    Post R (fun s' => E s'.cache) ((setBlockData env a g >>= f).exec s) :=
  post_onCache ((M.setData g hin hok ha hown).imp (fun _ _ h => h) hE) fun _ c hc => h c hc.1 hc.2

theorem met_sync (hcard : (insert b T).card ≤ cap)
    (h : ∀ c, B.Synced s.cache b c → M.In c (insert b T) →
      Post R (fun s' => E s'.cache) ((f ()).exec { s with cache := c })) :
    Post R (fun s' => E s'.cache) ((sync env (some ctx) a >>= f).exec s) :=
  post_onCache ((M.sync hin hok ha hown hcard).imp (fun _ _ h => h) hE) fun _ c hc => h c hc.1 hc.2

theorem met_release (h : ∀ c, B.Released s.cache a b c → M.In c T →
      Post R (fun s' => E s'.cache) ((f ()).exec { s with cache := c })) :
    Post R (fun s' => E s'.cache) ((release env a >>= f).exec s) :=
  post_onCache ((M.release hin hok ha hown).imp (fun _ _ h => h) hE) fun _ c hc => h c hc.1 hc.2

end

theorem met_alloc {f : Nat → FsM κ β} (hF : B.room s.cache = 0 → ∀ c, M.full c → E c)
    (hin : M.In s.cache T) (hok : B.Ok s.cache) (hh : B.Holding s.cache) (hcard : T.card + 2 ≤ cap)
    (h : ∀ b c m, B.Allocated s.cache b c → M.In c (insert b (insert m T)) →
      Post R (fun s' => E s'.cache) ((f b).exec { s with cache := c })) :
    Post R (fun s' => E s'.cache) ((onCache (env.cache.alloc (some ctx)) >>= f).exec s) :=
  post_onCache ((M.alloc hin hok hh hcard).imp (fun _ _ h => h)
    fun c hc => hc.elim (hE c) fun hfull => hF hfull.1 c hfull.2)
    fun b c hc => hc.2.elim fun m hm => h b c m hc.1 hm

theorem met_updateBlock {g : Data → Data} (hin : M.In s.cache T) (hs : B.Settled s.cache)
    (hb : b < 2 ^ 64) (hown : ¬ B.own b) (hcard : (insert b T).card ≤ cap)
    (h : ∀ c, B.Updated s.cache b g c → M.In c (insert b T) →
      Post R (fun s' => E s'.cache) ((f ()).exec { s with cache := c })) :
    Post R (fun s' => E s'.cache) ((acquire env b >>= fun blk => setBlockData env blk g >>= fun _ =>
      sync env (some ctx) blk >>= fun _ => release env blk >>= f).exec s) := by
  refine met_acquire hE hin hs hb hown fun a c1 h1 i1 => ?_
  refine met_setBlockData hE i1 h1.ok h1.held_self hown fun c2 h2 i2 => ?_
  have ha2 : B.held c2 a = some b := h2.held ▸ h1.held_self
  refine met_sync hE i2 h2.ok ha2 hown hcard fun c3 h3 i3 => ?_
  have ha3 : B.held c3 a = some b := h3.held ▸ ha2
  refine met_release hE i3 h3.ok ha3 hown fun c4 h4 i4 => ?_
  exact h c4 (hs.updated h1 h2 h3 h4) i4

end

end OsKernel
