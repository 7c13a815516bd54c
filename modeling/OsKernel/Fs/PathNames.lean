import OsKernel.Fs.Directory

/-!
# Names in paths

`skipelem` puts the first component of a path into a buffer of `FILE_NAME_MAX_LENGTH` bytes: the
component and a `NUL` if it is shorter, and otherwise its first bytes without a `NUL`.  What
the buffer has behind the `NUL` does not matter to `inode_lookup` and `inode_insert`, which read
the name with `strncmp` and `strncpy`.
-/

namespace OsKernel

open Prog List

/-- A byte of a component. -/
def nameChar (c : UInt8) : Bool := c != SLASH && c != 0

/-- The first component of a path. -/
def pathElem (path : List UInt8) : List UInt8 := (path.dropWhile (· == SLASH)).takeWhile nameChar

/-- What is left of the path after its first component and the slashes that follow. -/
def pathRest (path : List UInt8) : List UInt8 :=
  ((path.dropWhile (· == SLASH)).dropWhile nameChar).dropWhile (· == SLASH)

/-- The buffer after `skipelem`. -/
def elemBuffer (elem : List UInt8) (buf : Nat → UInt8) : Nat → UInt8 :=
  if FILE_NAME_MAX_LENGTH ≤ elem.length then memcpy buf 0 FILE_NAME_MAX_LENGTH (cstr elem)
  else memcpy buf 0 (elem.length + 1) (cstr elem)

theorem nameChar_of_mem_pathElem {path : List UInt8} {c : UInt8} (h : c ∈ pathElem path) :
    c ≠ SLASH ∧ c ≠ 0 := by
  have hc : nameChar c = true := all_eq_true.mp all_takeWhile c h
  simpa [nameChar] using hc

theorem pathElem_eq_nil {path : List UInt8} :
    pathElem path = [] ↔ deref (path.dropWhile (· == SLASH)) = 0 := by
  rw [pathElem]
  cases h : path.dropWhile (· == SLASH) with
  | nil => simp [deref]
  | cons c t =>
    have hc : c ≠ SLASH := by
      have := head_dropWhile_not (· == SLASH) (l := path) (by simp [h])
      simpa [h] using this
    simp [takeWhile_cons, nameChar, hc, deref]

/-- What `skipelem` returns. -/
theorem skipelem_eq (path : List UInt8) (buf : Nat → UInt8) : skipelem path buf =
      if pathElem path = [] then none else some (pathRest path, elemBuffer (pathElem path) buf) := by
  simp only [pathElem_eq_nil]
  rfl

/-- The buffer has the name, with its `NUL`. -/
def Names (buf : Nat → UInt8) (name : FileName) : Prop := ∀ j ≤ name.1.length, buf j = name.str j

theorem names_str (name : FileName) : Names name.str name := fun _ _ => rfl

theorem names_elemBuffer (name : FileName) (buf : Nat → UInt8) : Names (elemBuffer name.1 buf) name := by
  intro j hj
  have hlen := Nat.not_le.mpr name.2.2.1
  rw [elemBuffer, if_neg hlen, memcpy, if_pos ⟨Nat.zero_le j, by omega⟩]
  rfl

/-- A component that fits is a name. -/
theorem names_of_skipelem {path rest : List UInt8} {buf nm : Nat → UInt8}
    (h : skipelem path buf = some (rest, nm))
    (hlen : (pathElem path).length < FILE_NAME_MAX_LENGTH) :
    ∃ name : FileName, name.1 = pathElem path ∧ Names nm name := by
  rw [skipelem_eq] at h
  split at h
  next => cases h
  next hne =>
    cases h
    refine ⟨⟨pathElem path, length_pos_of_ne_nil hne, hlen,
      fun c hc => (nameChar_of_mem_pathElem hc).2⟩, rfl, ?_⟩
    exact names_elemBuffer ⟨pathElem path, _⟩ buf

namespace Names

variable {buf : Nat → UInt8} {name : FileName}

theorem agrees (h : Names buf name) {j : Nat} (hk : ∀ k < j, name.str k ≠ 0) :
    buf j = name.str j := by
  refine h j (Nat.le_of_not_lt fun hlt => ?_)
  refine hk name.1.length hlt ?_
  rw [FileName.str, cstr, getD_eq_default _ _ (Nat.le_refl _)]

/-- What the buffer has behind the `NUL` does not matter to `strncmp`. -/
theorem strncmp_eq (h : Names buf name) (s : Nat → UInt8) (n : Nat) :
    strncmp buf s n = strncmp name.str s n := by
  refine strncmpFrom_congr fun j _ hk => ?_
  rw [Nat.zero_add] at *
  exact h.agrees fun k hkj => by
    have := hk k hkj
    rwa [Nat.zero_add] at this

/-- Nor does it to `strncpy`. -/
theorem strncpy_eq (h : Names buf name) : strncpy buf = strncpy name.str := by
  funext i
  have hall : ∀ m, ((List.range m).all fun j => buf j != 0) =
      (List.range m).all fun j => name.str j != 0 := by
    intro m
    induction m with
    | zero => rfl
    | succ m ih =>
      rw [range_succ, all_append, all_append, ih]
      cases hm : (List.range m).all fun j => name.str j != 0 with
      | false => rfl
      | true =>
        have hk : ∀ k < m, name.str k ≠ 0 := fun k hk =>
          bne_iff_ne.mp (all_eq_true.mp hm k (mem_range.mpr hk))
        simp [h.agrees hk]
  rw [strncpy, strncpy, hall]
  split
  next hi =>
    exact h.agrees fun k hk => bne_iff_ne.mp (all_eq_true.mp hi k (mem_range.mpr hk))
  next => rfl

section

variable {κ : Type} (env : FsEnv κ)

theorem lookupFrom_eq (h : Names buf name) (ip : Nat) :
    ∀ l : List Nat, lookupFrom env ip buf l = lookupFrom env ip name.str l
  | [] => rfl
  | i :: l => by
    rw [lookupFrom, lookupFrom]
    simp only [h.strncmp_eq, lookupFrom_eq h ip l]

theorem inodeLookup_eq (h : Names buf name) (ip : Nat) :
    inodeLookup env ip buf = inodeLookup env ip name.str := by
  rw [inodeLookup, inodeLookup]
  simp only [h.lookupFrom_eq]

theorem inodeInsert_eq (h : Names buf name) (ctx : Option Nat) (ip no : Nat) :
    inodeInsert env ctx ip buf no = inodeInsert env ctx ip name.str no := by
  rw [inodeInsert, inodeInsert]
  simp only [h.inodeLookup_eq, DirEntry.new, h.strncpy_eq]

end

end Names

end OsKernel
