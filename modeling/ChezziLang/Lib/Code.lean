/-
  Code as a list of instructions, a machine that fetches them by position, and edits of
  instructions at given positions.

  `CodeAt code p ops`: from position `p` on, `code` has the instructions `ops`.

  Proved:
  * `goes_linear`: instructions that each go to the next one are run as a fold.
  * `modify_append_right`, `patches_places`: what editing at positions does to code made of
    pieces.
-/
import ChezziLang.Lib.Lockstep
import Mathlib.Data.List.Basic

namespace ChezziLang.Lib

open List

variable {O C R : Type}

/-! ## Pieces of code -/

def CodeAt (code : List O) (p : Nat) (ops : List O) : Prop := ops <+: code.drop p

variable {code ops : List O} {p : Nat} {op : O}

theorem CodeAt.head (h : CodeAt code p (op :: ops)) : code[p]? = some op := by
  obtain ⟨rest, h⟩ := h
  rw [← head?_drop, ← h]
  rfl

theorem CodeAt.tail (h : CodeAt code p (op :: ops)) : CodeAt code (p + 1) ops := by
  obtain ⟨rest, h⟩ := h
  refine ⟨rest, ?_⟩
  rw [← drop_drop, ← h]
  rfl

theorem CodeAt.left {ops'} (h : CodeAt code p (ops ++ ops')) : CodeAt code p ops :=
  (prefix_append ops ops').trans h

theorem CodeAt.right {ops'} (h : CodeAt code p (ops ++ ops')) :
    CodeAt code (p + ops.length) ops' := by
  obtain ⟨rest, h⟩ := h
  refine ⟨rest, ?_⟩
  rw [← drop_drop, ← h, append_assoc, drop_left]

theorem CodeAt.take (h : CodeAt code p ops) (k) : CodeAt code p (ops.take k) :=
  ( take_prefix k ops).trans h

theorem CodeAt.drop (h : CodeAt code p ops) (k) (hk : k ≤ ops.length) :
    CodeAt code (p + k) (ops.drop k) := by
  have hsplit : CodeAt code p (ops.take k ++ ops.drop k) := by rwa [take_append_drop]
  have hright := hsplit.right
  rwa [length_take, Nat.min_eq_left hk] at hright

theorem codeAt_append (before ops : List O) : CodeAt (before ++ ops) before.length ops := by
  exact ⟨[], by rw [append_nil, drop_left]⟩

theorem CodeAt.get {k} (h : CodeAt code p ops) (hk : ops[k]? = some op) :
    code[p + k]? = some op := by
  obtain ⟨rest, h⟩ := h
  rw [← getElem?_drop, ← h, getElem?_append_left, hk]
  exact (List.getElem?_eq_some_iff.mp hk).1

/-! ## Running them -/

section

variable (pc : C → Nat) (exec : O → C → Move C R) (off : C → Move C R)

/-- Run the instruction that the counter points at. -/
def fetch (code : List O) (c : C) : Move C R :=
  match code[pc c]? with
  | some op => exec op c
  | none => off c

/-- Run instructions that each go to the next one. -/
def linear : List O → C → Option C
  | [], c => some c
  | op :: ops, c =>
    match exec op c with
    | .next c' => if pc c' = pc c + 1 then linear ops c' else none
    | .stop _ => none

variable {pc exec off} {c : C} {op : O}

theorem fetch_of_get (h : code[pc c]? = some op) : fetch pc exec off code c = exec op c := by
  rw [fetch, h]

theorem fetch_of_codeAt (h : CodeAt code (pc c) (op :: ops)) :
    fetch pc exec off code c = exec op c :=
  fetch_of_get h.head

theorem linear_cons {c''} (h : linear pc exec (op :: ops) c = some c'') :
    ∃ c', exec op c = .next c' ∧ pc c' = pc c + 1 ∧ linear pc exec ops c' = some c'' := by
  rw [linear] at h
  split at h
  · next c' he =>
    split at h
    · next hpc => exact ⟨c', he, hpc, h⟩
    · cases h
  · cases h

/-- **Straight code is run as a fold.** -/
theorem goes_linear {c'} (hat : CodeAt code (pc c) ops) (hne : ops ≠ [])
    (h : linear pc exec ops c = some c') : Goes (fetch pc exec off code) c c' := by
  induction ops generalizing c with
  | nil => exact absurd rfl hne
  | cons op ops ih =>
    obtain ⟨c1, he, hpc, hrest⟩ := linear_cons h
    have hstep : fetch pc exec off code c = .next c1 := by rw [fetch_of_codeAt hat, he]
    cases ops with
    | nil =>
      cases hrest
      exact .one hstep
    | cons op' ops =>
      apply Goes.cons hstep
      apply ih _ (by simp) hrest
      rw [hpc]
      exact hat.tail

theorem comes_linear {c'} (hat : CodeAt code (pc c) ops) (h : linear pc exec ops c = some c') :
    Comes (fetch pc exec off code) c c' := by
  cases ops with
  | nil =>
    cases h
    exact .inl rfl
  | cons op ops => exact (goes_linear hat (by simp) h).comes

end

/-! ## Edits -/

theorem modify_append_right (before ops : List O) (k f) :
    (before ++ ops).modify (before.length + k) f = before ++ ops.modify k f := by
  induction before with
  | nil => simp
  | cons op before ih => simp [Nat.succ_add, ih]

/-- Edit the instructions at the given positions. -/
def patches (f : O → O) (at' : List Nat) (code : List O) : List O :=
  at'.foldl (fun code p => code.modify p f) code

theorem length_patches (f : O → O) (at' code) : (patches f at' code).length = code.length := by
  induction at' generalizing code with
  | nil => rfl
  | cons p at' ih =>
    rw [patches, foldl_cons, ← patches, ih, length_modify]

theorem patches_append (f : O → O) (at' more code) :
    patches f (at' ++ more) code = patches f more (patches f at' code) :=
  foldl_append ..

/-- The positions, from `p` on, of the items with a property. -/
def places {I : Type} (P : I → Bool) : List I → Nat → List Nat
  | [], _ => []
  | item :: items, p => if P item then p :: places P items (p + 1) else places P items (p + 1)

/-- **Editing at the places of some items edits those items' instructions.** -/
theorem patches_places {I} (P f) (op : I → O) (items before after) :
    patches f (places P items before.length) (before ++ (items.map op ++ after)) =
      before ++ (items.map (fun item => if P item then f (op item) else op item) ++ after) := by
  induction items generalizing before with
  | nil => rfl
  | cons item items ih =>
    -- the item's own instruction joins what is before
    have hstep (x : O) : before ++ (x :: items.map op ++ after) =
        (before ++ [x]) ++ (items.map op ++ after) := by simp
    have hih (x : O) := ih (before ++ [x])
    simp only [length_append, length_singleton] at hih
    rw [map_cons, places]
    split
    · next hP =>
      have hedit : (before ++ (op item :: items.map op ++ after)).modify before.length f =
          before ++ (f (op item) :: items.map op ++ after) :=
        modify_append_right before _ 0 f
      rw [patches, foldl_cons, hedit, hstep, ← patches, hih]
      simp [hP]
    · next hP =>
      rw [hstep, hih]
      simp [hP]

end ChezziLang.Lib
