/-
  Pattern matrices: rows of constructor patterns against vectors of values.

  `view` takes a value apart into a constructor name and its arguments.  A row covers
  a vector when each of its patterns covers the value in its column.  `specialize`
  keeps what the rows say once the first value is known to be built by a given
  constructor, and `defaultMatrix` what they say when no row names its constructor.

  Proved:
  * `covered_specialize`: specializing loses nothing and adds nothing, for a value of
    that constructor.
  * `covered_defaultMatrix`: the same of the default matrix, for a value whose
    constructor heads no row.
-/
import Mathlib.Data.List.Basic

namespace ChezziLang.Lib.PatMatrix

open List

/-- A pattern over constructor names `α`; `never` covers nothing. -/
inductive Pat (α : Type) where
  | wild
  | ctor (name : α) (args : List (Pat α))
  | never

variable {α V : Type} [DecidableEq α] (view : V → Option (α × List V))

mutual

def covers : Pat α → V → Bool
  | .wild, _ => true
  | .never, _ => false
  | .ctor name args, v =>
    match view v with
    | some (m, vs) => decide (m = name) && coversAll args vs
    | none => false

/-- A row of patterns against as many values. -/
def coversAll : List (Pat α) → List V → Bool
  | [], [] => true
  | p :: ps, v :: vs => covers p v && coversAll ps vs
  | _, _ => false

end

/-- Some row covers the vector. -/
def Covered (rows : List (List (Pat α))) (vs : List V) : Prop :=
  ∃ row ∈ rows, coversAll view row vs = true

/-! ## Rows -/

variable {vs : List V}

theorem coversAll_length {ps} (h : coversAll view ps vs = true) : ps.length = vs.length := by
  induction ps generalizing vs with
  | nil =>
    cases vs with
    | nil => rfl
    | cons => simp [coversAll] at h
  | cons p ps ih =>
    cases vs with
    | nil => simp [coversAll] at h
    | cons v vs =>
      rw [coversAll, Bool.and_eq_true] at h
      rw [length_cons, length_cons, ih h.2]

variable {us : List V}

theorem coversAll_append {ps qs} (h : ps.length = us.length) :
    coversAll view (ps ++ qs) (us ++ vs) = (coversAll view ps us && coversAll view qs vs) := by
  induction ps generalizing us with
  | nil =>
    obtain rfl := length_eq_zero_iff.mp h.symm
    rw [nil_append, nil_append, coversAll, Bool.true_and]
  | cons p ps ih =>
    cases us with
    | nil => cases h
    | cons u us =>
      rw [cons_append, cons_append, coversAll, coversAll, ih (Nat.succ.inj h), Bool.and_assoc]

theorem coversAll_wild (us) :
    coversAll view (replicate us.length (Pat.wild : Pat α)) us = true := by
  induction us with
  | nil => rw [length_nil, replicate_zero, coversAll]
  | cons u us ih => rw [length_cons, replicate_succ, coversAll, covers, ih, Bool.true_and]

variable {v : V}

theorem covers_ctor {name args m} (hv : view v = some (m, us)) :
    covers view (.ctor name args) v = (decide (m = name) && coversAll view args us) := by
  rw [covers, hv]

/-! ## Specialization -/

section

variable (rows : List (List (Pat α)))

/-- The rows that can cover a value of constructor `ctor`, with its `arity` arguments
    in place of the first column. -/
def specialize (ctor : α) (arity : Nat) : List (List (Pat α)) :=
  rows.filterMap fun row =>
    match row with
    | [] => none
    | .wild :: rest => some (replicate arity .wild ++ rest)
    | .ctor n args :: rest => if n = ctor then some (args ++ rest) else none
    | .never :: _ => none

/-- The rows with a wildcard head, without it. -/
def defaultMatrix : List (List (Pat α)) :=
  rows.filterMap fun row =>
    match row with
    | .wild :: rest => some rest
    | _ => none

/-- The constructors that head a row. -/
def heads : List α :=
  rows.filterMap fun row =>
    match row with
    | .ctor n _ :: _ => some n
    | _ => none

end

omit [DecidableEq α] in
variable {rows : List (List (Pat α))}

theorem mem_heads {n : α} : n ∈ heads rows ↔ ∃ args rest, Pat.ctor n args :: rest ∈ rows := by
  rw [heads, mem_filterMap]
  constructor
  · rintro ⟨row, hrow, h⟩
    split at h
    · cases h
      exact ⟨_, _, hrow⟩
    · cases h
  · rintro ⟨args, rest, hrow⟩
    exact ⟨_, hrow, rfl⟩

theorem covered_specialize {n} (hv : view v = some (n, us))
    (harity : ∀ args rest, Pat.ctor n args :: rest ∈ rows → args.length = us.length) :
    Covered view (specialize rows n us.length) (us ++ vs) ↔ Covered view rows (v :: vs) := by
  constructor
  · rintro ⟨row, hrow, hcov⟩
    obtain ⟨src, hsrc, h⟩ := mem_filterMap.mp hrow
    refine ⟨src, hsrc, ?_⟩
    split at h
    · cases h
    · cases h
      rw [coversAll_append view (length_replicate ..), Bool.and_eq_true] at hcov
      rw [coversAll, covers, hcov.2, Bool.true_and]
    · next m args rest =>
      split at h
      · next hm =>
        cases h
        subst hm
        rw [coversAll_append view (harity _ _ hsrc)] at hcov
        rw [coversAll, covers_ctor view hv, decide_eq_true rfl, Bool.true_and, hcov]
      · cases h
    · cases h
  · rintro ⟨row, hrow, hcov⟩
    cases row with
    | nil => simp [coversAll] at hcov
    | cons p rest =>
      rw [coversAll, Bool.and_eq_true] at hcov
      obtain ⟨hp, hrest⟩ := hcov
      cases p with
      | wild =>
        refine ⟨_, mem_filterMap.mpr ⟨_, hrow, rfl⟩, ?_⟩
        rw [coversAll_append view (length_replicate ..), coversAll_wild, hrest, Bool.true_and]
      | ctor m args =>
        rw [covers_ctor view hv, Bool.and_eq_true, decide_eq_true_iff] at hp
        obtain ⟨rfl, hargs⟩ := hp
        refine ⟨args ++ rest, mem_filterMap.mpr ⟨_, hrow, if_pos rfl⟩, ?_⟩
        rw [coversAll_append view (coversAll_length view hargs), hargs, hrest, Bool.true_and]
      | never => simp [covers] at hp

theorem covered_of_defaultMatrix (v) (h : Covered view (defaultMatrix rows) vs) :
    Covered view rows (v :: vs) := by
  obtain ⟨row, hrow, hcov⟩ := h
  obtain ⟨src, hsrc, h⟩ := mem_filterMap.mp hrow
  split at h
  · cases h
    refine ⟨_, hsrc, ?_⟩
    rw [coversAll, covers, hcov, Bool.true_and]
  · cases h

/-- A value is at most covered by wildcards when no row names its constructor. -/
theorem covered_defaultMatrix (hv : ∀ n us, view v = some (n, us) → n ∉ heads rows) :
    Covered view (defaultMatrix rows) vs ↔ Covered view rows (v :: vs) := by
  refine ⟨covered_of_defaultMatrix view v, ?_⟩
  rintro ⟨row, hrow, hcov⟩
  cases row with
  | nil => simp [coversAll] at hcov
  | cons p rest =>
    rw [coversAll, Bool.and_eq_true] at hcov
    obtain ⟨hp, hrest⟩ := hcov
    cases p with
    | wild => exact ⟨rest, mem_filterMap.mpr ⟨_, hrow, rfl⟩, hrest⟩
    | ctor m args =>
      cases hview : view v with
      | none => simp [covers, hview] at hp
      | some c =>
        rw [covers_ctor view hview, Bool.and_eq_true, decide_eq_true_iff] at hp
        obtain ⟨rfl, -⟩ := hp
        exact absurd (mem_heads.mpr ⟨_, _, hrow⟩) (hv _ _ hview)
    | never => simp [covers] at hp

end ChezziLang.Lib.PatMatrix
