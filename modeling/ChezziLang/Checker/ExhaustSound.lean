/-
  The witness search of the exhaustiveness pass is sound.

  Values are taken apart into a constructor and its arguments (`view`), so that the
  rows of the pass are a pattern matrix in the sense of `Lib/PatMatrix.lean`.

  Proved:
  * `covered_of_witness_none`: a matrix for which the pass finds no witness covers
    every vector of values of its columns.
-/
import ChezziLang.Checker.Exhaust

namespace ChezziLang.Checker.Exhaust

open Lib.PatMatrix List Option

variable {t : Tables}

/-! ## Values and domains -/

/-- The constructor of a value and its arguments. -/
def view : Value → Option (String × List Value)
  | .bool b => some (if b then "true" else "false", [])
  | .enum _ variant ps => some (variant, ps)
  | .tuple vs => some ("", vs)
  | .struct key fs => some (key, fs)
  | _ => none

variable {v : Value} {rows : List (List (Pat String))} {ds : List Dom} {tys : List Ty}
  {key n : String} {d : Dom} {vs : List Value}

theorem hasTy_bool (h : HasTy t v .bool) : ∃ b, v = .bool b := by
  cases h with
  | bool b => exact ⟨b, rfl⟩
  | int n h | float a h => cases h
  | enum hk => cases hk
  | «sealed» _ h => exact h.elim

theorem hasTy_tuple (h : HasTy t v (.tuple tys)) :
    ∃ vs, v = .tuple vs ∧ Forall₂ (HasTy t) vs tys := by
  cases h with
  | tuple h => exact ⟨_, rfl, h⟩
  | int n h | float a h => cases h
  | enum hk => cases hk
  | «sealed» _ h => exact h.elim

theorem hasTy_struct {name targs fields} (hf : t.structFields name targs = some fields)
    (h : HasTy t v (.struct name targs)) :
    ∃ vs, v = .struct name vs ∧ Forall₂ (HasTy t) vs fields := by
  cases h with
  | struct hf' h =>
    obtain rfl := some.inj (hf'.symm.trans hf)
    exact ⟨_, rfl, h⟩
  | int n h | float a h => cases h
  | enum hk => cases hk
  | «sealed» _ h =>
    have hnone : t.structFields name targs = none := h
    rw [hnone] at hf
    cases hf

/-- The types that have an enum key. -/
theorem asEnum_cases {ty : Ty} (hk : ty.enumKey = some key) :
    (∃ a, ty = .option a) ∨ (∃ a e, ty = .result a e) ∨ ∃ a, ty = .enum key a := by
  cases ty with
  | option a => exact .inl ⟨a, rfl⟩
  | result a e => exact .inr (.inl ⟨a, e, rfl⟩)
  | enum k a => cases hk; exact .inr (.inr ⟨a, rfl⟩)
  | _ => cases hk

theorem hasTy_enum {ty : Ty} {vmap} (hk : ty.enumKey = some key) (hv : t.variantsOf ty = some vmap)
    (h : HasTy t v ty) : ∃ variant tys vs, v = .enum key variant vs ∧ (variant, tys) ∈ vmap ∧
      Forall₂ (HasTy t) vs tys := by
  have hsealed : ¬ t.Sealed ty := by
    intro hs
    have hnone : t.variantsOf ty = none := by
      obtain ⟨a, rfl⟩ | ⟨a, e, rfl⟩ | ⟨a, rfl⟩ := asEnum_cases hk <;> exact hs
    rw [hnone] at hv
    cases hv
  cases h with
  | enum hk' hv' hm h =>
    obtain rfl := some.inj (hk'.symm.trans hk)
    obtain rfl := some.inj (hv'.symm.trans hv)
    exact ⟨_, _, _, rfl, hm, h⟩
  | «sealed» _ h => exact absurd h hsealed
  | int n hs | float a hs =>
    obtain ⟨a, rfl⟩ | ⟨a, e, rfl⟩ | ⟨a, rfl⟩ := asEnum_cases hk <;> cases hs
  | bool | str | tuple | struct => cases hk

theorem mem_sumDom {variants c} : c ∈ (sumDom t key variants).ctors ↔ c ∈ variants :=
  mem_insertionSort _

theorem sumDom_nodup {variants} (h : (variants.map Prod.fst).Nodup) :
    ((sumDom t key variants).ctors.map Prod.fst).Nodup :=
  ((perm_insertionSort _ variants).map Prod.fst).nodup_iff.mpr h

/-- No constructor name is listed twice. -/
def Dom.Distinct (d : Dom) : Prop := (d.ctors.map Prod.fst).Nodup

theorem Dom.Distinct.eq (h : d.Distinct) {as bs} (ha : (n, as) ∈ d.ctors) (hb : (n, bs) ∈ d.ctors) :
    as = bs := by
  have := inj_on_of_nodup_map h ha hb rfl
  exact congrArg Prod.snd this

/-- A value of a domain: any, if the domain is unbounded, else one of its constructors
    on values of its argument types. -/
def InDom (t : Tables) (v : Value) (d : Dom) : Prop :=
  d.ctors = [] ∨ ∃ name tys vs, view v = some (name, vs) ∧ (name, tys) ∈ d.ctors ∧
    List.Forall₂ (HasTy t) vs tys

/-- What the domain of a type is, by cases on the type. -/
theorem domOfTy_cases (t ty) : (∃ tys, ty = .tuple tys ∧ domOfTy t ty = .prod "" tys) ∨
    (∃ name targs fields, ty = .struct name targs ∧ t.structFields name targs = some fields ∧
      domOfTy t ty = .prod name fields) ∨
    (ty = .bool ∧ domOfTy t ty = .bool) ∨
    (∃ key vmap, ty.enumKey = some key ∧ t.variantsOf ty = some vmap ∧
      domOfTy t ty = sumDom t key vmap) ∨
    domOfTy t ty = .unbounded := by
  cases ty with
  | tuple tys => exact .inl ⟨tys, rfl, rfl⟩
  | struct name targs =>
    cases hf : t.structFields name targs with
    | some fields =>
      refine .inr (.inl ⟨name, targs, fields, rfl, hf, ?_⟩)
      simp only [domOfTy, Tables.structFieldsOf, hf]
    | none =>
      refine .inr (.inr (.inr (.inr ?_)))
      simp only [domOfTy, Tables.structFieldsOf, hf]
  | bool => exact .inr (.inr (.inl ⟨rfl, rfl⟩))
  | _ =>
    refine .inr (.inr (.inr ?_))
    simp only [domOfTy]
    split
    · next key vmap hk hv => exact .inl ⟨key, vmap, hk, hv, rfl⟩
    · exact .inr rfl

theorem domOfTy_distinct (t ty) : (domOfTy t ty).Distinct := by
  obtain ⟨tys, -, hd⟩ | ⟨n, a, fs, -, -, hd⟩ | ⟨-, hd⟩ | ⟨key, vmap, -, hv, hd⟩ | hd :=
    domOfTy_cases t ty <;> rw [hd]
  · exact nodup_singleton _
  · exact nodup_singleton _
  · exact nodup_cons.mpr ⟨by decide, nodup_singleton _⟩
  · refine sumDom_nodup ?_
    obtain ⟨e, -, he⟩ := bind_eq_some_iff.mp hv
    exact t.variants_nodup he
  · exact nodup_nil

theorem inDom_of_hasTy {ty} (h : HasTy t v ty) : InDom t v (domOfTy t ty) := by
  obtain ⟨tys, rfl, hd⟩ | ⟨n, a, fs, rfl, hf, hd⟩ | ⟨rfl, hd⟩ | ⟨key, vmap, hk, hv, hd⟩ | hd :=
    domOfTy_cases t ty <;> rw [hd]
  · obtain ⟨vs, rfl, hvs⟩ := hasTy_tuple h
    exact .inr ⟨_, _, vs, rfl, mem_singleton_self _, hvs⟩
  · obtain ⟨vs, rfl, hvs⟩ := hasTy_struct hf h
    exact .inr ⟨_, _, vs, rfl, mem_singleton_self _, hvs⟩
  · obtain ⟨b, rfl⟩ := hasTy_bool h
    exact .inr ⟨_, [], [], rfl, by cases b <;> simp [Dom.ctors], .nil⟩
  · obtain ⟨variant, tys, vs, rfl, hm, hvs⟩ := hasTy_enum hk hv h
    exact .inr ⟨variant, tys, vs, rfl, mem_sumDom.mpr hm, hvs⟩
  · exact .inl rfl

/-! ## Rows over columns -/

mutual

/-- The constructors of a lowered pattern are those of its domain. -/
def PatOk (t : Tables) : Pat String → Dom → Prop
  | .wild, _ => True
  | .never, _ => True
  | .ctor name args, d => ∃ tys, (name, tys) ∈ d.ctors ∧ RowOk t args (tys.map (domOfTy t))

def RowOk (t : Tables) : List (Pat String) → List Dom → Prop
  | [], [] => True
  | p :: ps, d :: ds => PatOk t p d ∧ RowOk t ps ds
  | _, _ => False

end

theorem RowOk.length {ps} (h : RowOk t ps ds) : ps.length = ds.length := by
  induction ps generalizing ds with
  | nil =>
    cases ds with
    | nil => rfl
    | cons => exact h.elim
  | cons p ps ih =>
    cases ds with
    | nil => exact h.elim
    | cons d ds => rw [length_cons, length_cons, ih h.2]

theorem RowOk.append {ps qs es} (h : RowOk t ps ds) (h' : RowOk t qs es) :
    RowOk t (ps ++ qs) (ds ++ es) := by
  induction ps generalizing ds with
  | nil =>
    cases ds with
    | nil => exact h'
    | cons => exact h.elim
  | cons p ps ih =>
    cases ds with
    | nil => exact h.elim
    | cons d ds => exact ⟨h.1, ih h.2⟩

theorem RowOk.wild (ds) : RowOk t (List.replicate ds.length .wild) ds := by
  induction ds with
  | nil => trivial
  | cons d ds ih => exact ⟨trivial, ih⟩

/-- Every row of the matrix fits its columns. -/
def RowsOk (t : Tables) (rows : List (List (Pat String))) (ds : List Dom) : Prop :=
  ∀ row ∈ rows, RowOk t row ds

section

variable (h : RowsOk t rows (d :: ds))
include h

theorem RowsOk.ctor (hd : d.Distinct) (hn : (n, tys) ∈ d.ctors)
    {args rest} (hrow : Pat.ctor n args :: rest ∈ rows) : RowOk t args (tys.map (domOfTy t)) := by
  obtain ⟨tys', hn', hargs⟩ := (h _ hrow).1
  rwa [hd.eq hn' hn] at hargs

theorem RowsOk.specialize (hd : d.Distinct)
    (hn : (n, tys) ∈ d.ctors) :
    RowsOk t (specialize rows n tys.length) (tys.map (domOfTy t) ++ ds) := by
  intro row hrow
  obtain ⟨src, hsrc, hr⟩ := mem_filterMap.mp hrow
  split at hr
  · cases hr
  · cases hr
    refine RowOk.append ?_ (h _ hsrc).2
    have hw := RowOk.wild (t := t) (tys.map (domOfTy t))
    rwa [length_map] at hw
  · split at hr
    · next hm =>
      cases hr
      subst hm
      exact (h.ctor hd hn hsrc).append (h _ hsrc).2
    · cases hr
  · cases hr

theorem RowsOk.defaultMatrix : RowsOk t (defaultMatrix rows) ds := by
  intro row hrow
  obtain ⟨src, hsrc, hr⟩ := mem_filterMap.mp hrow
  split at hr
  · cases hr
    exact (h _ hsrc).2
  · cases hr

/-- Specializing to a value's own constructor, on rows that fit their columns. -/
theorem covered_specialize_iff (hd : d.Distinct)
    (hn : (n, tys) ∈ d.ctors) {us} (hv : view v = some (n, us)) (hus : us.length = tys.length) :
    Covered view (specialize rows n tys.length) (us ++ vs) ↔ Covered view rows (v :: vs) := by
  rw [← hus]
  refine covered_specialize view hv fun args rest hrow => ?_
  rw [(h.ctor hd hn hrow).length, length_map, hus]

end

/-! ## No witness, no gap -/

theorem forall₂_inDom (h : Forall₂ (HasTy t) vs tys) :
    Forall₂ (InDom t) vs (tys.map (domOfTy t)) := by
  induction h with
  | nil => exact .nil
  | cons h _ ih => exact .cons (inDom_of_hasTy h) ih

theorem forall_distinct_append (h : ∀ d ∈ ds, d.Distinct) :
    ∀ d ∈ tys.map (domOfTy t) ++ ds, d.Distinct :=
  forall_mem_append.mpr ⟨forall_mem_map.mpr fun ty _ => domOfTy_distinct t ty, h⟩

theorem exhWitnessRec_empty (left ds) :
    exhWitnessRec t left [] ds = some (ds.map fun _ => .wild) := by
  cases left <;> rfl

theorem exhWitnessRec_nil (left) (h : rows ≠ []) : exhWitnessRec t (left + 1) rows [] = none := by
  rw [exhWitnessRec, if_neg (by simpa using h)]

theorem exhWitnessRec_cons (left) (h : rows ≠ []) (d ds) :
    exhWitnessRec t (left + 1) rows (d :: ds) = if d.complete (heads rows) then
        d.ctors.findSome? fun c =>
          (exhWitnessRec t left (specialize rows c.1 c.2.length)
            (c.2.map (domOfTy t) ++ ds)).map fun w =>
              witCtor d c.1 (w.take c.2.length) :: w.drop c.2.length
      else
        (exhWitnessRec t left (defaultMatrix rows) ds).map fun w =>
          missingWit d (heads rows) :: w := by
  rw [exhWitnessRec, if_neg (by simpa using h)]

theorem Dom.complete_iff {used} :
    d.complete used = true ↔ d.ctors ≠ [] ∧ ∀ c ∈ d.ctors, c.1 ∈ used := by
  simp [Dom.complete]

/-- **Where the pass finds no witness, the matrix covers every vector.** -/
theorem covered_of_witness_none {left} (hw : exhWitnessRec t left rows ds = none)
    (hr : RowsOk t rows ds) (hd : ∀ d ∈ ds, d.Distinct) (hv : Forall₂ (InDom t) vs ds) :
    Covered view rows vs := by
  induction left generalizing rows ds vs with
  | zero => cases hw
  | succ left ih =>
    have hne : rows ≠ [] := by
      rintro rfl
      rw [exhWitnessRec_empty] at hw
      cases hw
    cases hv with
    | nil =>
      -- no column left: any row covers
      obtain ⟨row, hrow⟩ := exists_mem_of_ne_nil rows hne
      have hnil : row = [] := length_eq_zero_iff.mp (hr row hrow).length
      exact ⟨row, hrow, by rw [hnil, coversAll]⟩
    | @cons v d vs ds hv hvs =>
      obtain ⟨hd0, hds⟩ := forall_mem_cons.mp hd
      rw [exhWitnessRec_cons left hne] at hw
      split at hw
      · next hcomplete =>
        -- every constructor heads a row: go down the one the value has
        obtain hnil | ⟨name, tys, us, hview, hmem, hus⟩ := hv
        · exact absurd hnil (Dom.complete_iff.mp hcomplete).1
        have hnone := findSome?_eq_none_iff.mp hw _ hmem
        rw [map_eq_none_iff] at hnone
        refine (covered_specialize_iff hr hd0 hmem hview hus.length_eq).mp ?_
        exact ih hnone (hr.specialize hd0 hmem) (forall_distinct_append hds)
          (rel_append (forall₂_inDom hus) hvs)
      · -- some constructor heads no row: the default rows cover already
        rw [map_eq_none_iff] at hw
        exact covered_of_defaultMatrix view v (ih hw hr.defaultMatrix hds hvs)

end ChezziLang.Checker.Exhaust
