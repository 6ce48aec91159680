/-
  The witness that the exhaustiveness pass names, against the rows of its matrix.

  `Wit.Fits` says which values a witness stands for.

  Proved:
  * `not_covered_of_witness`: no row covers a vector that fits the witness, if the
    search did not stop at its depth limit.
  * `witness_inhabited`: some vector fits the witness, if the types of the columns and
    of all their parts are inhabited.
-/
import ChezziLang.Checker.ExhaustPass

namespace ChezziLang.Checker.Exhaust

open Lib.PatMatrix List Option

variable {t : Tables} {res : Resolutions} {G : Type}

/-! ## What a witness stands for -/

mutual

/-- The values of the domain that a witness stands for. -/
def Wit.Fits (t : Tables) : Wit → Dom → Value → Prop
  | .wild, _, _ => True
  | .ctor display args, d, v =>
    ∃ name tys vs, view v = some (name, vs) ∧ (name, tys) ∈ d.ctors ∧
      ctorDisplay d name = display ∧ FitsAll t args (tys.map (domOfTy t)) vs
  | .carrier tag w, d, v =>
    ∃ name ty x, view v = some (name, [x]) ∧ (name, [ty]) ∈ d.ctors ∧
      carrierTagOfVariant name = some tag ∧ Wit.Fits t w (domOfTy t ty) x

def FitsAll (t : Tables) : List Wit → List Dom → List Value → Prop
  | [], [], [] => True
  | w :: ws, d :: ds, v :: vs => Wit.Fits t w d v ∧ FitsAll t ws ds vs
  | _, _, _ => False

end

/-- Constructor names are distinct, and in a carrier so are their `?` / `!` heads. -/
structure Dom.Good (d : Dom) : Prop where
  distinct : d.Distinct
  heads : ∀ display members, d = .sum display members true →
    ∀ {n n' : String} {tys tys' : List Ty} {tag : CarrierTag}, (n, tys) ∈ members →
      (n', tys') ∈ members → carrierTagOfVariant n = some tag →
      carrierTagOfVariant n' = some tag → n = n'

theorem sumDom_good {key targs vmap} (h : t.variants key targs = some vmap) :
    (sumDom t key vmap).Good where
  distinct := sumDom_nodup (t.variants_nodup h)
  heads := by
    intro display members hd n n' tys tys' tag hn hn' htag htag'
    have hcar : key = "Option" ∨ key = "Result" := by
      have : (key == "Option" || key == "Result") = true := (Dom.sum.inj hd).2.2
      simpa using this
    have hmem : ∀ {c : String × List Ty}, c ∈ members → c ∈ vmap := fun hc =>
      mem_sumDom.mp (show _ ∈ (sumDom t key vmap).ctors by rw [hd]; exact hc)
    have h1 := t.carrier_members hcar h (hmem hn) htag
    have h2 := t.carrier_members hcar h (hmem hn') htag'
    exact some.inj (h1.symm.trans h2)

theorem domOfTy_good (t ty) : (domOfTy t ty).Good := by
  refine ⟨domOfTy_distinct t ty, fun display members he => ?_⟩
  obtain ⟨tys, -, hd⟩ | ⟨n, a, fs, -, -, hd⟩ | ⟨-, hd⟩ | ⟨key, vmap, hk, hv, hd⟩ | hd :=
    domOfTy_cases t ty <;> rw [hd] at he
  case inr.inr.inr.inl =>
    obtain ⟨⟨k, targs⟩, hkey, hvars⟩ := bind_eq_some_iff.mp hv
    have hke : k = key := by
      rw [Ty.enumKey, hkey] at hk
      exact some.inj hk
    subst hke
    intro n n' tys tys' tag
    exact (sumDom_good hvars).heads display members he
  all_goals cases he

theorem displayOf_inj {label a b} (h : displayOf label a = displayOf label b) : a = b := by
  unfold displayOf at h
  split at h
  · exact h
  · exact (String.append_right_inj _).mp h

variable {tys : List Ty} {Ss : List (Value → Prop)} {K : Ty → Prop}
  {rows : List (List (Pat String))} {ds ds' : List Dom} {vs us : List Value} {ws : List Wit}
  {d : Dom}

/-- Two constructors of a domain print differently. -/
theorem ctorDisplay_inj {n n' tys'} (hn : (n, tys) ∈ d.ctors) (hn' : (n', tys') ∈ d.ctors)
    (h : ctorDisplay d n = ctorDisplay d n') : n = n' := by
  cases d with
  | prod label fs =>
    rw [Dom.ctors, mem_singleton] at hn hn'
    rw [(Prod.mk.inj hn).1, (Prod.mk.inj hn').1]
  | sum | bool => exact displayOf_inj h
  | unbounded => cases hn

theorem FitsAll.length (h : FitsAll t ws ds vs) :
    ws.length = ds.length ∧ vs.length = ds.length := by
  induction ws generalizing ds vs with
  | nil =>
    match ds, vs with
    | [], [] => exact ⟨rfl, rfl⟩
    | [], _ :: _ | _ :: _, [] | _ :: _, _ :: _ => exact h.elim
  | cons w ws ih =>
    match ds, vs with
    | d :: ds, v :: vs =>
      obtain ⟨h1, h2⟩ := ih h.2
      exact ⟨congrArg Nat.succ h1, congrArg Nat.succ h2⟩
    | [], [] | [], _ :: _ | _ :: _, [] => exact h.elim

theorem FitsAll.append {ws' vs'} (h : FitsAll t ws ds vs) (h' : FitsAll t ws' ds' vs') :
    FitsAll t (ws ++ ws') (ds ++ ds') (vs ++ vs') := by
  induction ws generalizing ds vs with
  | nil =>
    match ds, vs with
    | [], [] => exact h'
    | [], _ :: _ | _ :: _, [] | _ :: _, _ :: _ => exact h.elim
  | cons w ws ih =>
    match ds, vs with
    | d :: ds, v :: vs => exact ⟨h.1, ih h.2⟩
    | [], [] | [], _ :: _ | _ :: _, [] => exact h.elim

/-- The value behind the witness of a constructor. -/
theorem fits_witCtor (hd : d.Good) {name} (hn : (name, tys) ∈ d.ctors) {args v} :
    (witCtor d name args).Fits t d v ↔
      ∃ vs, view v = some (name, vs) ∧ FitsAll t args (tys.map (domOfTy t)) vs := by
  unfold witCtor
  split
  · next display members w tag htag =>
    constructor
    · rintro ⟨name', ty, x, hview, hn', htag', hfit⟩
      obtain rfl := hd.heads _ _ rfl hn' hn htag' htag
      obtain rfl := hd.distinct.eq hn hn'
      exact ⟨[x], hview, hfit, trivial⟩
    rintro ⟨vs, hview, hfit⟩
    match tys, vs with
    | [ty], [x] => exact ⟨name, ty, x, hview, hn, htag, hfit.1⟩
    | [], _ => exact hfit.elim
    | _ :: _, [] => exact hfit.elim
    | _ :: _ :: _, [_] => exact hfit.2.elim
    | [_], _ :: _ :: _ => exact hfit.2.elim
    | _ :: _ :: _, _ :: _ :: _ => exact hfit.2.elim
  · constructor
    · rintro ⟨name', tys', vs, hview, hn', hdisp, hfit⟩
      obtain rfl := ctorDisplay_inj hn' hn hdisp
      obtain rfl := hd.distinct.eq hn hn'
      exact ⟨vs, hview, hfit⟩
    · rintro ⟨vs, hview, hfit⟩
      exact ⟨name, tys, vs, hview, hn, rfl, hfit⟩

/-! ## Nothing that fits the witness is covered -/

/-- The search stopped at its depth limit on the way to the witness it returned. -/
def depthCapHit (t : Tables) (left : Nat) (rows : List (List (Pat String))) (doms : List Dom) :
    Bool :=
  match left with
  | 0 => !rows.isEmpty
  | left + 1 =>
    if rows.isEmpty then false
    else
      match doms with
      | [] => false
      | dom :: rest =>
        if dom.complete (heads rows) then
          match dom.ctors.find? fun c =>
              (exhWitnessRec t left (specialize rows c.1 c.2.length)
                (c.2.map (domOfTy t) ++ rest)).isSome with
          | some c =>
            depthCapHit t left (specialize rows c.1 c.2.length) (c.2.map (domOfTy t) ++ rest)
          | none => false
        else depthCapHit t left (defaultMatrix rows) rest

theorem depthCapHit_cons (left) (h : rows ≠ []) (d ds) : depthCapHit t (left + 1) rows (d :: ds) =
      if d.complete (heads rows) then
        match d.ctors.find? fun c =>
            (exhWitnessRec t left (specialize rows c.1 c.2.length)
              (c.2.map (domOfTy t) ++ ds)).isSome with
        | some c =>
          depthCapHit t left (specialize rows c.1 c.2.length) (c.2.map (domOfTy t) ++ ds)
        | none => false
      else depthCapHit t left (defaultMatrix rows) ds := by
  rw [depthCapHit, if_neg (by simpa using h)]

/-- The constructor a search went down, and what it found there. -/
theorem findSome?_map_eq_some {α β γ : Type} {f : α → Option β} {g : α → β → γ} {l : List α} {c : γ}
    (h : l.findSome? (fun a => (f a).map (g a)) = some c) :
    ∃ a b, a ∈ l ∧ l.find? (fun a => (f a).isSome) = some a ∧ f a = some b ∧ c = g a b := by
  induction l with
  | nil => cases h
  | cons x l ih =>
    rw [findSome?_cons] at h
    cases hx : f x with
    | some b =>
      rw [hx] at h
      refine ⟨x, b, mem_cons_self, ?_, hx, (some.inj h).symm⟩
      rw [find?_cons, hx]
      rfl
    | none =>
      rw [hx] at h
      obtain ⟨a, b, ha, hfind, hfa, hc⟩ := ih h
      refine ⟨a, b, .tail _ ha, ?_, hfa, hc⟩
      rw [find?_cons, hx]
      exact hfind

theorem FitsAll.take_drop (h : FitsAll t (ws.take ds.length) ds us)
    (h' : FitsAll t (ws.drop ds.length) ds' vs) :
    FitsAll t ws (ds ++ ds') (us ++ vs) := by
  rw [← take_append_drop ds.length ws]
  exact h.append h'

/-- A row matrix that names a constructor of no domain value has wildcards only. -/
theorem heads_nil_of_unbounded (hr : RowsOk t rows (d :: ds)) (hd : d.ctors = []) (n) :
    n ∉ heads rows := by
  intro hn
  obtain ⟨args, rest, hrow⟩ := mem_heads.mp hn
  obtain ⟨tys, hm, -⟩ := (hr _ hrow).1
  rw [hd] at hm
  cases hm

/-- What `missingWit` names: a constructor that heads no row, or nothing where the
    domain has no constructors. -/
theorem missingWit_cases {used} (h : d.complete used = false) :
    (d.ctors = [] ∧ missingWit d used = .wild) ∨ ∃ name tys, (name, tys) ∈ d.ctors ∧ name ∉ used ∧
        missingWit d used = witCtor d name (tys.map fun _ => .wild) := by
  unfold missingWit
  split
  · next c hfind =>
    have hc := find?_some hfind
    exact .inr ⟨c.1, c.2, mem_of_find?_eq_some hfind, by simpa using hc, rfl⟩
  next hfind =>
  refine .inl ⟨?_, rfl⟩
  by_contra hne
  have hcomplete : d.complete used = true := Dom.complete_iff.mpr ⟨hne, fun c hc => by
    simpa using find?_eq_none.mp hfind c hc⟩
  rw [h] at hcomplete
  cases hcomplete

/-- **No row covers what fits the witness.** -/
theorem not_covered_of_witness {left} (hw : exhWitnessRec t left rows ds = some ws)
    (hcap : depthCapHit t left rows ds = false) (hr : RowsOk t rows ds) (hd : ∀ d ∈ ds, d.Good)
    (hfit : FitsAll t ws ds vs) : ¬ Covered view rows vs := by
  induction left generalizing rows ds ws vs with
  | zero =>
    rintro ⟨row, hrow, -⟩
    have hnil : rows = [] := by simpa [depthCapHit] using hcap
    rw [hnil] at hrow
    cases hrow
  | succ left ih =>
    by_cases hne : rows = []
    · rintro ⟨row, hrow, -⟩
      rw [hne] at hrow
      cases hrow
    cases ds with
    | nil =>
      rw [exhWitnessRec_nil left hne] at hw
      cases hw
    | cons d ds =>
      obtain ⟨hd0, hds⟩ := forall_mem_cons.mp hd
      rw [exhWitnessRec_cons left hne] at hw
      rw [depthCapHit_cons left hne] at hcap
      split at hw
      · next hcomplete =>
        -- the witness goes down one constructor, and the value has that one
        rw [if_pos hcomplete] at hcap
        obtain ⟨⟨name, tys⟩, w, hmem, hfind, hdown, rfl⟩ := findSome?_map_eq_some hw
        rw [hfind] at hcap
        match vs with
        | [] => exact hfit.elim
        | v :: vs =>
          obtain ⟨us, hview, hus⟩ := (fits_witCtor hd0 hmem).mp hfit.1
          have hlen : us.length = tys.length := by rw [hus.length.2, length_map]
          rw [← covered_specialize_iff hr hd0.distinct hmem hview hlen]
          refine ih hdown hcap (hr.specialize hd0.distinct hmem) ?_ ?_
          · exact forall_mem_append.mpr ⟨forall_mem_map.mpr fun ty _ => domOfTy_good t ty, hds⟩
          refine FitsAll.take_drop ?_ ?_
          · rw [length_map]
            exact hus
          · rw [length_map]
            exact hfit.2
      · next hcomplete =>
        -- the value has a constructor that heads no row
        rw [if_neg hcomplete] at hcap
        obtain ⟨w, hrest, rfl⟩ := map_eq_some_iff.mp hw
        match vs with
        | [] => exact hfit.elim
        | v :: vs =>
          rw [← covered_defaultMatrix view (v := v)]
          · exact ih hrest hcap hr.defaultMatrix hds hfit.2
          intro n us hview
          obtain ⟨hnil, -⟩ | ⟨name, tys, hmem, hunused, hwit⟩ :=
            missingWit_cases (Bool.eq_false_iff.mpr hcomplete)
          · exact heads_nil_of_unbounded hr hnil n
          rw [hwit] at hfit
          obtain ⟨us', hview', -⟩ := (fits_witCtor hd0 hmem).mp hfit.1
          rw [hview] at hview'
          obtain ⟨rfl, -⟩ := Prod.mk.inj (some.inj hview')
          exact hunused

/-! ## Something fits the witness -/

/-- A family of inferred, inhabited types that is closed under taking their values
    apart. -/
structure Closed (t : Tables) (K : Ty → Prop) : Prop where
  known : ∀ {ty : Ty}, K ty → ty ≠ .unknown
  inhabited : ∀ {ty : Ty}, K ty → ∃ v, HasTy t v ty
  parts : ∀ {ty : Ty}, K ty → ∀ {name : String} {tys : List Ty}, (name, tys) ∈ (domOfTy t ty).ctors →
    ∀ ty' ∈ tys, K ty'

/-- A column of the search: the values it stands for, and its domain. -/
structure Column (t : Tables) (K : Ty → Prop) (S : Value → Prop) (d : Dom) : Prop where
  good : d.Good
  inhabited : ∃ v, S v
  build : ∀ {name : String} {tys : List Ty} {us : List Value}, (name, tys) ∈ d.ctors →
    List.Forall₂ (HasTy t) us tys → ∃ v, S v ∧ view v = some (name, us)
  parts : ∀ {name : String} {tys : List Ty}, (name, tys) ∈ d.ctors → ∀ ty ∈ tys, K ty

/-- Every constructor of a type's domain builds values of the type. -/
theorem hasTy_build {ty name} (h : (name, tys) ∈ (domOfTy t ty).ctors)
    (hus : Forall₂ (HasTy t) us tys) : ∃ v, HasTy t v ty ∧ view v = some (name, us) := by
  obtain ⟨tys', rfl, hd⟩ | ⟨n, a, fs, rfl, hf, hd⟩ | ⟨rfl, hd⟩ | ⟨key, vmap, hk, hv, hd⟩ | hd :=
    domOfTy_cases t ty <;> rw [hd] at h
  · obtain ⟨rfl, rfl⟩ := Prod.mk.inj (mem_singleton.mp h)
    exact ⟨.tuple us, .tuple hus, rfl⟩
  · obtain ⟨rfl, rfl⟩ := Prod.mk.inj (mem_singleton.mp h)
    exact ⟨.struct name us, .struct hf hus, rfl⟩
  · simp only [Dom.ctors, mem_cons, Prod.mk.injEq, not_mem_nil, or_false] at h
    obtain ⟨rfl, rfl⟩ | ⟨rfl, rfl⟩ := h
    · cases hus
      exact ⟨.bool true, .bool true, rfl⟩
    · cases hus
      exact ⟨.bool false, .bool false, rfl⟩
  · exact ⟨.enum key name us, .enum hk hv (mem_sumDom.mp h) hus, rfl⟩
  · cases h

theorem Closed.column (hK : Closed t K) {ty} (h : K ty) :
    Column t K (fun v => HasTy t v ty) (domOfTy t ty) where
  good := domOfTy_good t ty
  inhabited := hK.inhabited h
  build := hasTy_build
  parts := hK.parts h

/-- Values for the slots of a constructor. -/
theorem Closed.fill (hK : Closed t K) (h : ∀ ty ∈ tys, K ty) : ∃ us, Forall₂ (HasTy t) us tys := by
  induction tys with
  | nil => exact ⟨[], .nil⟩
  | cons ty tys ih =>
    obtain ⟨hty, htys⟩ := forall_mem_cons.mp h
    obtain ⟨u, hu⟩ := hK.inhabited hty
    obtain ⟨us, hus⟩ := ih htys
    exact ⟨u :: us, .cons hu hus⟩

theorem fitsAll_wild {α : Type} (f) {as : List α} (h : vs.length = as.length) :
    FitsAll t (as.map fun _ => .wild) (as.map f) vs := by
  induction as generalizing vs with
  | nil =>
    obtain rfl := length_eq_zero_iff.mp h
    trivial
  | cons a as ih =>
    match vs with
    | v :: vs => exact ⟨trivial, ih (Nat.succ.inj h)⟩

theorem columns_inhabited (h : Forall₂ (Column t K) Ss ds) :
    ∃ vs, Forall₂ (fun S v => S v) Ss vs ∧ FitsAll t (ds.map fun _ => .wild) ds vs := by
  induction h with
  | nil => exact ⟨[], .nil, trivial⟩
  | cons hcol _ ih =>
    obtain ⟨v, hv⟩ := hcol.inhabited
    obtain ⟨vs, hvs, hfit⟩ := ih
    exact ⟨v :: vs, .cons hv hvs, trivial, hfit⟩

theorem Closed.columns_append (hK : Closed t K) (htys : ∀ ty ∈ tys, K ty)
    (h : Forall₂ (Column t K) Ss ds) :
    Forall₂ (Column t K) (tys.map (fun ty v => HasTy t v ty) ++ Ss)
      (tys.map (domOfTy t) ++ ds) := by
  induction tys with
  | nil => exact h
  | cons ty tys ih =>
    obtain ⟨hty, htys⟩ := forall_mem_cons.mp htys
    exact .cons (hK.column hty) (ih htys)

/-- Values for the columns of a constructor's slots and the columns after them. -/
theorem split_columns
    (h : Forall₂ (fun S v => S v) (tys.map (fun ty v => HasTy t v ty) ++ Ss) vs) :
    ∃ us vs', vs = us ++ vs' ∧ Forall₂ (HasTy t) us tys ∧ Forall₂ (fun S v => S v) Ss vs' := by
  induction tys generalizing vs with
  | nil => exact ⟨[], vs, rfl, .nil, h⟩
  | cons ty tys ih =>
    cases h with
    | cons hu hrest =>
      obtain ⟨us, vs', rfl, hus, hvs'⟩ := ih hrest
      exact ⟨_ :: us, vs', rfl, .cons hu hus, hvs'⟩

theorem FitsAll.split (hus : us.length = ds.length) (h : FitsAll t ws (ds ++ ds') (us ++ vs)) :
    FitsAll t (ws.take ds.length) ds us ∧ FitsAll t (ws.drop ds.length) ds' vs := by
  induction ds generalizing ws us with
  | nil =>
    obtain rfl := length_eq_zero_iff.mp hus
    exact ⟨trivial, h⟩
  | cons d ds ih =>
    match us, ws with
    | u :: us, w :: ws =>
      obtain ⟨h1, h2⟩ := ih (Nat.succ.inj hus) h.2
      exact ⟨⟨h.1, h1⟩, h2⟩
    | u :: us, [] => exact h.elim

/-- **Some values fit the witness**, whatever limits the search met. -/
theorem witness_inhabited (hK : Closed t K) {left} (hw : exhWitnessRec t left rows ds = some ws)
    (hcols : Forall₂ (Column t K) Ss ds) :
    ∃ vs, Forall₂ (fun S v => S v) Ss vs ∧ FitsAll t ws ds vs := by
  induction left generalizing rows ds ws Ss with
  | zero =>
    cases hw
    exact columns_inhabited hcols
  | succ left ih =>
    by_cases hne : rows = []
    · rw [hne, exhWitnessRec_empty] at hw
      cases hw
      exact columns_inhabited hcols
    cases hcols with
    | nil =>
      rw [exhWitnessRec_nil left hne] at hw
      cases hw
    | @cons S d Ss ds hcol hcols =>
      rw [exhWitnessRec_cons left hne] at hw
      split at hw
      · obtain ⟨⟨name, tys⟩, w, hmem, -, hdown, rfl⟩ := findSome?_map_eq_some hw
        obtain ⟨vs, hvs, hfit⟩ := ih hdown (hK.columns_append (hcol.parts hmem) hcols)
        obtain ⟨us, vs', rfl, hus, hvs'⟩ := split_columns hvs
        obtain ⟨v, hv, hview⟩ := hcol.build hmem hus
        have hlen : us.length = (tys.map (domOfTy t)).length := by
          rw [length_map, hus.length_eq]
        obtain ⟨h1, h2⟩ := hfit.split hlen
        rw [length_map] at h1 h2
        exact ⟨v :: vs', .cons hv hvs', (fits_witCtor hcol.good hmem).mpr ⟨us, hview, h1⟩, h2⟩
      · next hcomplete =>
        obtain ⟨w, hrest, rfl⟩ := map_eq_some_iff.mp hw
        obtain ⟨vs, hvs, hfit⟩ := ih hrest hcols
        obtain ⟨-, hwit⟩ | ⟨name, tys, hmem, -, hwit⟩ :=
          missingWit_cases (Bool.eq_false_iff.mpr hcomplete)
        · obtain ⟨v, hv⟩ := hcol.inhabited
          rw [hwit]
          exact ⟨v :: vs, .cons hv hvs, trivial, hfit⟩
        obtain ⟨us, hus⟩ := hK.fill (hcol.parts hmem)
        obtain ⟨v, hv, hview⟩ := hcol.build hmem hus
        rw [hwit]
        exact ⟨v :: vs, .cons hv hvs, (fits_witCtor hcol.good hmem).mpr
          ⟨us, hview, fitsAll_wild _ hus.length_eq⟩, hfit⟩

end ChezziLang.Checker.Exhaust
