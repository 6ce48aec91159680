/-
  Lowering a pattern into rows keeps its meaning.

  Proved:
  * `exhLower_patOk`: the rows use the constructors of their domain.
  * `matchPat_of_lower`: a value that a lowered row covers is matched by the pattern
    the row came from, so a pattern covers no more than it matches.
-/
import ChezziLang.Checker.ExhaustSound
import ChezziLang.Lib.Roster

namespace ChezziLang.Checker.Exhaust

open Lib.PatMatrix Lib.Roster List Option

variable {t : Tables} {res : Resolutions}

/-! ## Lowered rows fit their domain -/

/-- The combinations of one alternative from each column, after those already made. -/
theorem mem_combos {columns combos out} (h : columns.foldlM exhStep combos = some out) {row} :
    row ∈ out ↔ ∃ combo ∈ combos, ∃ args, Forall₂ (· ∈ ·) args columns ∧ row = combo ++ args := by
  induction columns generalizing combos with
  | nil =>
    cases h
    constructor
    · exact fun hrow => ⟨row, hrow, [], .nil, (append_nil row).symm⟩
    · rintro ⟨combo, hc, args, hargs, rfl⟩
      cases hargs
      rwa [append_nil]
  | cons alts columns ih =>
    rw [foldlM_cons, exhStep] at h
    split at h
    · cases h
    rw [ih h]
    constructor
    · rintro ⟨combo, hc, args, hargs, rfl⟩
      obtain ⟨combo', hc', ha⟩ := mem_flatMap.mp hc
      obtain ⟨alt, halt, rfl⟩ := mem_map.mp ha
      exact ⟨combo', hc', alt :: args, .cons halt hargs, by simp⟩
    rintro ⟨combo, hc, args, hargs, rfl⟩
    cases hargs with
    | @cons alt _ args _ halt hargs =>
      refine ⟨combo ++ [alt], ?_, args, hargs, by simp⟩
      exact mem_flatMap.mpr ⟨combo, hc, mem_map.mpr ⟨alt, halt, rfl⟩⟩

variable {q : Pat String} {key v name variant : String} {vmap : List (String × List Ty)}
  {payload tys : List Ty} {ty : Ty} {ps : List Pattern} {en mn : Option String} {tag : CarrierTag}
  {d : Dom} {depth n : Nat} {id : NodeId}

theorem mem_exhProduct {ctor columns} (h : q ∈ exhProduct ctor columns) (hne : q ≠ .never) :
    ∃ args, q = .ctor ctor args ∧ Forall₂ (· ∈ ·) args columns := by
  unfold exhProduct at h
  split at h
  · next combos hcombos =>
    obtain ⟨args, hargs, rfl⟩ := mem_map.mp h
    obtain ⟨combo, hc, args', hargs', rfl⟩ := (mem_combos hcombos).mp hargs
    obtain rfl := mem_singleton.mp hc
    exact ⟨_, rfl, hargs'⟩
  · exact absurd (mem_singleton.mp h) hne

theorem mem_capDepth {rows} (h : q ∈ capDepth depth rows) (hne : q ≠ .never) : q ∈ rows := by
  unfold capDepth at h
  split at h
  · exact absurd (mem_singleton.mp h) hne
  · exact h

theorem mem_lowerIdent (h : q ∈ lowerIdent t name d) (hne : q ≠ .never) :
    (q = .wild ∧ (t.bareName name).isVariant = false) ∨
      ∃ key variant, t.importedVariants name = some (key, variant) ∧ (variant, []) ∈ d.ctors ∧
        q = .ctor variant [] := by
  revert h
  fun_cases lowerIdent t name d with
  | case1 _ members _ key variant hi hany =>
    intro h
    obtain ⟨⟨n, tys⟩, hm, hn⟩ := any_eq_true.mp hany
    simp only [Bool.and_eq_true, beq_iff_eq, List.isEmpty_iff] at hn
    obtain ⟨rfl, rfl⟩ := hn
    exact .inr ⟨key, _, hi, hm, mem_singleton.mp h⟩
  | case2 | case3 => exact fun h => absurd (mem_singleton.mp h) hne
  | case4 _ hb => exact fun h => .inl ⟨mem_singleton.mp h, by simpa using hb⟩

theorem mem_lowerLiteral {lit} (h : q ∈ lowerLiteral lit d) (hne : q ≠ .never) :
    ∃ b, lit = .bool b ∧ d = .bool ∧ q = .ctor (if b then "true" else "false") [] := by
  unfold lowerLiteral at h
  split at h
  · exact ⟨_, rfl, rfl, mem_singleton.mp h⟩
  · exact absurd (mem_singleton.mp h) hne

theorem carrierMember_mem {m} (h : carrierMember tag d = some m) :
    m ∈ d.ctors ∧ m.2.length = 1 ∧ ∃ key, carrierVariantOfKey tag key = some m.1 := by
  cases d with
  | sum display members carrier =>
    obtain ⟨v, hv, hfind⟩ := exists_of_findSome?_eq_some h
    obtain ⟨key, -, hkey⟩ := mem_filterMap.mp hv
    have hm := find?_some hfind
    simp only [Bool.and_eq_true, beq_iff_eq] at hm
    exact ⟨mem_of_find?_eq_some hfind, hm.2, key, hm.1 ▸ hkey⟩
  | prod | bool | unbounded => cases h

theorem mem_lowerCarrier {inner} (h : q ∈ lowerCarrier tag d inner) (hne : q ≠ .never) :
    ∃ vname ty a, carrierMember tag d = some (vname, [ty]) ∧ a ∈ inner ty ∧
      q = .ctor vname [a] := by
  unfold lowerCarrier at h
  split at h
  · next vname ty tys hm =>
    obtain rfl : tys = [] := by simpa using (carrierMember_mem hm).2.1
    obtain ⟨args, rfl, hargs⟩ := mem_exhProduct h hne
    cases hargs with
    | cons ha hnil =>
      cases hnil
      exact ⟨vname, ty, _, hm, ha, rfl⟩
  · exact absurd (mem_singleton.mp h) hne

theorem mem_lowerTuple {columns} (h : q ∈ lowerTuple n d columns) (hne : q ≠ .never) :
    ∃ tys args, d = .prod "" tys ∧ tys.length = n ∧
      Forall₂ (· ∈ ·) args (columns tys) ∧ q = .ctor "" args := by
  revert h
  fun_cases lowerTuple n d columns with
  | case1 label tys hc =>
    intro h
    simp only [Bool.and_eq_true, beq_iff_eq] at hc
    obtain ⟨rfl, hlen⟩ := hc
    obtain ⟨args, rfl, hargs⟩ := mem_exhProduct h hne
    exact ⟨_, args, rfl, hlen, hargs, rfl⟩
  | case2 | case3 => exact fun h => absurd (mem_singleton.mp h) hne

/-- The catch-all that a bare head stands for. -/
def IsCatchAll (t : Tables) (name : String) (en mn : Option String) (n : Nat) : Prop :=
  en = none ∧ mn = none ∧ n = 0 ∧ (t.bareName name).isVariant = false

theorem mem_lowerOther (h : q ∈ lowerOther t name en mn n) (hne : q ≠ .never) :
    q = .wild ∧ IsCatchAll t name en mn n := by
  unfold lowerOther at h
  split at h
  · next hc =>
    simp only [Bool.and_eq_true, isNone_iff_eq_none, beq_iff_eq, Bool.not_eq_true'] at hc
    exact ⟨mem_singleton.mp h, hc.1.1.1, hc.1.1.2, hc.1.2, hc.2⟩
  · exact absurd (mem_singleton.mp h) hne

/-- What a head that lowers to a constructor names: the struct, or its own variant. -/
def NamesCtor (t : Tables) (name : String) (en mn : Option String) (ctor : String) : Dom → Prop
  | .prod label _ => label ≠ "" ∧ t.structCtor label name en mn = true ∧ ctor = label
  | .sum _ _ _ => ctor = bareVariantName t (en.isNone && mn.isNone) name
  | _ => False

theorem mem_lowerVariant {columns} (h : q ∈ lowerVariant t name en mn n d columns)
    (hne : q ≠ .never) : (q = .wild ∧ IsCatchAll t name en mn n) ∨
      ∃ ctor tys args, NamesCtor t name en mn ctor d ∧ (ctor, tys) ∈ d.ctors ∧ tys.length = n ∧
        Forall₂ (· ∈ ·) args (columns tys) ∧ q = .ctor ctor args := by
  revert h
  fun_cases lowerVariant t name en mn n d columns with
  | case1 | case5 | case6 | case7 => exact fun h => .inl (mem_lowerOther h hne)
  | case2 label tys hlabel hc =>
    intro h
    simp only [Bool.and_eq_true, beq_iff_eq] at hc
    obtain ⟨args, rfl, hargs⟩ := mem_exhProduct h hne
    exact .inr ⟨label, tys, args, ⟨by simpa using hlabel, hc.1, rfl⟩, mem_singleton_self _, hc.2,
      hargs, rfl⟩
  | case3 => exact fun h => absurd (mem_singleton.mp h) hne
  | case4 _ members _ vname tys hfind hlen =>
    intro h
    obtain ⟨args, rfl, hargs⟩ := mem_exhProduct h hne
    have hname := find?_some hfind
    exact .inr ⟨vname, tys, args, by simpa [NamesCtor] using hname, mem_of_find?_eq_some hfind,
      by simpa using hlen, hargs, rfl⟩

theorem mem_exhAlts : q ∈ exhAlts t ps d depth ↔ ∃ p ∈ ps, q ∈ exhLower t p d (depth + 1) := by
  induction ps with
  | nil => simp [exhAlts]
  | cons p ps ih => simp [exhAlts, ih]

theorem patOk_of_ne (h : q ≠ .never → PatOk t q d) : PatOk t q d := by
  by_cases hne : q = .never
  · rw [hne]
    trivial
  · exact h hne

/-- A row of one alternative from each column, when the columns fit. -/
theorem rowOk_of_columns {args} (hlen : tys.length = ps.length)
    (ih : ∀ p ∈ ps, ∀ (d : Dom) (depth : Nat), ∀ q ∈ exhLower t p d depth, q ≠ .never →
      PatOk t q d) (h : Forall₂ (· ∈ ·) args (exhColumns t ps tys depth)) :
    RowOk t args (tys.map (domOfTy t)) := by
  induction ps generalizing tys args with
  | nil =>
    obtain rfl := length_eq_zero_iff.mp hlen
    cases h
    trivial
  | cons p ps ihs =>
    cases tys with
    | nil => cases hlen
    | cons ty tys =>
      cases h with
      | cons harg hargs =>
        exact ⟨patOk_of_ne (ih p mem_cons_self _ _ _ harg),
          ihs (Nat.succ.inj hlen) (forall_mem_cons.mp ih).2 hargs⟩

/-- **Lowered rows use the constructors of their domain.** -/
theorem exhLower_patOk (p) :
    ∀ (d : Dom) (depth : Nat), ∀ q ∈ exhLower t p d depth, q ≠ .never → PatOk t q d := by
  induction p using Pattern.induction with
    (intro d depth q hq hne
     have hq := mem_capDepth hq hne)
  | wildcard | range =>
    obtain rfl := mem_singleton.mp hq
    trivial
  | ident name id =>
    obtain ⟨rfl, -⟩ | ⟨key, variant, -, hm, rfl⟩ := mem_lowerIdent hq hne
    · trivial
    · exact ⟨[], hm, trivial⟩
  | literal lit =>
    obtain ⟨b, rfl, rfl, rfl⟩ := mem_lowerLiteral hq hne
    exact ⟨[], by cases b <;> simp [Dom.ctors], trivial⟩
  | tuple subs ih =>
    obtain ⟨tys, args, rfl, hlen, hargs, rfl⟩ := mem_lowerTuple hq hne
    exact ⟨tys, mem_singleton_self _, rowOk_of_columns hlen ih hargs⟩
  | variant name id bindings en mn ih =>
    obtain ⟨rfl, -⟩ | ⟨ctor, tys, args, -, hm, hlen, hargs, rfl⟩ :=
      mem_lowerVariant hq hne
    · trivial
    · exact ⟨tys, hm, rowOk_of_columns hlen ih hargs⟩
  | carrier tag inner id ih =>
    obtain ⟨vname, ty, a, hm, ha, rfl⟩ := mem_lowerCarrier hq hne
    exact ⟨[ty], (carrierMember_mem hm).1, patOk_of_ne (ih _ _ _ ha), trivial⟩
  | or alts ih =>
    obtain ⟨p, hp, hq⟩ := mem_exhAlts.mp hq
    exact ih p hp d _ q hq hne

/-! ## What is covered is matched -/

/-- An accepted head that names a struct type. -/
structure StructHead (t : Tables) (res : Resolutions) (name id en mn n) (sub : List Ty → Bound)
    (sname targs fields) : Prop where
  declared : t.structFields sname targs = some fields
  ctor : t.structCtor sname name en mn = true
  ok : (sub fields).ok = true
  length : fields.length = n
  resolved : res id = some (.patStruct sname)

/-- An accepted head that names a variant of the enum type `ty`. -/
structure EnumHead (t : Tables) (res : Resolutions) (bare name id n) (sub : List Ty → Bound)
    (ty : Ty) (key vmap variant payload) : Prop where
  enumKey : ty.enumKey = some key
  variants : t.variantsOf ty = some vmap
  names : t.patternVariantName bare name (some key) = some variant
  found : vmap.lookup variant = some payload
  ok : (sub payload).ok = true
  length : payload.length = n
  resolved : res id = some (.variant key variant)

theorem bindVariant_ok {sub} (h : (bindVariant t res name id en mn n sub ty).ok = true) :
    (∃ sname targs fields, ty = .struct sname targs ∧
      StructHead t res name id en mn n sub sname targs fields) ∨
    ∃ key vmap variant payload,
      EnumHead t res (en.isNone && mn.isNone) name id n sub ty key vmap variant payload := by
  unfold bindVariant at h
  split at h
  · next fields sname targs hf =>
    split at h
    · next hc =>
      simp only [Bool.and_eq_true, beq_iff_eq] at h
      exact .inl ⟨sname, targs, fields, rfl, hf, hc, h.1.1, h.1.2, h.2⟩
    · cases h
  · split at h
    · cases h
    split at h
    · next vmap key variant hv hk hp =>
      split at h
      · next payload hl =>
        simp only [Bool.and_eq_true, beq_iff_eq] at h
        rw [hk] at hp
        exact .inr ⟨key, vmap, variant, payload, hk, hv, hp, hl, h.1.1, h.1.2, h.2⟩
      · cases h
    · cases h

/-- A head names the same variant for the checker and for the lowering. -/
theorem patternVariantName_eq {bare ekey} (h : t.patternVariantName bare name ekey = some v) :
    v = bareVariantName t bare name := by
  unfold Tables.patternVariantName at h
  unfold bareVariantName
  cases hi : t.importedVariants name with
  | none =>
    rw [hi] at h
    simp only [filter_none] at h
    split at h
    · cases h
    · exact (some.inj h).symm
  | some iv =>
    rw [hi] at h
    cases bare with
    | true =>
      simp only [filter_some, if_true] at h ⊢
      split at h
      · exact (some.inj h).symm
      · cases h
    | false => simpa using h.symm

theorem variantsOf_nodup (h : t.variantsOf ty = some vmap) : (vmap.map Prod.fst).Nodup := by
  obtain ⟨e, -, he⟩ := bind_eq_some_iff.mp h
  exact t.variants_nodup he

theorem ne_never {v} (h : covers view q v = true) : q ≠ .never := by
  rintro rfl
  simp [covers] at h

/-- The rows of a pattern cover no more than it matches. -/
def LowerSound (t : Tables) (res : Resolutions) (p : Pattern) : Prop :=
  ∀ (ty : Ty) (depth : Nat) (v : Value), (bindSubpattern t res p ty).ok = true → HasTy t v ty →
    ∀ q ∈ exhLower t p (domOfTy t ty) depth, covers view q v = true → (matchPat res p v).isSome

/-- The columns of some sub-patterns cover no more than the sub-patterns match. -/
def ColumnsSound (t : Tables) (res : Resolutions) (ps : List Pattern) : Prop :=
  ∀ (tys : List Ty) (depth : Nat) (vs : List Value) (args : List (Pat String)),
    tys.length = ps.length → (bindAll t res ps tys).ok = true → Forall₂ (HasTy t) vs tys →
    Forall₂ (· ∈ ·) args (exhColumns t ps tys depth) → coversAll view args vs = true →
    (matchAll res ps vs).isSome

theorem columnsSound (ih : ∀ p ∈ ps, LowerSound t res p) : ColumnsSound t res ps := by
  intro tys depth vs args hlen hok hvs hargs hcov
  induction ps generalizing tys args vs with
  | nil =>
    obtain rfl := length_eq_zero_iff.mp hlen
    cases hvs
    rfl
  | cons p ps ihs =>
    cases hvs with
    | nil => cases hlen
    | @cons v ty vs tys hv hvs =>
      cases hargs with
      | @cons a _ args _ ha hargs =>
        rw [bindAll, Bound.both, Bool.and_eq_true] at hok
        rw [coversAll, Bool.and_eq_true] at hcov
        have hhead := ih p mem_cons_self ty _ v hok.1 hv a ha hcov.1
        have htail := ihs (forall_mem_cons.mp ih).2 tys vs args
          (Nat.succ.inj hlen) hok.2 hvs hargs hcov.2
        obtain ⟨bs, hbs⟩ := isSome_iff_exists.mp hhead
        rw [matchAll, hbs, bind_some, isSome_map]
        exact htail

theorem domOfTy_struct {targs fields} (h : t.structFields name targs = some fields) :
    domOfTy t (.struct name targs) = .prod name fields := by
  simp only [domOfTy, Tables.structFieldsOf, h]

theorem domOfTy_enum (hk : ty.enumKey = some key) (hv : t.variantsOf ty = some vmap) :
    domOfTy t ty = sumDom t key vmap := by
  obtain ⟨a, rfl⟩ | ⟨a, e, rfl⟩ | ⟨a, rfl⟩ := asEnum_cases hk <;> simp only [domOfTy, hk, hv]

/-- A catch-all name names no variant. -/
theorem patternVariantName_catchAll {ekey} (h : IsCatchAll t name en mn n) :
    t.patternVariantName (en.isNone && mn.isNone) name ekey = none := by
  obtain ⟨rfl, rfl, -, hb⟩ := h
  unfold Tables.bareName at hb
  unfold Tables.patternVariantName
  split at hb
  · cases hb
  next hi =>
  split at hb
  · cases hb
  · next ho => simp [hi, ho]

theorem lookup_eq_of_mem (hn : (vmap.map Prod.fst).Nodup) (hl : vmap.lookup v = some payload)
    (hm : (v, tys) ∈ vmap) : tys = payload :=
  congrArg Prod.snd (inj_on_of_nodup_map hn hm (mem_of_lookup hl) rfl)

section
variable {bindings : List Pattern} {v : Value}

theorem matchPat_struct_head {sname targs fields} (hsub : ColumnsSound t res bindings)
    (h : StructHead t res name id en mn bindings.length (bindAll t res bindings) sname targs fields)
    (hv : HasTy t v (.struct sname targs))
    (hq : q ∈ lowerVariant t name en mn bindings.length (.prod sname fields)
      fun tys => exhColumns t bindings tys depth) (hcov : covers view q v = true) :
    (matchPat res (.variant name id bindings en mn) v).isSome := by
  obtain ⟨vs, rfl, hvs⟩ := hasTy_struct h.declared hv
  simp only [matchPat, h.resolved, Value.fields, if_true, bind_some]
  obtain ⟨rfl, -, -, hn, -⟩ | ⟨ctor, tys, args, -, hm, -, hargs, rfl⟩ :=
    mem_lowerVariant hq (ne_never hcov)
  · -- a struct without fields, spelled without parentheses
    obtain rfl := length_eq_zero_iff.mp hn
    obtain rfl := length_eq_zero_iff.mp h.length
    cases hvs
    rfl
  · obtain ⟨rfl, rfl⟩ := Prod.mk.inj (mem_singleton.mp hm)
    rw [covers_ctor view rfl, Bool.and_eq_true] at hcov
    exact hsub _ _ _ _ h.length h.ok hvs hargs hcov.2

/-- A value of the enum that a row of the variant covers is that variant, with its payload. -/
theorem EnumHead.covered {bare sub args}
    (h : EnumHead t res bare name id n sub ty key vmap variant payload) (hv : HasTy t v ty)
    (hcov : covers view (.ctor variant args) v = true) :
    ∃ vs, v = .enum key variant vs ∧ Forall₂ (HasTy t) vs payload ∧ coversAll view args vs = true := by
  obtain ⟨w, tys', vs, rfl, hw, hvs⟩ := hasTy_enum h.enumKey h.variants hv
  rw [covers_ctor view rfl, Bool.and_eq_true, decide_eq_true_iff] at hcov
  obtain ⟨rfl, hcov⟩ := hcov
  obtain rfl := lookup_eq_of_mem (variantsOf_nodup h.variants) h.found hw
  exact ⟨vs, rfl, hvs, hcov⟩

theorem matchPat_enum_head (hsub : ColumnsSound t res bindings)
    (h : EnumHead t res (en.isNone && mn.isNone) name id bindings.length (bindAll t res bindings) ty
      key vmap variant payload) (hv : HasTy t v ty)
    (hq : q ∈ lowerVariant t name en mn bindings.length (sumDom t key vmap)
      fun tys => exhColumns t bindings tys depth)
    (hcov : covers view q v = true) :
    (matchPat res (.variant name id bindings en mn) v).isSome := by
  obtain ⟨rfl, hcatch⟩ | ⟨ctor, tys, args, hnames, hm, -, hargs, rfl⟩ :=
    mem_lowerVariant hq (ne_never hcov)
  · cases (patternVariantName_catchAll hcatch).symm.trans h.names
  obtain rfl : ctor = variant := hnames.trans (patternVariantName_eq h.names).symm
  obtain rfl := lookup_eq_of_mem (variantsOf_nodup h.variants) h.found (mem_sumDom.mp hm)
  obtain ⟨vs, rfl, hvs, hcov⟩ := h.covered hv hcov
  simp only [matchPat, h.resolved, Value.payload, and_self, if_true, bind_some]
  exact hsub _ _ _ _ h.length h.ok hvs hargs hcov

end

theorem carrierTagOfVariant_of_key (h : carrierVariantOfKey tag key = some v) :
    carrierTagOfVariant v = some tag := by
  unfold carrierVariantOfKey at h
  split at h
  · cases h; decide
  · cases h; decide
  · cases h; decide
  · cases h

theorem carrierVariant_some (h : carrierVariant tag ty = some (key, v)) :
    ty.enumKey = some key ∧ (key = "Option" ∨ key = "Result") ∧
      carrierVariantOfKey tag key = some v := by
  unfold carrierVariant at h
  split at h
  · obtain ⟨v', hv', he⟩ := map_eq_some_iff.mp h
    cases he
    exact ⟨rfl, .inl rfl, hv'⟩
  · obtain ⟨v', hv', he⟩ := map_eq_some_iff.mp h
    cases he
    exact ⟨rfl, .inr rfl, hv'⟩
  · cases h

/-- The variant a `?` or `!` head means is the same, read off the type or its domain. -/
theorem carrierMember_eq {m} (hc : carrierVariant tag ty = some (key, v))
    (hvm : t.variantsOf ty = some vmap) (hm : carrierMember tag (sumDom t key vmap) = some m) :
    m.1 = v := by
  obtain ⟨hmem, -, key', hkey'⟩ := carrierMember_mem hm
  obtain ⟨hk, hcar, hv⟩ := carrierVariant_some hc
  obtain ⟨⟨k, targs⟩, he, hvars⟩ := bind_eq_some_iff.mp hvm
  have hke : k = key := by
    rw [Ty.enumKey, he] at hk
    exact some.inj hk
  subst hke
  have := t.carrier_members hcar hvars (mem_sumDom.mp hmem) (carrierTagOfVariant_of_key hkey')
  exact some.inj (this.symm.trans hv)

/-- The private name of a carrier's variant names that variant. -/
theorem patternVariantName_private (hc : carrierVariantOfKey tag key = some v)
    (h : t.patternVariantName true (privateName v) (some key) = some variant) : variant = v := by
  have hname := patternVariantName_eq h
  rw [bareVariantName, t.carrier_imported hc] at hname
  exact hname

theorem matchFirst_isSome {v} :
    (matchFirst res ps v).isSome ↔ ∃ p ∈ ps, (matchPat res p v).isSome := by
  induction ps with
  | nil => simp [matchFirst]
  | cons p ps ih => simp [matchFirst, isSome_or, ih]

theorem enforceOr_ok {bs} (h : (enforceOr t bs).ok = true) : ∀ b ∈ bs, b.ok = true := by
  cases bs with
  | nil => intro b hb; cases hb
  | cons first others =>
    rw [enforceOr, Bool.and_eq_true] at h
    exact all_eq_true.mp h.1

theorem enforceOr_irref {bs} (h : (enforceOr t bs).irref = false) : ∀ b ∈ bs, b.irref = false := by
  cases bs with
  | nil => intro b hb; cases hb
  | cons first others =>
    intro b hb
    exact Bool.eq_false_iff.mpr (any_eq_false.mp h b hb)

theorem mem_bindAlternatives {p} (h : p ∈ ps) :
    bindSubpattern t res p ty ∈ bindAlternatives t res ps ty := by
  induction ps with
  | nil => cases h
  | cons q ps ih =>
    rcases mem_cons.mp h with rfl | h
    · exact mem_cons_self
    · exact .tail _ (ih h)

theorem bindPatternName_ok (h : (bindPatternName t res id name ty).ok = true) :
    res id = some .patBinding := by
  unfold bindPatternName at h
  split at h
  · cases h
  · exact eq_of_beq h

theorem bareName_imported :
    t.bareName name = .imported key variant ↔ t.importedVariants name = some (key, variant) := by
  unfold Tables.bareName
  constructor
  · intro h
    split at h
    · next hi => cases h; exact hi
    · split at h
      · cases h
      · split at h <;> cases h
  · intro h
    rw [h]

/-- An accepted name is a nullary variant of the slot's type, a binding, or a variant
    over a slot of un-inferable type. -/
theorem bindIdent_ok (h : (bindIdent t res name id ty).ok = true) :
    (∃ key variant vmap, t.importedVariants name = some (key, variant) ∧ ty.enumKey = some key ∧
      t.variantsOf ty = some vmap ∧ vmap.lookup variant = some [] ∧
      res id = some (.variant key variant)) ∨
    (ty = .unknown ∧ (t.bareName name).isVariant = true) ∨
    (t.bareName name = .binder ∧ res id = some .patBinding) := by
  have hunknown : ty.isUnknown = true → ty = .unknown := by
    cases ty <;> simp [Ty.isUnknown]
  revert h
  fun_cases bindIdent t res name id ty with
  | case1 key variant hb payload hl hk =>
    intro h
    obtain ⟨vmap, hv, hl⟩ := bind_eq_some_iff.mp hl
    simp only [Bool.and_eq_true, List.isEmpty_iff, beq_iff_eq] at h
    obtain ⟨rfl, hres⟩ := h
    exact .inl ⟨key, variant, vmap, bareName_imported.mp hb, hk, hv, hl, hres⟩
  | case3 key variant hb _ _ _ hu | case5 key variant hb _ hu =>
    exact fun _ => .inr (.inl ⟨hunknown (by simpa using hu), by rw [hb]; rfl⟩)
  | case8 hb => exact fun h => .inr (.inr ⟨hb, bindPatternName_ok h⟩)
  | _ => exact fun h => absurd h Bool.false_ne_true

theorem bindTuple_ok {subs} (h : (bindSubpattern t res (.tuple subs) ty).ok = true) :
    ∃ tys, ty = .tuple tys ∧ tys.length = subs.length ∧ (bindAll t res subs tys).ok = true := by
  rw [bindSubpattern.eq_def] at h
  dsimp only at h
  split at h
  · simp only [Bool.and_eq_true, beq_iff_eq] at h
    exact ⟨_, rfl, h.1, h.2⟩
  · cases h

theorem eq_bool_of_domOfTy (h : domOfTy t ty = .bool) : ty = .bool := by
  obtain ⟨tys, -, hd⟩ | ⟨n, a, fs, -, -, hd⟩ | ⟨hb, -⟩ | ⟨key, vmap, -, -, hd⟩ | hd :=
    domOfTy_cases t ty
  · rw [hd] at h; cases h
  · rw [hd] at h; cases h
  · exact hb
  · rw [hd] at h; cases h
  · rw [hd] at h; cases h

/-- What the checker asks of the operand of a `?` or `!` head with this payload. -/
def bindOperand (t : Tables) (res : Resolutions) (inner : Pattern) (payload : List Ty) : Bound :=
  match payload with
  | [] => .blank
  | slot :: _ => bindSubpattern t res inner slot

/-- An accepted `?` or `!` head names a variant of a carrier type. -/
theorem bindCarrier_ok {inner} (h : (bindSubpattern t res (.carrier tag inner id) ty).ok = true) :
    ∃ key vname vmap variant payload, carrierVariant tag ty = some (key, vname) ∧
      EnumHead t res true (privateName vname) id 1 (bindOperand t res inner) ty key vmap variant
        payload := by
  rw [bindSubpattern] at h
  split at h
  · next key' vname hc =>
    have hk := (carrierVariant_some hc).1
    obtain ⟨sname, targs, fields, rfl, -⟩ | ⟨key, vmap, variant, payload, h⟩ := bindVariant_ok h
    · cases hk
    · obtain rfl := some.inj (hk.symm.trans h.enumKey)
      exact ⟨_, vname, vmap, variant, payload, hc, h⟩
  · cases h

theorem matchPat_carrier_head {inner vname v} (ih : LowerSound t res inner)
    (hc : carrierVariant tag ty = some (key, vname))
    (h : EnumHead t res true (privateName vname) id 1 (bindOperand t res inner) ty key vmap variant
      payload) (hv : HasTy t v ty)
    (hq : q ∈ lowerCarrier tag (sumDom t key vmap) fun ty => exhLower t inner (domOfTy t ty) depth)
    (hcov : covers view q v = true) : (matchPat res (.carrier tag inner id) v).isSome := by
  obtain ⟨-, -, hv'⟩ := carrierVariant_some hc
  obtain rfl := patternVariantName_private hv' h.names
  obtain ⟨name, ty', a, hm, ha, rfl⟩ := mem_lowerCarrier hq (ne_never hcov)
  obtain rfl : name = variant := carrierMember_eq hc h.variants hm
  obtain rfl := lookup_eq_of_mem (variantsOf_nodup h.variants) h.found
    (mem_sumDom.mp (carrierMember_mem hm).1)
  obtain ⟨vs, rfl, hvs, hcov⟩ := h.covered hv hcov
  cases hvs with
  | cons hx hnil =>
    cases hnil
    rw [coversAll, Bool.and_eq_true] at hcov
    simp only [matchPat, h.resolved, Value.payload, and_self, if_true]
    exact ih _ _ _ h.ok hx a ha hcov.1

/-- **A lowered row covers no value that its pattern does not match.** -/
theorem matchPat_of_lower (p) : LowerSound t res p := by
  induction p using Pattern.induction with
    (intro ty depth v hok hv q hq hcov
     have hne := ne_never hcov
     have hq := mem_capDepth hq hne)
  | wildcard => rfl
  | range =>
    obtain rfl := mem_singleton.mp hq
    simp [covers] at hcov
  | ident name id =>
    obtain ⟨rfl, hb⟩ | ⟨key, variant, hi, hm, rfl⟩ := mem_lowerIdent hq hne
    · -- a catch-all name is a binding
      obtain ⟨key, variant, -, hi, -⟩ | ⟨-, hvar⟩ | ⟨-, hres⟩ := bindIdent_ok hok
      · rw [bareName_imported.mpr hi] at hb
        cases hb
      · rw [hb] at hvar
        cases hvar
      · simp [matchPat, hres]
    · obtain ⟨key', variant', vmap, hi', hk, hvm, -, hres⟩ | ⟨rfl, -⟩ | ⟨hb, -⟩ := bindIdent_ok hok
      · obtain ⟨rfl, rfl⟩ := Prod.mk.inj (some.inj (hi.symm.trans hi'))
        obtain ⟨w, tys, vs, rfl, -, -⟩ := hasTy_enum hk hvm hv
        rw [covers_ctor view rfl, Bool.and_eq_true, decide_eq_true_iff] at hcov
        simp [matchPat, hres, Value.payload, hcov.1]
      · cases hm
      · rw [bareName_imported.mpr hi] at hb
        cases hb
  | literal lit =>
    obtain ⟨b, rfl, hd, rfl⟩ := mem_lowerLiteral hq hne
    obtain rfl := eq_bool_of_domOfTy hd
    obtain ⟨b', rfl⟩ := hasTy_bool hv
    rw [covers_ctor view rfl, Bool.and_eq_true, decide_eq_true_iff] at hcov
    obtain rfl : b' = b := by
      have hname := hcov.1
      revert hname
      cases b <;> cases b' <;> decide
    simp [matchPat, LitPattern.eq]
  | tuple subs ih =>
    obtain ⟨tys, args, hd, hlen, hargs, rfl⟩ := mem_lowerTuple hq hne
    obtain ⟨tys', rfl, -, hok⟩ := bindTuple_ok hok
    cases hd
    obtain ⟨vs, rfl, hvs⟩ := hasTy_tuple hv
    rw [covers_ctor view rfl, Bool.and_eq_true] at hcov
    exact columnsSound ih _ _ _ _ hlen hok hvs hargs hcov.2
  | variant name id bindings en mn ih =>
    rw [bindSubpattern] at hok
    obtain ⟨sname, targs, fields, rfl, h⟩ | ⟨key, vmap, variant, payload, h⟩ := bindVariant_ok hok
    · rw [domOfTy_struct h.declared] at hq
      exact matchPat_struct_head (columnsSound ih) h hv hq hcov
    · rw [domOfTy_enum h.enumKey h.variants] at hq
      exact matchPat_enum_head (columnsSound ih) h hv hq hcov
  | carrier tag inner id ih =>
    obtain ⟨key, vname, vmap, variant, payload, hc, h⟩ := bindCarrier_ok hok
    rw [domOfTy_enum h.enumKey h.variants] at hq
    exact matchPat_carrier_head ih hc h hv hq hcov
  | or alts ih =>
    obtain ⟨p, hp, hq⟩ := mem_exhAlts.mp hq
    refine matchFirst_isSome.mpr ⟨p, hp, ih p hp ty _ v ?_ hv q hq hcov⟩
    exact enforceOr_ok hok _ (mem_bindAlternatives hp)

end ChezziLang.Checker.Exhaust
