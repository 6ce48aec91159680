/-
  The witness that the exhaustiveness pass names, against the arms of the `match`.

  A literal or range sub-pattern lowers to `never`, as does whatever passes the depth
  or row limits, so the pass may name a witness that an arm does match.  Away from
  these the lowering is exact and the witness is right.

  Proved:
  * `lower_of_matchPat`: a value that a literal-free pattern matches is covered by one
    of its rows.
  * `witness_falls_through`: a value that fits the witness is matched by no unguarded
    arm, and there is one.
-/
import ChezziLang.Checker.ExhaustWitness

namespace ChezziLang.Checker.Exhaust

open Lib.PatMatrix Lib.Roster List Option

variable {t : Tables} {res : Resolutions} {G : Type}

/-! ## Where the lowering is exact -/

mutual

/-- No literal or range anywhere in the pattern, apart from `bool` literals. -/
def literalFree : Pattern → Bool
  | .literal (.bool _) => true
  | .literal _ => false
  | .range _ _ _ => false
  | .variant _ _ bindings _ _ => literalFreeAll bindings
  | .tuple subs => literalFreeAll subs
  | .or alts => literalFreeAll alts
  | .carrier _ inner _ => literalFree inner
  | .ident _ _ => true
  | .wildcard => true

def literalFreeAll : List Pattern → Bool
  | [] => true
  | p :: ps => literalFree p && literalFreeAll ps

end

/-- The columns have more than `maxRows` combinations. -/
def productCapped (columns : List (List (Pat String))) : Bool :=
  (columns.foldlM exhStep [[]]).isNone

/-- The slots of the constructor that a head names. -/
def headSlots (t : Tables) (name : String) (enumName moduleName : Option String) :
    Dom → Option (List Ty)
  | .prod _ tys => some tys
  | .sum _ members _ =>
    (members.find? fun m =>
      m.1 == bareVariantName t (enumName.isNone && moduleName.isNone) name).map Prod.snd
  | _ => none

mutual

/-- Lowering the pattern meets the depth or the row limit. -/
def lowerCapped (t : Tables) : Pattern → Dom → Nat → Bool
  | .carrier tag inner _, dom, depth =>
    decide (depth > maxDepth) ||
      match carrierMember tag dom with
      | some (_, ty :: _) =>
        lowerCapped t inner (domOfTy t ty) (depth + 1) ||
          productCapped [exhLower t inner (domOfTy t ty) (depth + 1)]
      | _ => false
  | .tuple subs, dom, depth =>
    decide (depth > maxDepth) ||
      match dom with
      | .prod _ tys => columnsCapped t subs tys depth || productCapped (exhColumns t subs tys depth)
      | _ => false
  | .variant name _ bindings enumName moduleName, dom, depth =>
    decide (depth > maxDepth) ||
      match headSlots t name enumName moduleName dom with
      | some tys =>
        columnsCapped t bindings tys depth || productCapped (exhColumns t bindings tys depth)
      | none => false
  | .or alts, dom, depth => decide (depth > maxDepth) || altsCapped t alts dom depth
  | _, _, depth => decide (depth > maxDepth)

def columnsCapped (t : Tables) : List Pattern → List Ty → Nat → Bool
  | p :: ps, ty :: tys, depth =>
    lowerCapped t p (domOfTy t ty) (depth + 1) || columnsCapped t ps tys depth
  | _, _, _ => false

def altsCapped (t : Tables) : List Pattern → Dom → Nat → Bool
  | [], _, _ => false
  | p :: ps, dom, depth => lowerCapped t p dom (depth + 1) || altsCapped t ps dom depth

end

variable {ps : List Pattern} {depth : Nat} {kind : MatchKind}

theorem literalFreeAll_iff : literalFreeAll ps = true ↔ ∀ p ∈ ps, literalFree p = true := by
  induction ps with
  | nil => simp [literalFreeAll]
  | cons p ps ih => simp [literalFreeAll, ih]

theorem altsCapped_iff {d} :
    altsCapped t ps d depth = false ↔ ∀ p ∈ ps, lowerCapped t p d (depth + 1) = false := by
  induction ps with
  | nil => simp [altsCapped]
  | cons p ps ih => simp [altsCapped, ih]

theorem capDepth_of_le (h : decide (depth > maxDepth) = false) (rows) :
    capDepth depth rows = rows :=
  if_neg (of_decide_eq_false h)

theorem lowerCapped_depth {p d} (h : lowerCapped t p d depth = false) :
    decide (depth > maxDepth) = false := by
  cases p <;> simp only [lowerCapped, Bool.or_eq_false_iff] at h
  all_goals first | exact h | exact h.1

theorem ctor_mem_exhProduct {ctor columns args} (hcap : productCapped columns = false)
    (hargs : Forall₂ (· ∈ ·) args columns) : Pat.ctor ctor args ∈ exhProduct ctor columns := by
  unfold productCapped at hcap
  unfold exhProduct
  cases hcombos : columns.foldlM exhStep [[]] with
  | none => rw [hcombos] at hcap; cases hcap
  | some combos =>
    refine mem_map.mpr ⟨args, (mem_combos hcombos).mpr ?_, rfl⟩
    exact ⟨[], mem_singleton_self _, args, hargs, rfl⟩

section
variable {K : Ty → Prop}

theorem Closed.fields (hK : Closed t K) {name targs fields} (h : K (.struct name targs))
    (hf : t.structFields name targs = some fields) : ∀ ty ∈ fields, K ty :=
  hK.parts h (by rw [domOfTy_struct hf]; exact mem_singleton_self _)

variable {vmap : List (String × List Ty)} {ty : Ty} {v : Value}

theorem Closed.payload (hK : Closed t K) {key variant payload} (h : K ty)
    (hk : ty.enumKey = some key) (hvm : t.variantsOf ty = some vmap)
    (hl : vmap.lookup variant = some payload) : ∀ ty ∈ payload, K ty :=
  hK.parts h (by rw [domOfTy_enum hk hvm]; exact mem_sumDom.mpr (mem_of_lookup hl))

/-- A value the pattern matches is covered by one of its rows. -/
def LowerExact (t : Tables) (res : Resolutions) (K : Ty → Prop) (p : Pattern) : Prop :=
  ∀ (ty : Ty) (depth : Nat) (v : Value), K ty → (bindSubpattern t res p ty).ok = true →
    lowerCapped t p (domOfTy t ty) depth = false → HasTy t v ty → (matchPat res p v).isSome →
    ∃ q ∈ exhLower t p (domOfTy t ty) depth, covers view q v = true

theorem columns_of_matchAll {tys vs} (ih : ∀ p ∈ ps, LowerExact t res K p)
    (hlen : tys.length = ps.length) (hK : ∀ ty ∈ tys, K ty) (hok : (bindAll t res ps tys).ok = true)
    (hcap : columnsCapped t ps tys depth = false) (hvs : Forall₂ (HasTy t) vs tys)
    (hm : (matchAll res ps vs).isSome) : ∃ args, Forall₂ (· ∈ ·) args (exhColumns t ps tys depth) ∧
      coversAll view args vs = true := by
  induction ps generalizing tys vs with
  | nil =>
    obtain rfl := length_eq_zero_iff.mp hlen
    cases hvs
    exact ⟨[], .nil, by rw [coversAll]⟩
  | cons p ps ihs =>
    cases hvs with
    | nil => cases hlen
    | @cons v ty vs tys hv hvs =>
      rw [bindAll, Bound.both, Bool.and_eq_true] at hok
      rw [columnsCapped, Bool.or_eq_false_iff] at hcap
      rw [matchAll] at hm
      obtain ⟨bs, hbs⟩ := isSome_iff_exists.mp hm
      obtain ⟨b, hb, hrest⟩ := bind_eq_some_iff.mp hbs
      obtain ⟨bs', hbs', -⟩ := map_eq_some_iff.mp hrest
      obtain ⟨q, hq, hcov⟩ := ih p mem_cons_self ty (depth + 1) v (hK ty mem_cons_self)
        hok.1 hcap.1 hv (by rw [hb]; rfl)
      obtain ⟨args, hargs, hcovs⟩ := ihs (forall_mem_cons.mp ih).2
        (Nat.succ.inj hlen) (forall_mem_cons.mp hK).2 hok.2 hcap.2 hvs
        (by rw [hbs']; rfl)
      exact ⟨q :: args, .cons hq hargs, by rw [coversAll, hcov, hcovs]; rfl⟩

/-- One row for a constructor and the columns of its slots. -/
theorem product_covers {ctor tys vs} (hview : view v = some (ctor, vs))
    (hcap : productCapped (exhColumns t ps tys depth) = false)
    (h : ∃ args, Forall₂ (· ∈ ·) args (exhColumns t ps tys depth) ∧ coversAll view args vs = true) :
    ∃ q ∈ exhProduct ctor (exhColumns t ps tys depth), covers view q v = true := by
  obtain ⟨args, hargs, hcov⟩ := h
  refine ⟨_, ctor_mem_exhProduct hcap hargs, ?_⟩
  rw [covers_ctor view hview, hcov, Bool.and_true, decide_eq_true rfl]

section
variable {name : String} {id : NodeId} {bindings : List Pattern} {en mn : Option String}
  {v : Value} {depth : Nat}

theorem lower_struct_head {sname targs fields} (ih : ∀ p ∈ bindings, LowerExact t res K p)
    (hK : ∀ ty ∈ fields, K ty)
    (h : StructHead t res name id en mn bindings.length (bindAll t res bindings) sname targs fields)
    (hcap : lowerCapped t (.variant name id bindings en mn) (.prod sname fields) depth = false)
    (hv : HasTy t v (.struct sname targs))
    (hm : (matchPat res (.variant name id bindings en mn) v).isSome) :
    ∃ q ∈ exhLower t (.variant name id bindings en mn) (.prod sname fields) depth,
      covers view q v = true := by
  have hlabel : (sname == "") = false := by
    rw [beq_eq_false_iff_ne]
    rintro rfl
    cases (t.structFields_name _).symm.trans h.declared
  obtain ⟨vs, rfl, hvs⟩ := hasTy_struct h.declared hv
  simp only [lowerCapped, headSlots, Bool.or_eq_false_iff] at hcap
  simp only [matchPat, h.resolved, Value.fields, if_true, bind_some] at hm
  rw [exhLower, capDepth_of_le hcap.1]
  simp only [lowerVariant, hlabel, h.ctor, h.length, beq_self_eq_true, Bool.and_self, if_true,
    Bool.false_eq_true, if_false]
  exact product_covers rfl hcap.2.2 (columns_of_matchAll ih h.length hK h.ok hcap.2.1 hvs hm)

theorem lower_enum_head {key variant payload} (ih : ∀ p ∈ bindings, LowerExact t res K p)
    (hK : ∀ ty ∈ payload, K ty)
    (h : EnumHead t res (en.isNone && mn.isNone) name id bindings.length (bindAll t res bindings) ty
      key vmap variant payload)
    (hcap : lowerCapped t (.variant name id bindings en mn) (sumDom t key vmap) depth = false)
    (hv : HasTy t v ty) (hm : (matchPat res (.variant name id bindings en mn) v).isSome) :
    ∃ q ∈ exhLower t (.variant name id bindings en mn) (sumDom t key vmap) depth,
      covers view q v = true := by
  obtain ⟨w, tys', vs, rfl, hw, hvs⟩ := hasTy_enum h.enumKey h.variants hv
  simp only [matchPat, h.resolved, Value.payload] at hm
  split at hm
  · next hkv =>
    obtain ⟨-, rfl⟩ := hkv
    obtain rfl := lookup_eq_of_mem (variantsOf_nodup h.variants) h.found hw
    -- the lowering finds the same member
    have hfind : (vmap.insertionSort fun a b => a.1 ≤ b.1).find?
        (fun m => m.1 == bareVariantName t (en.isNone && mn.isNone) name) = some (w, tys') := by
      rw [← patternVariantName_eq h.names]
      have hsome : ((vmap.insertionSort fun a b => a.1 ≤ b.1).find? fun m => m.1 == w).isSome :=
        find?_isSome.mpr ⟨(w, tys'), (mem_insertionSort _).mpr hw, beq_self_eq_true w⟩
      obtain ⟨m, hfind⟩ := isSome_iff_exists.mp hsome
      have hmem := (mem_insertionSort _).mp (mem_of_find?_eq_some hfind)
      have hm1 : m.1 = w := by simpa using find?_some hfind
      rw [hfind, inj_on_of_nodup_map (variantsOf_nodup h.variants) hmem hw hm1]
    simp only [lowerCapped, headSlots, sumDom, hfind, map_some, Bool.or_eq_false_iff] at hcap
    rw [exhLower, capDepth_of_le hcap.1]
    simp only [lowerVariant, sumDom, hfind, h.length, beq_self_eq_true, if_true]
    exact product_covers rfl hcap.2.2
      (columns_of_matchAll ih h.length hK h.ok hcap.2.1 hvs (by simpa using hm))
  · cases hm

end

/-- The member that a `?` or `!` head of a carrier type means is found. -/
theorem carrierMember_of_carrierVariant {tag key v slot}
    (hc : carrierVariant tag ty = some (key, v)) (hvm : t.variantsOf ty = some vmap)
    (hm : (v, [slot]) ∈ vmap) : carrierMember tag (sumDom t key vmap) = some (v, [slot]) := by
  have hsome : (carrierMember tag (sumDom t key vmap)).isSome := by
    obtain ⟨-, hcar, hv⟩ := carrierVariant_some hc
    refine findSome?_isSome_iff.mpr ⟨v, mem_filterMap.mpr ⟨key, ?_, hv⟩, ?_⟩
    · simpa using hcar
    · exact find?_isSome.mpr ⟨(v, [slot]), (mem_insertionSort _).mpr hm, by simp⟩
  obtain ⟨m, hmem⟩ := isSome_iff_exists.mp hsome
  have hm1 : m.1 = v := carrierMember_eq hc hvm hmem
  rw [hmem, inj_on_of_nodup_map (variantsOf_nodup hvm)
    (mem_sumDom.mp (carrierMember_mem hmem).1) hm hm1]

theorem lower_carrier_head {tag inner id key vname variant payload} (ih : LowerExact t res K inner)
    (hK : ∀ ty ∈ payload, K ty) (hc : carrierVariant tag ty = some (key, vname))
    (h : EnumHead t res true (privateName vname) id 1 (bindOperand t res inner) ty key vmap variant
      payload)
    (hcap : lowerCapped t (.carrier tag inner id) (sumDom t key vmap) depth = false)
    (hv : HasTy t v ty) (hm : (matchPat res (.carrier tag inner id) v).isSome) :
    ∃ q ∈ exhLower t (.carrier tag inner id) (sumDom t key vmap) depth, covers view q v = true := by
  obtain ⟨-, -, hv'⟩ := carrierVariant_some hc
  obtain rfl := patternVariantName_private hv' h.names
  obtain ⟨slot, rfl⟩ := length_eq_one_iff.mp h.length
  have hmember := carrierMember_of_carrierVariant hc h.variants (mem_of_lookup h.found)
  obtain ⟨w, tys', vs, rfl, hw, hvs⟩ := hasTy_enum h.enumKey h.variants hv
  simp only [matchPat, h.resolved, Value.payload] at hm
  split at hm
  · next p heq =>
    obtain ⟨⟨-, rfl⟩, hvs'⟩ := ite_none_right_eq_some.mp heq
    obtain rfl := some.inj hvs'
    obtain rfl := lookup_eq_of_mem (variantsOf_nodup h.variants) h.found hw
    cases hvs with
    | cons hx _ =>
      simp only [lowerCapped, hmember, Bool.or_eq_false_iff] at hcap
      obtain ⟨q, hq, hcov⟩ := ih slot (depth + 1) p (hK slot mem_cons_self) h.ok hcap.2.1 hx hm
      rw [exhLower, capDepth_of_le hcap.1]
      simp only [lowerCarrier, hmember]
      refine ⟨_, ctor_mem_exhProduct hcap.2.2 (.cons hq .nil), ?_⟩
      rw [covers_ctor view rfl, coversAll, hcov, coversAll, decide_eq_true rfl]
      rfl
  · cases hm

/-- **A value that a literal-free pattern matches is covered by one of its rows.** -/
theorem lower_of_matchPat (hK : Closed t K) (p) (hlit : literalFree p = true) :
    LowerExact t res K p := by
  induction p using Pattern.induction with intro ty depth v hty hok hcap hv hm
  | wildcard =>
    rw [exhLower, capDepth_of_le (lowerCapped_depth hcap)]
    exact ⟨.wild, mem_singleton_self _, by rw [covers]⟩
  | range => cases hlit
  | ident name id =>
    rw [exhLower, capDepth_of_le (lowerCapped_depth hcap)]
    obtain ⟨key, variant, vmap, hi, hk, hvm, hl, hres⟩ | ⟨rfl, -⟩ | ⟨hb, hres⟩ := bindIdent_ok hok
    · obtain ⟨w, tys, vs, rfl, hw, hvs⟩ := hasTy_enum hk hvm hv
      simp only [matchPat, hres, Value.payload, isSome_map] at hm
      split at hm
      · next hkv =>
        obtain ⟨-, rfl⟩ := hkv
        obtain rfl := lookup_eq_of_mem (variantsOf_nodup hvm) hl hw
        cases hvs
        have hany : ((vmap.insertionSort fun a b => a.1 ≤ b.1).any
            fun m => m.1 == w && m.2.isEmpty) = true :=
          any_eq_true.mpr ⟨(w, []), (mem_insertionSort _).mpr hw, by simp⟩
        refine ⟨.ctor w [], ?_, by rw [covers_ctor view rfl, coversAll, decide_eq_true rfl]; rfl⟩
        simp only [domOfTy_enum hk hvm, lowerIdent, sumDom, hi, hany, if_true, mem_singleton]
      · cases hm
    · exact absurd rfl (hK.known hty)
    · refine ⟨.wild, ?_, by rw [covers]⟩
      have hi : t.importedVariants name = none := by
        cases hi : t.importedVariants name with
        | none => rfl
        | some iv =>
          rw [bareName_imported.mpr (show _ = some (iv.1, iv.2) from hi)] at hb
          cases hb
      simp [lowerIdent, hi, hb, BareName.isVariant]
  | literal lit =>
    rw [exhLower, capDepth_of_le (lowerCapped_depth hcap)]
    cases lit with
    | int | float | str => cases hlit
    | bool b =>
      -- only a `bool` slot takes a `bool` literal
      have hbool : ty = .bool := by
        rw [bindSubpattern] at hok
        cases ty with
        | bool => rfl
        | unknown => exact absurd rfl (hK.known hty)
        | width w => cases w <;> cases hok
        | _ => cases hok
      subst hbool
      obtain ⟨b', rfl⟩ := hasTy_bool hv
      rw [matchPat] at hm
      split at hm
      · next heq =>
        obtain rfl : b' = b := by simpa [LitPattern.eq] using heq
        refine ⟨_, mem_singleton_self _, ?_⟩
        rw [covers_ctor view rfl, coversAll, decide_eq_true rfl]
        rfl
      · cases hm
  | tuple subs ih =>
    obtain ⟨tys, rfl, hlen, hok⟩ := bindTuple_ok hok
    obtain ⟨vs, rfl, hvs⟩ := hasTy_tuple hv
    have hdom : domOfTy t (.tuple tys) = .prod "" tys := rfl
    rw [hdom] at hcap ⊢
    simp only [lowerCapped, Bool.or_eq_false_iff] at hcap
    rw [exhLower, capDepth_of_le hcap.1]
    simp only [lowerTuple, hlen, beq_self_eq_true, Bool.and_self, if_true]
    have hparts : ∀ ty ∈ tys, K ty := hK.parts hty (by rw [hdom]; exact mem_singleton_self _)
    exact product_covers rfl hcap.2.2 (columns_of_matchAll
      (fun p hp => ih p hp (literalFreeAll_iff.mp hlit p hp)) hlen hparts hok hcap.2.1 hvs hm)
  | variant name id bindings en mn ih =>
    have ih : ∀ p ∈ bindings, LowerExact t res K p :=
      fun p hp => ih p hp (literalFreeAll_iff.mp hlit p hp)
    rw [bindSubpattern] at hok
    obtain ⟨sname, targs, fields, rfl, h⟩ | ⟨key, vmap, variant, payload, h⟩ := bindVariant_ok hok
    · rw [domOfTy_struct h.declared] at hcap ⊢
      exact lower_struct_head ih (hK.fields hty h.declared) h hcap hv hm
    · rw [domOfTy_enum h.enumKey h.variants] at hcap ⊢
      exact lower_enum_head ih (hK.payload hty h.enumKey h.variants h.found) h hcap hv hm
  | carrier tag inner id ih =>
    obtain ⟨key, vname, vmap, variant, payload, hc, h⟩ := bindCarrier_ok hok
    rw [domOfTy_enum h.enumKey h.variants] at hcap ⊢
    exact lower_carrier_head (ih hlit) (hK.payload hty h.enumKey h.variants h.found) hc h hcap hv hm
  | or alts ih =>
    simp only [lowerCapped, Bool.or_eq_false_iff] at hcap
    rw [exhLower, capDepth_of_le hcap.1]
    obtain ⟨p, hp, hm⟩ := matchFirst_isSome.mp hm
    obtain ⟨q, hq, hcov⟩ := ih p hp (literalFreeAll_iff.mp hlit p hp) ty (depth + 1) v hty
      (enforceOr_ok hok _ (mem_bindAlternatives hp)) (altsCapped_iff.mp hcap.2 p hp) hv hm
    exact ⟨q, mem_exhAlts.mpr ⟨p, hp, hq⟩, hcov⟩

/-- The same of an accepted arm that the checker does not call irrefutable. -/
theorem arm_lower_of_matchPat {sty e guarded} (hK : Closed t K) (hsty : K sty)
    (hk : matchKind t sty = some kind) (he : exhNew t kind = some e) (hv : HasTy t v sty) (p)
    (hlit : literalFree p = true) : ∀ (covered : List CoverKey) (depth : Nat),
      (bindMatchArm t res kind guarded covered p).1.ok = true →
      (bindMatchArm t res kind guarded covered p).1.irref = false →
      lowerCapped t p e.dom depth = false → (matchPat res p v).isSome →
      ∃ q ∈ exhLower t p e.dom depth, covers view q v = true := by
  induction p using Pattern.induction with intro covered depth hok hirref hcap hm
  | wildcard => cases hirref
  | ident => cases hok
  | range => cases hlit
  | literal =>
    cases kind with
    | literal => cases he
    | variants | tuple | struct => cases hok
  | tuple subs =>
    obtain ⟨hdom, hsub⟩ := tupleArm_ok hk he hok
    rw [hdom] at hcap ⊢
    exact lower_of_matchPat hK _ hlit sty depth v hsty hsub hcap hv hm
  | variant name id bindings en mn =>
    have ih : ∀ p ∈ bindings, LowerExact t res K p :=
      fun p hp => lower_of_matchPat hK p (literalFreeAll_iff.mp hlit p hp)
    obtain ⟨-, -, hirr⟩ | ⟨key, vmap, variant, payload, hdom, h⟩ |
      ⟨sname, targs, fields, rfl, hdom, h⟩ := bindArmHead_ok hk he (Bool.and_eq_true_iff.mp hok).1
    · rw [bindMatchArm] at hirref
      rw [hirr] at hirref
      cases hirref
    · rw [hdom] at hcap ⊢
      exact lower_enum_head ih (hK.payload hsty h.enumKey h.variants h.found) h hcap hv hm
    · rw [hdom] at hcap ⊢
      exact lower_struct_head ih (hK.fields hsty h.declared) h hcap hv hm
  | carrier tag inner id =>
    obtain ⟨key, vname, vmap, variant, payload, hc, hdom, h⟩ := carrierArm_ok hk he hok
    rw [hdom] at hcap ⊢
    exact lower_carrier_head (lower_of_matchPat hK inner hlit)
      (hK.payload hsty h.enumKey h.variants h.found) hc h hcap hv hm
  | or alts ih =>
    simp only [lowerCapped, Bool.or_eq_false_iff] at hcap
    rw [exhLower, capDepth_of_le hcap.1]
    obtain ⟨p, hp, hm⟩ := matchFirst_isSome.mp hm
    obtain ⟨c, hc⟩ := mem_bindArmAlts hp covered
    obtain ⟨q, hq, hcov⟩ := ih p hp (literalFreeAll_iff.mp hlit p hp) c (depth + 1)
      (enforceOr_ok hok _ hc) (enforceOr_irref hirref _ hc) (altsCapped_iff.mp hcap.2 p hp) hm
    exact ⟨q, mem_exhAlts.mpr ⟨p, hp, hq⟩, hcov⟩

end

/-! ## The witness of a `match` -/

theorem checkArms_exh (arms : List (Arm G)) :
    (checkArms t res kind arms).exh = (exhRun t (exhNew t kind) arms).1 := by
  induction arms using reverseRecOn with
  | nil => rfl
  | append_singleton arms arm ih =>
    rw [checkArms_concat, exhRun_concat, ← ih]
    rfl

/-- An unguarded arm of a `match` that stays open is not irrefutable. -/
theorem checkArms_open {arms} (h : (checkArms t res kind arms).ok = true)
    (hopen : (checkArms t res kind arms).hasWildcard = false) {arm : Arm G} (ha : arm ∈ arms)
    (hg : arm.guard = none) :
    ∃ covered, (bindMatchArm t res kind arm.guard.isSome covered arm.pattern).1.ok = true ∧
      (bindMatchArm t res kind arm.guard.isSome covered arm.pattern).1.irref = false := by
  induction arms using reverseRecOn with
  | nil => cases ha
  | append_singleton arms last ih =>
    rw [checkArms_concat] at h hopen
    obtain ⟨hpre, hlast⟩ := Bool.and_eq_true_iff.mp h
    simp only [checkArm, Bool.or_eq_false_iff] at hopen
    rcases mem_append.mp ha with ha | ha
    · exact ih hpre hopen.1.1.1 ha
    · obtain rfl := mem_singleton.mp ha
      refine ⟨_, hlast, ?_⟩
      simpa [hg] using hopen.1.1.2

/-- What the help line names: the witness of a matrix that did not overflow. -/
theorem exhHelp_some {e text} (h : exhHelp t e = some text) :
    ∃ e' w ws, e = some e' ∧ e'.overflow = false ∧ e'.witness t = some (w :: ws) ∧
      text = "pattern `" ++ renderWit w ++ "` is not covered" := by
  obtain ⟨e', rfl, hsome⟩ := bind_eq_some_iff.mp h
  split at hsome
  · cases hsome
  next hover =>
  obtain ⟨ws, hws, hhead⟩ := bind_eq_some_iff.mp hsome
  obtain ⟨w, hw, rfl⟩ := map_eq_some_iff.mp hhead
  obtain ⟨ws', rfl⟩ := head?_eq_some_iff.mp hw
  exact ⟨e', w, ws', rfl, by simpa using hover, hws, rfl⟩

/-- The pass met none of its limits on these arms. -/
structure Uncapped (t : Tables) (e : ExhCheck) (arms : List (Arm G)) : Prop where
  search : depthCapHit t (maxDepth + 1) e.rows [e.dom] = false
  lowering : ∀ arm ∈ arms, arm.guard = none → lowerCapped t arm.pattern e.dom 0 = false

/-- The pass's column over the scrutinee, when its type is in the family. -/
theorem exhNew_column {K} (hK : Closed t K) {sty} (hsty : K sty) {e}
    (hk : matchKind t sty = some kind) (he : exhNew t kind = some e) :
    Column t K (fun v => HasTy t v sty) e.dom := by
  obtain rfl | ⟨key, -, -, -, rfl⟩ := exhNew_dom hk he
  · exact hK.column hsty
  -- an enum without a table has no constructors
  refine ⟨⟨nodup_nil, fun _ _ hd n n' tys tys' tag hn => ?_⟩, hK.inhabited hsty, ?_, ?_⟩
  · obtain ⟨-, rfl, -⟩ := Dom.sum.inj hd
    cases hn
  · intro name tys us hm
    cases hm
  · intro name tys hm
    cases hm

/-- **The witness is right.**  Over inferred and inhabited types, for arms without
    literal and range sub-patterns (`bool` literals apart) on which the pass met none
    of its limits: the help line names a witness that some value of the scrutinee's
    type fits, and no unguarded arm matches a value that fits it. -/
theorem witness_falls_through {K : Ty → Prop} (hK : Closed t K) {sty : Ty} (hsty : K sty)
    {kind : MatchKind} {arms : List (Arm G)} {e : ExhCheck} {text : String}
    (hk : matchKind t sty = some kind) (hok : (checkArms t res kind arms).ok = true)
    (hopen : checkExhaustive kind (checkArms t res kind arms) = false)
    (hexh : (checkArms t res kind arms).exh = some e) (hhelp : exhHelp t (some e) = some text)
    (hlit : ∀ arm ∈ arms, arm.guard = none → literalFree arm.pattern = true)
    (hcap : Uncapped t e arms) :
    ∃ w, text = "pattern `" ++ renderWit w ++ "` is not covered" ∧
      (∃ v, HasTy t v sty ∧ w.Fits t e.dom v) ∧
      ∀ v, HasTy t v sty → w.Fits t e.dom v →
        ∀ arm ∈ arms, arm.guard = none → matchPat res arm.pattern v = none := by
  obtain ⟨e', w, ws, he', hover, hwit, rfl⟩ := exhHelp_some hhelp
  obtain rfl := some.inj he'
  rw [checkArms_exh] at hexh
  cases he : exhNew t kind with
  | none =>
    rw [he, exhRun_none] at hexh
    cases hexh
  | some e0 =>
    rw [he] at hexh
    obtain ⟨e1, he1, hrows, -⟩ := exhRun_armRows (exhNew_armRows he) arms
    obtain rfl := some.inj (hexh.symm.trans he1)
    have hcol := exhNew_column hK hsty hk he
    rw [← hrows.dom_eq] at hcol
    obtain ⟨vs, hvs, hfit⟩ := witness_inhabited hK hwit (.cons hcol .nil)
    cases hvs with
    | @cons _ v _ vs hv hnil =>
    cases hnil
    have hws : ws = [] := length_eq_zero_iff.mp (Nat.succ.inj hfit.length.1)
    subst hws
    refine ⟨w, rfl, ⟨v, hv, hfit.1⟩, fun u hu hfitu arm harm hg => ?_⟩
    by_contra hm
    have hwild : (checkArms t res kind arms).hasWildcard = false := (Bool.or_eq_false_iff.mp hopen).1
    obtain ⟨covered, hbind, hirref⟩ := checkArms_open hok hwild harm hg
    have hlower := hcap.lowering arm harm hg
    rw [hrows.dom_eq] at hlower
    obtain ⟨q, hq, hcov⟩ := arm_lower_of_matchPat hK hsty hk he hu arm.pattern (hlit arm harm hg)
      covered 0 hbind hirref hlower (isSome_iff_ne_none.mpr hm)
    have hfits : FitsAll t [w] [e.dom] [u] := ⟨hfitu, trivial⟩
    refine not_covered_of_witness hwit hcap.search ?_ ?_ hfits ?_
    · rw [hrows.dom_eq]
      exact hrows.rowsOk
    · exact fun d hd => mem_singleton.mp hd ▸ hcol.good
    · exact ⟨[q], hrows.all hover arm harm hg q hq, by rw [coversAll, hcov, coversAll]; rfl⟩

theorem mem_optional {ty c} (h : c ∈ (domOfTy .prelude (.option ty)).ctors) :
    c = ("Some", [ty]) ∨ c = ("None", []) := by
  have hm : c ∈ [("Some", [ty]), ("None", [])] := mem_sumDom.mp h
  simpa using hm

/-- `bool` and `bool?` are such a family. -/
theorem closed_optional_bool : Closed .prelude fun ty => ty = .option .bool ∨ ty = .bool where
  known := by
    rintro ty (rfl | rfl) h <;> cases h
  inhabited := by
    rintro ty (rfl | rfl)
    · exact ⟨.enum "Option" "None" [], .enum rfl rfl (.tail _ mem_cons_self) .nil⟩
    · exact ⟨_, .bool true⟩
  parts := by
    rintro ty (rfl | rfl) name tys hm ty' hty'
    · rcases mem_optional hm with h | h <;> cases h
      · exact .inr (mem_singleton.mp hty')
      · cases hty'
    · simp only [domOfTy, Dom.ctors, mem_cons, Prod.mk.injEq, not_mem_nil, or_false] at hm
      obtain ⟨-, rfl⟩ | ⟨-, rfl⟩ := hm <;> cases hty'

/-- The matrix of the arms `None` and `?true`. -/
def optionalExh : ExhCheck :=
  ⟨[[.ctor "None" []], [.ctor "Some" [.ctor "true" []]]], domOfTy .prelude (.option .bool), false⟩

/-- Over `bool?`, the arms `None` and `?true` leave `?false`. -/
theorem witness_falls_through_optional :
    ∃ w, "pattern `?false` is not covered" = "pattern `" ++ renderWit w ++ "` is not covered" ∧
      (∃ v, HasTy .prelude v (.option .bool) ∧ w.Fits .prelude optionalExh.dom v) ∧
      ∀ v, HasTy .prelude v (.option .bool) → w.Fits .prelude optionalExh.dom v →
        ∀ arm ∈ optionalArms (.literal (.bool true)), arm.guard = none →
          matchPat optionalRes arm.pattern v = none :=
  @witness_falls_through .prelude optionalRes Empty _ closed_optional_bool (.option .bool)
    (.inl rfl) _ (optionalArms (.literal (.bool true))) optionalExh _ rfl (by decide) (by decide)
    rfl (by decide) (by decide) ⟨by decide, by decide⟩

/-- Over `int?`, the arms `None` and `?1` get the witness `?_`, though the second arm
    matches the value `?1`, which fits it. -/
theorem witness_of_literal_is_matched :
    ∃ kind e, matchKind .prelude (.option .int) = some kind ∧
      (checkArms .prelude optionalRes kind (optionalArms (.literal (.int 1)))).ok = true ∧
      checkExhaustive kind
        (checkArms .prelude optionalRes kind (optionalArms (.literal (.int 1)))) = false ∧
      (checkArms .prelude optionalRes kind (optionalArms (.literal (.int 1)))).exh = some e ∧
      Uncapped .prelude e (optionalArms (.literal (.int 1))) ∧
      exhHelp .prelude (some e) = some "pattern `?_` is not covered" ∧
      e.witness .prelude = some [.carrier .present .wild] ∧
      ∃ v, HasTy .prelude v (.option .int) ∧ (Wit.carrier .present .wild).Fits .prelude e.dom v ∧
        ∃ arm ∈ optionalArms (.literal (.int 1)), arm.guard = none ∧
          (matchPat optionalRes arm.pattern v).isSome = true := by
  refine ⟨_, _, rfl, by decide, by decide, rfl, ⟨by decide, by decide⟩, by decide, rfl,
    .enum "Option" "Some" [.int 1], ?_, ?_, ?_⟩
  · exact .enum rfl rfl mem_cons_self (.cons (.int 1 rfl) .nil)
  · exact ⟨"Some", .int, .int 1, rfl, .tail _ mem_cons_self, by decide, trivial⟩
  · exact ⟨_, .tail _ mem_cons_self, rfl, by decide⟩

end ChezziLang.Checker.Exhaust
