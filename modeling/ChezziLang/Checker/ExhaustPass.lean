/-
  The exhaustiveness pass over the arms of a `match`.

  The arms of a `match` are lowered one after another into one matrix.  `ArmRows` says
  what is in it after some arms; `exhAdd_armRows` and `exhRun_armRows` are its step and
  run lemmas.

  Proved:
  * `matchPat_of_arm_lower`: a row lowered from an accepted arm covers no value the
    arm's pattern does not match.
  * `unguarded_match_of_complete`: when the pass calls the arms complete, every value
    of the scrutinee's type is matched by an unguarded arm.
  * `complete_match_selects`: so a complete `match` selects an arm whatever its guards
    answer.
-/
import ChezziLang.Checker.ExhaustLower

namespace ChezziLang.Checker.Exhaust

open Lib.PatMatrix List Option

variable {t : Tables} {res : Resolutions} {G : Type}

/-! ## The kind of a scrutinee -/

variable {kind : MatchKind} {sty : Ty} {arms : List (Arm G)} {e : ExhCheck} {guarded : Bool}
  {dom : Dom}

section

variable (h : matchKind t sty = some kind)
include h

theorem matchKind_cases :
    (∃ key, sty.enumKey = some key ∧ kind = .variants key ((t.variantsOf sty).getD []) sty) ∨
    (∃ ty, kind = .literal ty) ∨
    (∃ tys, sty = .tuple tys ∧ kind = .tuple tys) ∨
    ∃ name targs fields, sty = .struct name targs ∧ t.structFields name targs = some fields ∧
      kind = .struct name fields targs := by
  unfold matchKind at h
  split at h
  · next key hk => exact .inl ⟨key, hk, (some.inj h).symm⟩
  split at h
  iterate 4 · exact .inr (.inl ⟨_, (some.inj h).symm⟩)
  · exact .inr (.inr (.inl ⟨_, rfl, (some.inj h).symm⟩))
  · obtain ⟨fields, hf, he⟩ := map_eq_some_iff.mp h
    exact .inr (.inr (.inr ⟨_, _, fields, rfl, hf, he.symm⟩))
  · cases h

theorem matchKind_scrutTy (he : (exhNew t kind).isSome) :
    kind.scrutTy = sty := by
  obtain ⟨key, -, rfl⟩ | ⟨ty, rfl⟩ | ⟨tys, rfl, rfl⟩ | ⟨name, targs, fields, rfl, -, rfl⟩ :=
    matchKind_cases h
  · rfl
  · cases he
  · rfl
  · rfl

section

variable (he : exhNew t kind = some e)
include he

/-- The domain of the pass is the scrutinee's, or that of an enum without a table. -/
theorem exhNew_dom :
    e = ⟨[], domOfTy t sty, false⟩ ∨
      ∃ key, sty.enumKey = some key ∧ t.variantsOf sty = none ∧ kind = .variants key [] sty ∧
        e = ⟨[], sumDom t key [], false⟩ := by
  obtain ⟨key, hk, rfl⟩ | ⟨ty, rfl⟩ | ⟨tys, rfl, rfl⟩ | ⟨name, targs, fields, rfl, hf, rfl⟩ :=
    matchKind_cases h
  · cases hv : t.variantsOf sty with
    | none =>
      rw [hv] at he
      exact .inr ⟨key, hk, rfl, rfl, (some.inj he).symm⟩
    | some vmap =>
      rw [hv] at he
      rw [domOfTy_enum hk hv]
      exact .inl (some.inj he).symm
  · cases he
  · exact .inl (some.inj he).symm
  · rw [domOfTy_struct hf]
    exact .inl (some.inj he).symm

theorem exhNew_distinct :
    e.dom.Distinct := by
  obtain rfl | ⟨key, -, -, -, rfl⟩ := exhNew_dom h he
  · exact domOfTy_distinct t sty
  · exact nodup_nil

theorem exhNew_inDom {v} (hv : HasTy t v sty) : InDom t v e.dom := by
  obtain rfl | ⟨key, -, -, -, rfl⟩ := exhNew_dom h he
  · exact inDom_of_hasTy hv
  · exact .inl rfl

end

end

/-! ## Accepted arms -/

theorem bindPatternName_irref {id name ty} (h : (bindPatternName t res id name ty).ok = true) :
    (bindPatternName t res id name ty).irref = true := by
  unfold bindPatternName at h ⊢
  split at h
  · cases h
  · rfl

section

variable (hk : matchKind t sty = some kind)
include hk

/-- An accepted variant-headed arm is a catch-all, a variant of the scrutinee's enum,
    or its struct. -/
theorem bindArmHead_ok {name id en mn n sub covered} (he : exhNew t kind = some e)
    (h : (bindArmHead t res kind guarded name id en mn n sub covered).1.ok = true) :
    (n = 0 ∧ res id = some .patBinding ∧
      (bindArmHead t res kind guarded name id en mn n sub covered).1.irref = true) ∨
    (∃ key vmap variant payload, e.dom = sumDom t key vmap ∧
      EnumHead t res (en.isNone && mn.isNone) name id n sub sty key vmap variant payload) ∨
    ∃ sname targs fields, sty = .struct sname targs ∧ e.dom = .prod sname fields ∧
      StructHead t res name id en mn n sub sname targs fields := by
  obtain ⟨key, hkey, rfl⟩ | ⟨ty, rfl⟩ | ⟨tys, rfl, rfl⟩ | ⟨sname, targs, fields, rfl, hf, rfl⟩ :=
    matchKind_cases hk
  all_goals cases he
  · simp only [bindArmHead] at h ⊢
    split at h
    · next hc =>
      rw [if_pos hc]
      simp only [Bool.and_eq_true, beq_iff_eq] at hc
      exact .inl ⟨hc.1.2, bindPatternName_ok h, bindPatternName_irref h⟩
    split at h
    · cases h
    split at h
    · next v payload hv =>
      obtain ⟨v', hv', hpair⟩ := bind_eq_some_iff.mp hv
      obtain ⟨payload', hl, he⟩ := map_eq_some_iff.mp hpair
      cases he
      simp only [Bool.and_eq_true, beq_iff_eq] at h
      cases hvm : t.variantsOf sty with
      | none =>
        rw [hvm] at hl
        cases hl
      | some vmap =>
        rw [hvm] at hl
        exact .inr (.inl ⟨key, vmap, v, payload, rfl, hkey, hvm, hv', hl, h.1.1.1, h.1.1.2,
          h.1.2⟩)
    · cases h
  · simp only [bindArmHead] at h ⊢
    split at h
    · next hc =>
      rw [if_pos hc]
      simp only [Bool.and_eq_true, beq_iff_eq] at hc
      exact .inl ⟨hc.1.2, bindPatternName_ok h, bindPatternName_irref h⟩
    · cases h
  · simp only [bindArmHead] at h ⊢
    split at h
    · next hctor =>
      simp only [Bool.and_eq_true, beq_iff_eq] at h
      exact .inr (.inr ⟨sname, targs, fields, rfl, rfl, hf, hctor, h.1.1.1, h.1.1.2, h.1.2⟩)
    next hctor =>
    split at h
    · next hc =>
      rw [if_neg hctor, if_pos hc]
      simp only [Bool.and_eq_true, beq_iff_eq] at hc
      exact .inl ⟨hc.1.2, bindPatternName_ok h, bindPatternName_irref h⟩
    · cases h

/-- An accepted `?` or `!` arm names a variant of the scrutinee, which is a carrier. -/
theorem carrierArm_ok {tag inner id covered} (he : exhNew t kind = some e)
    (h : (bindMatchArm t res kind guarded covered (.carrier tag inner id)).1.ok = true) :
    ∃ key vname vmap variant payload, carrierVariant tag sty = some (key, vname) ∧
      e.dom = sumDom t key vmap ∧ EnumHead t res true (privateName vname) id 1
        (bindOperand t res inner) sty key vmap variant payload := by
  have hscrut : kind.scrutTy = sty := matchKind_scrutTy hk (by rw [he]; rfl)
  rw [bindMatchArm] at h
  split at h
  · next key' vname hc =>
    rw [hscrut] at hc
    have hhead := (Bool.and_eq_true_iff.mp h).1
    obtain ⟨hn, -⟩ | ⟨key, vmap, variant, payload, hdom, h⟩ | ⟨sname, targs, fields, rfl, -⟩ :=
      bindArmHead_ok hk he hhead
    · cases hn
    · obtain rfl := some.inj (h.enumKey.symm.trans (carrierVariant_some hc).1)
      exact ⟨_, vname, vmap, variant, payload, hc, hdom, h⟩
    · cases hc
  · cases h

/-- An accepted tuple arm is accepted as a subpattern of the scrutinee's type. -/
theorem tupleArm_ok {subs covered} (he : exhNew t kind = some e)
    (h : (bindMatchArm t res kind guarded covered (.tuple subs)).1.ok = true) :
    e.dom = domOfTy t sty ∧ (bindSubpattern t res (.tuple subs) sty).ok = true := by
  have hsub : (bindSubpattern t res (.tuple subs) sty).ok = true := by
    rw [← matchKind_scrutTy hk (by rw [he]; rfl)]
    exact (Bool.and_eq_true_iff.mp h).1
  obtain rfl | ⟨key, hkey, -⟩ := exhNew_dom hk he
  · exact ⟨rfl, hsub⟩
  · obtain ⟨tys, rfl, -⟩ := bindTuple_ok hsub
    cases hkey

end

/-- Each alternative of an arm was checked after some covered set. -/
theorem mem_bindArmAlts {ps p} (hp : p ∈ ps) (covered) :
    ∃ c, (bindMatchArm t res kind guarded c p).1 ∈ (bindArmAlts t res kind guarded covered ps).1 := by
  induction ps generalizing covered with
  | nil => cases hp
  | cons q ps ih =>
    rw [bindArmAlts]
    rcases mem_cons.mp hp with rfl | hp
    · exact ⟨covered, mem_cons_self⟩
    · obtain ⟨c, hc⟩ := ih hp (bindMatchArm t res kind guarded covered q).2
      exact ⟨c, .tail _ hc⟩

/-- **A row lowered from an accepted arm covers no value its pattern does not match.** -/
theorem matchPat_of_arm_lower {v} (hk : matchKind t sty = some kind) (he : exhNew t kind = some e)
    (hv : HasTy t v sty) (p) : ∀ (covered : List CoverKey) (depth : Nat),
      (bindMatchArm t res kind guarded covered p).1.ok = true →
      ∀ q ∈ exhLower t p e.dom depth, covers view q v = true → (matchPat res p v).isSome := by
  induction p using Pattern.induction with intro covered depth hok q hq hcov
  | wildcard => rfl
  | ident => cases hok
  | literal | range =>
    -- only a literal scrutinee takes these, and the pass has no matrix for it
    cases kind with
    | literal => cases he
    | variants | tuple | struct => cases hok
  | tuple subs ih =>
    obtain ⟨hdom, hsub⟩ := tupleArm_ok hk he hok
    rw [hdom] at hq
    exact matchPat_of_lower _ sty depth v hsub hv q hq hcov
  | variant name id bindings en mn ih =>
    have hcolumns : ColumnsSound t res bindings := columnsSound fun p _ => matchPat_of_lower p
    have hq := mem_capDepth hq (ne_never hcov)
    obtain ⟨-, hres, -⟩ | ⟨key, vmap, variant, payload, hdom, h⟩ |
      ⟨sname, targs, fields, rfl, hdom, h⟩ := bindArmHead_ok hk he (Bool.and_eq_true_iff.mp hok).1
    · simp [matchPat, hres]
    · rw [hdom] at hq
      exact matchPat_enum_head hcolumns h hv hq hcov
    · rw [hdom] at hq
      exact matchPat_struct_head hcolumns h hv hq hcov
  | carrier tag inner id ih =>
    have hq := mem_capDepth hq (ne_never hcov)
    obtain ⟨key, vname, vmap, variant, payload, hc, hdom, h⟩ := carrierArm_ok hk he hok
    rw [hdom] at hq
    exact matchPat_carrier_head (matchPat_of_lower inner) hc h hv hq hcov
  | or alts ih =>
    obtain ⟨p, hp, hq⟩ := mem_exhAlts.mp (mem_capDepth hq (ne_never hcov))
    obtain ⟨c, hc⟩ := mem_bindArmAlts hp covered
    exact matchFirst_isSome.mpr ⟨p, hp, ih p hp c _ (enforceOr_ok hok _ hc) q hq hcov⟩

/-! ## The matrix of the arms -/

/-- The pass over some arms: the matrix, and whether it was ever complete. -/
def exhRun (t : Tables) (e : Option ExhCheck) (arms : List (Arm G)) : Option ExhCheck × Bool :=
  arms.foldl (fun r arm =>
    let r' := exhAdd t r.1 arm.pattern arm.guard.isSome
    (r'.1, r.2 || r'.2)) (e, false)

/-- The matrix has a row for what the unguarded arms lower to, and no other; past the
    row limit it has only some of them. -/
structure ArmRows (t : Tables) (dom : Dom) (arms : List (Arm G)) (e : ExhCheck) : Prop where
  dom_eq : e.dom = dom
  rows : ∀ row ∈ e.rows, ∃ arm ∈ arms, arm.guard = none ∧
    ∃ q ∈ exhLower t arm.pattern dom 0, row = [q]
  all : e.overflow = false → ∀ arm ∈ arms, arm.guard = none →
    ∀ q ∈ exhLower t arm.pattern dom 0, [q] ∈ e.rows

theorem exhRun_concat (e) (arms : List (Arm G)) (arm) : exhRun t e (arms ++ [arm]) =
      ((exhAdd t (exhRun t e arms).1 arm.pattern arm.guard.isSome).1,
        (exhRun t e arms).2 || (exhAdd t (exhRun t e arms).1 arm.pattern arm.guard.isSome).2) := by
  rw [exhRun, foldl_append]
  rfl

/-- A scrutinee without a matrix is never called complete. -/
theorem exhRun_none (arms : List (Arm G)) : exhRun t none arms = (none, false) := by
  induction arms using reverseRecOn with
  | nil => rfl
  | append_singleton arms arm ih => rw [exhRun_concat, ih]; rfl

/-- The rows an arm adds. -/
theorem mem_arm_rows {arm : Arm G} {row} : row ∈ armRows t dom arm.pattern arm.guard.isSome ↔
      arm.guard = none ∧ ∃ q ∈ exhLower t arm.pattern dom 0, row = [q] := by
  unfold armRows
  cases hg : arm.guard with
  | none => simp [eq_comm]
  | some g => simp

theorem ArmRows.mono (h : ArmRows t dom arms e) (arm) (hover : e.overflow = true) :
    ArmRows t dom (arms ++ [arm]) e where
  dom_eq := h.dom_eq
  rows := fun row hrow => by
    obtain ⟨a, ha, hrest⟩ := h.rows row hrow
    exact ⟨a, mem_append_left _ ha, hrest⟩
  all := fun hno => by
    rw [hover] at hno
    cases hno

/-- One arm: its rows come in, and only then may the pass call the match complete. -/
theorem exhAdd_armRows (h : ArmRows t dom arms e) (arm) :
    ∃ e', (exhAdd t (some e) arm.pattern arm.guard.isSome).1 = some e' ∧
      ArmRows t dom (arms ++ [arm]) e' ∧
      ((exhAdd t (some e) arm.pattern arm.guard.isSome).2 = true → e'.witness t = none) := by
  have hrows : ∀ rows : List (List (Pat String)),
      (∀ row ∈ rows, row ∈ e.rows ++ armRows t e.dom arm.pattern arm.guard.isSome) →
      ∀ row ∈ rows, ∃ a ∈ arms ++ [arm], a.guard = none ∧
        ∃ q ∈ exhLower t a.pattern dom 0, row = [q] := by
    intro rows hsub row hrow
    rcases mem_append.mp (hsub row hrow) with hold | hnew
    · obtain ⟨a, ha, hrest⟩ := h.rows row hold
      exact ⟨a, mem_append_left _ ha, hrest⟩
    · rw [h.dom_eq] at hnew
      obtain ⟨hg, hq⟩ := mem_arm_rows.mp hnew
      exact ⟨arm, mem_append_right _ (mem_singleton_self _), hg, hq⟩
  unfold exhAdd
  dsimp only
  split
  · next hover =>
    exact ⟨e, rfl, h.mono arm hover, nofun⟩
  next hover =>
  have hover : e.overflow = false := by simpa using hover
  split
  · refine ⟨_, rfl, ⟨h.dom_eq, hrows _ fun row hrow => mem_of_mem_take hrow, ?_⟩, nofun⟩
    intro hno
    cases hno
  refine ⟨_, rfl, ⟨h.dom_eq, hrows _ fun row hrow => hrow, ?_⟩, ?_⟩
  · intro _ a ha hg q hq
    rcases mem_append.mp ha with ha | ha
    · exact mem_append_left _ (h.all hover a ha hg q hq)
    · obtain rfl := mem_singleton.mp ha
      refine mem_append_right _ ?_
      rw [h.dom_eq]
      exact mem_arm_rows.mpr ⟨hg, q, hq, rfl⟩
  · exact fun hd => isNone_iff_eq_none.mp hd

/-- All arms: what is in the matrix, and a prefix of the arms that was complete. -/
theorem exhRun_armRows (h : ArmRows t e.dom ([] : List (Arm G)) e) (arms : List (Arm G)) :
    ∃ e', (exhRun t (some e) arms).1 = some e' ∧ ArmRows t e.dom arms e' ∧
      ((exhRun t (some e) arms).2 = true → ∃ pre e1, (∀ a ∈ pre, a ∈ arms) ∧
        ArmRows t e.dom (pre : List (Arm G)) e1 ∧ e1.witness t = none) := by
  induction arms using reverseRecOn with
  | nil => exact ⟨e, rfl, h, nofun⟩
  | append_singleton arms arm ih =>
    obtain ⟨e', he', hrows, hdone⟩ := ih
    obtain ⟨e2, he2, hrows2, hdone2⟩ := exhAdd_armRows hrows arm
    rw [exhRun_concat, he']
    refine ⟨e2, he2, hrows2, fun hd => ?_⟩
    rcases Bool.or_eq_true_iff.mp hd with hd | hd
    · obtain ⟨pre, e1, hpre, hrest⟩ := hdone hd
      exact ⟨pre, e1, fun a ha => mem_append_left _ (hpre a ha), hrest⟩
    · exact ⟨arms ++ [arm], e2, fun a ha => ha, hrows2, hdone2 hd⟩

theorem ArmRows.rowsOk (h : ArmRows t dom arms e) : RowsOk t e.rows [dom] := by
  intro row hrow
  obtain ⟨arm, -, -, q, hq, rfl⟩ := h.rows row hrow
  exact ⟨patOk_of_ne (exhLower_patOk arm.pattern dom 0 q hq), trivial⟩

theorem exhNew_armRows (h : exhNew t kind = some e) : ArmRows t e.dom ([] : List (Arm G)) e := by
  have hnil : e.rows = [] := by
    cases kind <;> cases h <;> rfl
  refine ⟨rfl, fun row hrow => ?_, nofun⟩
  rw [hnil] at hrow
  cases hrow

theorem checkArms_concat (arms : List (Arm G)) (arm) :
    checkArms t res kind (arms ++ [arm]) = checkArm t res kind (checkArms t res kind arms) arm := by
  rw [checkArms, foldl_append]
  rfl

/-- The arm loop checks every arm, after what some arms covered. -/
theorem checkArms_ok (h : (checkArms t res kind arms).ok = true) {arm} (ha : arm ∈ arms) :
    ∃ covered, (bindMatchArm t res kind arm.guard.isSome covered arm.pattern).1.ok = true := by
  induction arms using reverseRecOn with
  | nil => cases ha
  | append_singleton arms last ih =>
    rw [checkArms_concat] at h
    obtain ⟨hpre, hlast⟩ := Bool.and_eq_true_iff.mp h
    rcases mem_append.mp ha with ha | ha
    · exact ih hpre ha
    · obtain rfl := mem_singleton.mp ha
      exact ⟨_, hlast⟩

/-- **When the pass calls the arms complete, every value of the scrutinee's type is
    matched by an unguarded arm.** -/
theorem unguarded_match_of_complete {v} (hk : matchKind t sty = some kind)
    (hok : (checkArms t res kind arms).ok = true) (hdone : (exhRun t (exhNew t kind) arms).2 = true)
    (hv : HasTy t v sty) :
    ∃ arm ∈ arms, arm.guard = none ∧ (matchPat res arm.pattern v).isSome := by
  cases he : exhNew t kind with
  | none =>
    rw [he, exhRun_none] at hdone
    cases hdone
  | some e =>
    rw [he] at hdone
    obtain ⟨-, -, -, hpre⟩ := exhRun_armRows (exhNew_armRows he) arms
    obtain ⟨pre, e1, hsub, hrows, hw⟩ := hpre hdone
    rw [ExhCheck.witness, hrows.dom_eq] at hw
    have hdist : ∀ d ∈ [e.dom], d.Distinct :=
      fun d hd => mem_singleton.mp hd ▸ exhNew_distinct hk he
    obtain ⟨row, hrow, hcov⟩ := covered_of_witness_none hw hrows.rowsOk hdist
      (.cons (exhNew_inDom hk he hv) .nil)
    obtain ⟨arm, harm, hg, q, hq, rfl⟩ := hrows.rows row hrow
    rw [coversAll, Bool.and_eq_true] at hcov
    obtain ⟨covered, hbind⟩ := checkArms_ok hok (hsub arm harm)
    exact ⟨arm, hsub arm harm, hg,
      matchPat_of_arm_lower hk he hv arm.pattern covered 0 hbind q hq hcov.1⟩

/-- **A `match` the exhaustiveness pass calls complete never runs off its last arm:**
    every value of the scrutinee's type is matched by an unguarded arm, so whatever the
    guards answer, some arm is selected and the no-arm fault is not reached. -/
theorem complete_match_selects {sty : Ty} {kind : MatchKind} {arms : List (Arm G)}
    (hk : matchKind t sty = some kind) (hok : (checkArms t res kind arms).ok = true)
    (hdone : (exhRun t (exhNew t kind) arms).2 = true) :
    ∀ v, HasTy t v sty →
      (∃ arm ∈ arms, arm.guard = none ∧ (matchPat res arm.pattern v).isSome) ∧
      ∀ holds : G → Bindings → Bool, (select res holds v arms).isSome := by
  intro v hv
  have hex := unguarded_match_of_complete hk hok hdone hv
  refine ⟨hex, fun holds => ?_⟩
  obtain ⟨arm, harm, hg, hm⟩ := hex
  exact select_isSome harm hg hm

/-- The arms `None` and `?p`, over an optional. -/
def optionalArms (p : Pattern) : List (Arm Empty) :=
  [⟨.variant "None" 0 [] none none, none⟩, ⟨.carrier .present p 1, none⟩]

def optionalRes : Resolutions
  | 0 => some (.variant "Option" "None")
  | _ => some (.variant "Option" "Some")

/-- Over `bool?`, the arms `None` and `?_` select an arm for `?true`. -/
theorem complete_match_selects_optional :
    (∃ arm ∈ optionalArms .wildcard, arm.guard = none ∧
      (matchPat optionalRes arm.pattern (.enum "Option" "Some" [.bool true])).isSome) ∧
    ∀ holds : Empty → Bindings → Bool,
      (select optionalRes holds (.enum "Option" "Some" [.bool true])
        (optionalArms .wildcard)).isSome :=
  @complete_match_selects .prelude optionalRes Empty (.option .bool) _ (optionalArms .wildcard)
    rfl (by decide) (by decide) _
    (.enum rfl rfl mem_cons_self (.cons (.bool true) .nil))

end ChezziLang.Checker.Exhaust
