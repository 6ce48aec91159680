/-
  `compatible` is a preorder on types without `Unknown`.

  The many cases of `compatible` come down to one (`Fits`): the types have the same
  constructor, names and number of components, the components pass in turn, a function's
  parameters both ways, and its value takes as few arguments as the slot may give.  The one
  exception is `str` where `Error` is asked for.

  Proved:
  * `fits_of_compatible`, `compatible_of_fits`: the comparison as that one rule.
  * `compatible_preorder`: it is reflexive and transitive, and neither parameter labels nor
    C widths, at any depth, have a say in it.
-/
import ChezziLang.Checker.TyUtil
import ChezziLang.Lib.Cover

namespace ChezziLang.Checker

open List
open Ty (Occurs kids)

namespace Ty

/-- The components that are compared one way. -/
def co : Ty → List Ty
  | func _ ret _ _ => [ret]
  | t => t.kids

/-- The components that are compared both ways: a function's parameters. -/
def inv : Ty → List Ty
  | func params _ labels _ => params ++ labels.kw
  | _ => []

/-- The fewest arguments of a call. -/
def minArgs : Ty → Nat
  | func params _ labels _ => labels.minOr params.length
  | _ => 0

theorem co_subset (t : Ty) : t.co ⊆ t.kids := by
  cases t <;> simp [co, Ty.kids]

theorem inv_subset (t : Ty) : t.inv ⊆ t.kids := by
  cases t <;> simp [inv, Ty.kids]

theorem core_of_co_nil {t : Ty} (h : t.co = []) : t.core = t := by
  cases t <;> simp_all [co, Ty.kids, core]

/-- Neither `Unknown` nor a C width. -/
def Known (t : Ty) : Prop := t ≠ unknown ∧ ∀ w, t ≠ width w

theorem known_scalar {t : Ty} (ht : t ≠ unknown) : t.scalar.Known := by
  cases t with
  | unknown => exact absurd rfl ht
  | width w => cases w <;> exact ⟨nofun, nofun⟩
  | _ => exact ⟨nofun, nofun⟩

theorem scalar_kids (t : Ty) : t.scalar.kids = t.kids := by
  cases t with
  | width w => cases w <;> rfl
  | _ => rfl

end Ty

/-! ## Lists of components -/

section

variable {R : Ty → Ty → Prop} {as bs cs as' bs' : List Ty}

/-- `R` holds of the elements that stand at one place of both lists. -/
def Pairs (R : Ty → Ty → Prop) (as bs : List Ty) : Prop :=
  ∀ (i : Nat) (x y : Ty), as[i]? = some x → bs[i]? = some y → R x y

theorem pairs_cons {a b} : Pairs R (a :: as) (b :: bs) ↔ R a b ∧ Pairs R as bs := by
  refine ⟨fun h => ⟨h 0 a b rfl rfl, fun i => h (i + 1)⟩, fun h i x y hx hy => ?_⟩
  cases i with
  | zero => cases hx; cases hy; exact h.1
  | succ i => exact h.2 i x y hx hy

theorem pairs_of_forall₂ (h : Forall₂ R as bs) : Pairs R as bs := by
  induction h with
  | nil => exact nofun
  | cons h _ ih => exact pairs_cons.mpr ⟨h, ih⟩

theorem Pairs.trans (hl : as.length ≤ bs.length)
    (hR : ∀ b ∈ bs, ∀ a c, R a b → R b c → R a c) (h1 : Pairs R as bs) (h2 : Pairs R bs cs) :
    Pairs R as cs := by
  intro i x z hx hz
  obtain ⟨hi, -⟩ := List.getElem?_eq_some_iff.mp hx
  have hy : bs[i]? = some bs[i] := List.getElem?_eq_getElem (by omega)
  exact hR _ (mem_of_getElem? hy) x z (h1 i x _ hx hy) (h2 i _ z hy hz)

theorem compatibleAll_iff :
    compatibleAll as bs = true ↔ Pairs (fun x y => compatible x y = true) as bs := by
  induction as generalizing bs with
  | nil => simp [compatibleAll, Pairs]
  | cons a as ih =>
    cases bs with
    | nil => simp [compatibleAll, Pairs]
    | cons b bs => rw [compatibleAll, Bool.and_eq_true, ih, pairs_cons]

theorem invariantAll_iff :
    invariantAll as bs = true ↔ Pairs (fun x y => paramInvariant x y = true) as bs := by
  induction as generalizing bs with
  | nil => simp [invariantAll, Pairs]
  | cons a as ih =>
    cases bs with
    | nil => simp [invariantAll, Pairs]
    | cons b bs => rw [invariantAll, Bool.and_eq_true, ih, pairs_cons]

theorem invariantAll_append (hl : as.length = bs.length) :
    invariantAll (as ++ as') (bs ++ bs') = (invariantAll as bs && invariantAll as' bs') := by
  induction as generalizing bs with
  | nil =>
    cases bs with
    | nil => simp [invariantAll]
    | cons => cases hl
  | cons a as ih =>
    cases bs with
    | nil => cases hl
    | cons b bs => simp [invariantAll, ih (Nat.succ.inj hl), Bool.and_assoc]

end

/-! ## The comparison as one rule -/

/-- What is asked of two types with the same constructor. -/
structure Fits (e a : Ty) : Prop where
  core : e.core = a.core
  coLength : e.co.length = a.co.length
  invLength : e.inv.length ≤ a.inv.length
  min : a.minArgs ≤ e.minArgs
  co : compatibleAll e.co a.co = true
  inv : invariantAll e.inv a.inv = true

variable {e a b : Ty}

theorem fits_of_compatible (he : e.Known) (ha : a.Known) (h : compatible e a = true) :
    Fits e a ∨ e = .protocol "Error" [] ∧ a = .str := by
  rw [compatible.eq_def] at h
  split at h
  case h_1 => exact absurd rfl he.1
  case h_2 => exact absurd rfl ha.1
  case h_4 => exact absurd rfl (he.2 _)
  case h_5 => exact absurd rfl (ha.2 _)
  case h_21 => exact .inr (by simpa using h)
  case h_35 p1 r1 n1 m1 k1 v1 p2 r2 n2 m2 k2 v2 =>
    simp only [Bool.and_eq_true, beq_iff_eq, decide_eq_true_eq, kwFits] at h
    obtain ⟨⟨⟨⟨⟨hp, hv⟩, hk⟩, hm⟩, hi⟩, hr⟩ := h
    refine .inl ⟨by simp [Ty.core, hp, hv], rfl, ?_, hm, by simp [Ty.co, compatibleAll, hr], ?_⟩
    · simp [Ty.inv, hp, hk]
    · simp [Ty.inv, invariantAll_append hp, hi, hk]
  case h_37 => cases h
  all_goals
    refine .inl ⟨?_, ?_, le_rfl, le_rfl, ?_, by simp [Ty.inv, invariantAll]⟩ <;>
      first | rfl | simp_all [Ty.core, Ty.co, kids, compatibleAll]

theorem compatible_of_fits (he : e.Known) (h : Fits e a) : compatible e a = true := by
  obtain ⟨hcore, hlen, hinv, hmin, hco, hi⟩ := h
  cases e with
  | func p1 r1 l1 v1 =>
    cases a with
    | func p2 r2 l2 v2 =>
      obtain ⟨hp, rfl⟩ : p1.length = p2.length ∧ v1 = v2 := by simpa [Ty.core] using hcore
      simp only [Ty.inv, invariantAll_append hp, Bool.and_eq_true, length_append, hp,
        Nat.add_le_add_iff_left] at hi hinv
      simp only [Ty.co, compatibleAll, Bool.and_true] at hco
      simp only [Ty.minArgs, hp] at hmin
      rw [compatible]
      simpa [kwFits, hp, hinv, hi, hco] using hmin
    | _ => cases hcore
  | tuple ts | struct n ts | enum n ts | protocol n ts =>
    cases a <;> simp [Ty.core] at hcore
    simpa [compatible, hcore, Ty.co, kids] using hco
  | width w => exact absurd rfl (he.2 w)
  | list | set | option | channel | shared | atomic | rwShared | map | result =>
    cases a <;> cases hcore
    simpa [compatible, Ty.co, kids, compatibleAll] using hco
  | _ =>
    rw [Ty.core_of_co_nil (length_eq_zero_iff.mp hlen.symm)] at hcore
    simp [← hcore, compatible, Ty.core]

theorem compatible_scalar (e a) : compatible e.scalar a.scalar = compatible e a := by
  have hleft : compatible e.scalar a.scalar = compatible e a.scalar := by
    cases e with
    | width w => exact (compatible_width_left w _).symm
    | _ => rfl
  rw [hleft]
  cases a with
  | width w => exact (compatible_width_right e w).symm
  | _ => rfl

/-! ## Transitivity -/

/-- The step: through `b`, when it is so through the components of `b`. -/
theorem Fits.trans {c} (h1 : Fits a b) (h2 : Fits b c) (ih : ∀ u ∈ b.kids, ∀ x z,
      compatible x u = true → compatible u z = true → compatible x z = true) : Fits a c where
  core := h1.core.trans h2.core
  coLength := h1.coLength.trans h2.coLength
  invLength := h1.invLength.trans h2.invLength
  min := h2.min.trans h1.min
  co := compatibleAll_iff.mpr ((compatibleAll_iff.mp h1.co).trans (Nat.le_of_eq h1.coLength)
    (fun u hu => ih u (b.co_subset hu)) (compatibleAll_iff.mp h2.co))
  inv := by
    refine invariantAll_iff.mpr ((invariantAll_iff.mp h1.inv).trans h1.invLength ?_
      (invariantAll_iff.mp h2.inv))
    intro u hu x z hx hz
    rw [paramInvariant, Bool.and_eq_true] at hx hz ⊢
    have hu := ih u (b.inv_subset hu)
    exact ⟨hu x z hx.1 hz.1, hu z x hz.2 hx.2⟩

theorem compatible_trans (b : Ty) (hb : ¬ Occurs kids .unknown b) (a c) (h1 : compatible a b = true)
    (h2 : compatible b c = true) : compatible a c = true := by
  induction b using Ty.induct_kids generalizing a c with
  | h b ih =>
    by_cases ha : a = .unknown
    · rw [ha, compatible]
    by_cases hc : c = .unknown
    · rw [hc, compatible_unknown_right]
    have hkids : ∀ u ∈ b.scalar.kids, ∀ x z, compatible x u = true → compatible u z = true →
        compatible x z = true := by
      intro u hu
      rw [b.scalar_kids] at hu
      exact ih u hu fun ho => hb (.under hu ho)
    have ka := Ty.known_scalar ha
    have kb := Ty.known_scalar fun h => hb (h ▸ .here)
    have kc := Ty.known_scalar hc
    rw [← compatible_scalar] at h1 h2 ⊢
    generalize a.scalar = a at *
    generalize b.scalar = b at *
    generalize c.scalar = c at *
    rcases fits_of_compatible ka kb h1 with h1 | ⟨rfl, rfl⟩
    · rcases fits_of_compatible kb kc h2 with h2 | ⟨rfl, rfl⟩
      · exact compatible_of_fits ka (h1.trans h2 hkids)
      · have hcore := h1.core
        cases a <;> simp [Ty.core] at hcore
        simp [compatible, hcore]
    · rcases fits_of_compatible kb kc h2 with h2 | ⟨h, -⟩
      · have hcore := h2.core
        cases c <;> cases hcore
        simp [compatible]
      · cases h

/-! ## Labels and widths -/

/-- Equal but for parameter labels and C widths, at any depth. -/
inductive Ty.Alike : Ty → Ty → Prop
  | node {s t} (hcore : s.scalar.core = t.scalar.core) (hmin : s.scalar.minArgs = t.scalar.minArgs)
      (hco : Forall₂ Alike s.scalar.co t.scalar.co)
      (hinv : Forall₂ Alike s.scalar.inv t.scalar.inv) : Alike s t

theorem fits_of_forall₂ (hcore : e.core = a.core) (hmin : e.minArgs = a.minArgs)
    (hco : Forall₂ (fun x y => paramInvariant x y = true) e.co a.co)
    (hinv : Forall₂ (fun x y => paramInvariant x y = true) e.inv a.inv) : Fits e a := by
  refine ⟨hcore, hco.length_eq, Nat.le_of_eq hinv.length_eq, Nat.le_of_eq hmin.symm, ?_,
    invariantAll_iff.mpr (pairs_of_forall₂ hinv)⟩
  refine compatibleAll_iff.mpr (pairs_of_forall₂ (hco.imp fun x y h => ?_))
  rw [paramInvariant, Bool.and_eq_true] at h
  exact h.1

theorem paramInvariant_flip {as bs} (h : Forall₂ (fun x y => paramInvariant x y = true) as bs) :
    Forall₂ (fun x y => paramInvariant x y = true) bs as :=
  (h.imp fun x y h => (paramInvariant_comm y x).trans h).flip

theorem paramInvariant_of_alike (h : a.Alike b) : paramInvariant a b = true := by
  induction a using Ty.induct_kids generalizing b with
  | h a ih =>
    obtain ⟨hcore, hmin, hco, hinv⟩ := h
    rw [paramInvariant, Bool.and_eq_true]
    by_cases ha : a = .unknown
    · rw [ha, compatible_unknown_right, compatible]
      exact ⟨rfl, rfl⟩
    by_cases hb : b = .unknown
    · rw [hb, compatible_unknown_right, compatible]
      exact ⟨rfl, rfl⟩
    rw [← a.scalar_kids] at ih
    replace hco := Lib.forall₂_imp_mem hco fun x hx y _ => ih x (a.scalar.co_subset hx)
    replace hinv := Lib.forall₂_imp_mem hinv fun x hx y _ => ih x (a.scalar.inv_subset hx)
    rw [← compatible_scalar a, ← compatible_scalar b]
    exact ⟨compatible_of_fits (Ty.known_scalar ha) (fits_of_forall₂ hcore hmin hco hinv),
      compatible_of_fits (Ty.known_scalar hb) (fits_of_forall₂ hcore.symm hmin.symm
        (paramInvariant_flip hco) (paramInvariant_flip hinv))⟩

theorem Ty.Alike.refl (t : Ty) : t.Alike t := by
  induction t using Ty.induct_kids with
  | h t ih =>
    rw [← t.scalar_kids] at ih
    exact .node rfl rfl (forall₂_same.mpr fun u hu => ih u (t.scalar.co_subset hu))
      (forall₂_same.mpr fun u hu => ih u (t.scalar.inv_subset hu))

/-- **On types without `Unknown` compatibility is a preorder that no parameter label and no
    C width has a say in.**  Only the middle type of a chain must be free of `Unknown`. -/
theorem compatible_preorder :
    (∀ t, compatible t t = true) ∧
    (∀ a b c, ¬ Occurs kids .unknown b → compatible a b = true → compatible b c = true →
      compatible a c = true) ∧
    ∀ a a' b b', (∀ t ∈ [a, a', b, b'], ¬ Occurs kids .unknown t) → a.Alike a' → b.Alike b' →
      compatible a b = compatible a' b' := by
  have halike : ∀ {s t}, s.Alike t → compatible s t = true ∧ compatible t s = true := by
    intro s t h
    rw [← Bool.and_eq_true, ← paramInvariant]
    exact paramInvariant_of_alike h
  refine ⟨fun t => (halike (.refl t)).1, fun a b c hb => compatible_trans b hb a c, ?_⟩
  intro a a' b b' hclean ha hb
  simp only [forall_mem_cons] at hclean
  obtain ⟨hca, hca', hcb, hcb', -⟩ := hclean
  refine Bool.eq_iff_iff.mpr ⟨fun h => ?_, fun h => ?_⟩
  · have hab' := compatible_trans b hcb a b' h (halike hb).1
    exact compatible_trans a hca a' b' (halike ha).2 hab'
  · have hab' := compatible_trans b' hcb' a' b h (halike hb).2
    exact compatible_trans a' hca' a b (halike ha).1 hab'

end ChezziLang.Checker
