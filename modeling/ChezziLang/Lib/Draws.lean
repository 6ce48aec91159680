/-
  Sequences of random draws, each from a range of its own.

  `independent spans` is the law of independent uniform draws.  A function of the draws that
  reaches each of its results by exactly one sequence is uniform over its results.

  Proved:
  * `independent_apply`: a sequence in range has probability one over the number of sequences.
  * `OneToOne.cons`: one draw more, when the result tells what it was.
  * `OneToOne.uniform`: each result has that probability.
-/
import Mathlib.Probability.Distributions.Uniform

namespace ChezziLang.Lib

open scoped ENNReal

/-- A range `[lo, hi)` that is not empty. -/
structure Span where
  lo : Nat
  hi : Nat
  nonempty : lo < hi

/-- Each draw is in its range. -/
def InSpans : List Span → List Nat → Prop := List.Forall₂ fun s d => s.lo ≤ d ∧ d < s.hi

/-- The number of sequences of draws. -/
def sequences : List Span → Nat
  | [] => 1
  | s :: spans => (s.hi - s.lo) * sequences spans

/-- A uniform draw from a range. -/
noncomputable def Span.uniform (s : Span) : PMF Nat :=
  PMF.uniformOfFinset (Finset.Ico s.lo s.hi) (Finset.nonempty_Ico.mpr s.nonempty)

/-- Independent uniform draws. -/
noncomputable def independent : List Span → PMF (List Nat)
  | [] => PMF.pure []
  | s :: spans => s.uniform.bind fun d => (independent spans).map (d :: ·)

theorem map_cons_apply (p : PMF (List Nat)) (d e ds) :
    p.map (d :: ·) (e :: ds) = if d = e then p ds else 0 := by
  rw [PMF.map_apply]
  by_cases h : d = e
  · subst h
    rw [if_pos rfl, tsum_eq_single ds]
    · rw [if_pos rfl]
    intro ds' hne
    rw [if_neg]
    intro heq
    exact hne (List.cons.inj heq).2.symm
  · rw [if_neg h, ENNReal.tsum_eq_zero]
    intro ds'
    rw [if_neg]
    intro heq
    exact h (List.cons.inj heq).1.symm

theorem independent_cons (s : Span) (spans d ds) :
    independent (s :: spans) (d :: ds) = s.uniform d * independent spans ds := by
  rw [independent, PMF.bind_apply, tsum_eq_single d]
  · rw [map_cons_apply, if_pos rfl]
  · intro e hne
    rw [map_cons_apply, if_neg hne, mul_zero]

theorem independent_apply {spans ds} (h : InSpans spans ds) :
    independent spans ds = (sequences spans : ℝ≥0∞)⁻¹ := by
  induction h with
  | nil => simp [independent, sequences]
  | @cons s d spans ds hd _ ih =>
    have huniform : s.uniform d = ((s.hi - s.lo : Nat) : ℝ≥0∞)⁻¹ := by
      rw [Span.uniform, PMF.uniformOfFinset_apply_of_mem _ (Finset.mem_Ico.mpr hd), Nat.card_Ico]
    rw [independent_cons, huniform, ih, sequences, Nat.cast_mul, ENNReal.mul_inv]
    · exact .inr (ENNReal.natCast_ne_top _)
    · exact .inl (ENNReal.natCast_ne_top _)

theorem inSpans_of_independent (spans) : ∀ {ds : List Nat},
    independent spans ds ≠ 0 → InSpans spans ds := by
  induction spans with
  | nil =>
    intro ds h
    have hnil := (PMF.mem_support_iff _ _).mpr h
    rw [independent, PMF.support_pure, Set.mem_singleton_iff] at hnil
    rw [hnil]
    exact List.Forall₂.nil
  | cons s spans ih =>
    intro ds h
    have hcons := (PMF.mem_support_iff _ _).mpr h
    rw [independent, PMF.mem_support_bind_iff] at hcons
    obtain ⟨d, hd, hmap⟩ := hcons
    obtain ⟨ds', hds', rfl⟩ := (PMF.mem_support_map_iff _ _ _).mp hmap
    rw [Span.uniform, PMF.mem_support_uniformOfFinset_iff, Finset.mem_Ico] at hd
    exact List.Forall₂.cons hd (ih ((PMF.mem_support_iff _ _).mp hds'))

/-- Every sequence in range gives a result, and each result comes from exactly one of them. -/
structure OneToOne {β : Type} (spans : List Span) (f : List Nat → Option β) (P : β → Prop) :
    Prop where
  total : ∀ ds, InSpans spans ds → ∃ b, P b ∧ f ds = some b
  unique : ∀ b, P b → ∃! ds, InSpans spans ds ∧ f ds = some b

section

variable {β : Type} {spans : List Span} {f : List Nat → Option β} {P : β → Prop} {b : β}

theorem OneToOne.nil (hf : f [] = some b) (hP : ∀ b', P b' ↔ b' = b) : OneToOne [] f P := by
  refine ⟨?_, ?_⟩
  · rintro _ ⟨⟩
    exact ⟨b, (hP b).mpr rfl, hf⟩
  · intro b' hb'
    obtain rfl := (hP b').mp hb'
    exact ⟨[], ⟨.nil, hf⟩, fun ds hds => List.forall₂_nil_left_iff.mp hds.1⟩

theorem OneToOne.congr {Q : β → Prop} (h : OneToOne spans f P) (hPQ : ∀ b, P b ↔ Q b) :
    OneToOne spans f Q := by
  rwa [← funext fun b => propext (hPQ b)]

/-- After a first draw `d` the results are those of `Q d`, and these are apart. -/
theorem OneToOne.cons {s : Span} {Q : Nat → β → Prop}
    (hrest : ∀ d, s.lo ≤ d ∧ d < s.hi → OneToOne spans (fun ds => f (d :: ds)) (Q d))
    (hsub : ∀ d, s.lo ≤ d ∧ d < s.hi → ∀ b, Q d b → P b)
    (hfirst : ∀ b, P b → ∃ d, (s.lo ≤ d ∧ d < s.hi) ∧ Q d b ∧ ∀ d' < s.hi, Q d' b → d' = d) :
    OneToOne (s :: spans) f P := by
  refine ⟨?_, ?_⟩
  · rintro _ (_ | ⟨hd, hds⟩)
    obtain ⟨b, hb, hf⟩ := (hrest _ hd).total _ hds
    exact ⟨b, hsub _ hd b hb, hf⟩
  intro b hb
  obtain ⟨d, hd, hQ, honly⟩ := hfirst b hb
  obtain ⟨ds, ⟨hds, hf⟩, huniq⟩ := (hrest d hd).unique b hQ
  refine ⟨d :: ds, ⟨.cons hd hds, hf⟩, ?_⟩
  rintro _ ⟨_ | ⟨hd', hds'⟩, hf'⟩
  obtain ⟨b', hQ', hb'⟩ := (hrest _ hd').total _ hds'
  obtain rfl := Option.some.inj (hb'.symm.trans hf')
  obtain rfl := honly _ hd'.2 hQ'
  rw [huniq _ ⟨hds', hf'⟩]

theorem OneToOne.uniform (h : OneToOne spans f P) (hb : P b) :
    (independent spans).map f (some b) = (sequences spans : ℝ≥0∞)⁻¹ := by
  obtain ⟨ds, ⟨hds, hf⟩, huniq⟩ := h.unique b hb
  rw [PMF.map_apply, tsum_eq_single ds]
  · rw [if_pos hf.symm, independent_apply hds]
  intro ds' hne
  by_cases hz : independent spans ds' = 0
  · rw [hz, ite_self]
  · rw [if_neg]
    intro hf'
    exact hne (huniq ds' ⟨inSpans_of_independent spans hz, hf'.symm⟩)

end

end ChezziLang.Lib
