/-
  The order of a binary heap laid out by level: the children of position `i` are `2 * i + 1` and
  `2 * i + 2`.

  A layout is a function from positions to values, and `R a b` says that `a` belongs above `b`.
  Sifting keeps every edge in order but those at one position.

  Proved:
  * `UpReady.step`, `UpReady.ordered`: a value moves up until it does not belong above its parent.
  * `DownReady.step`, `DownReady.ordered`: a value moves down until no child belongs above it.
  * `Ordered.root`: in an ordered layout nothing belongs above the root.
  * `Above`: positions without a value come below all others, so that a layout's end needs no case.
-/
import Mathlib.Logic.Equiv.Basic

namespace ChezziLang.Lib.BinHeap

variable {V : Type} {R : V → V → Prop} [IsStrictWeakOrder V R] {g : Nat → V} {i : Nat}

/-- In a strict weak order "not above" is transitive. -/
theorem not_above_trans {a b c} (hab : ¬ R a b) (hbc : ¬ R b c) : ¬ R a c := by
  intro hac
  have hba : ¬ R b a := fun h => hbc (trans_of R h hac)
  have hcb : ¬ R c b := fun h => hab (trans_of R hac h)
  exact (IsStrictWeakOrder.incomp_trans a b c ⟨hab, hba⟩ ⟨hbc, hcb⟩).1 hac

/-! ## Positions -/

def parent (i : Nat) : Nat := (i - 1) / 2

theorem parent_lt (hi : 0 < i) : parent i < i := by
  unfold parent
  omega

theorem parent_eq_iff {j} (hj : 0 < j) : parent j = i ↔ j = 2 * i + 1 ∨ j = 2 * i + 2 := by
  unfold parent
  omega

/-! ## Layouts -/

omit [IsStrictWeakOrder V R] in
theorem swap_other {j k} (hi : k ≠ i) (hj : k ≠ j) : (g ∘ Equiv.swap i j) k = g k :=
  congrArg g (Equiv.swap_apply_of_ne_of_ne hi hj)

omit [IsStrictWeakOrder V R] in
theorem swap_left (g : Nat → V) (i j) : (g ∘ Equiv.swap i j) i = g j :=
  congrArg g (Equiv.swap_apply_left i j)

omit [IsStrictWeakOrder V R] in
theorem swap_right (g : Nat → V) (i j) : (g ∘ Equiv.swap i j) j = g i :=
  congrArg g (Equiv.swap_apply_right i j)

/-- No value belongs above its parent's. -/
def Ordered (R : V → V → Prop) (g : Nat → V) : Prop := ∀ j, 0 < j → ¬ R (g j) (g (parent j))

theorem Ordered.root (h : Ordered R g) (i) : ¬ R (g i) (g 0) := by
  induction i using Nat.strongRecOn with
  | ind i ih =>
    rcases Nat.eq_zero_or_pos i with rfl | hi
    · exact irrefl_of R (g 0)
    · exact not_above_trans (h i hi) (ih (parent i) (parent_lt hi))

/-- Only the edge into `i` may be out of order, and `i`'s children fit below its parent. -/
structure UpReady (R : V → V → Prop) (g : Nat → V) (i : Nat) : Prop where
  edges : ∀ j, 0 < j → j ≠ i → ¬ R (g j) (g (parent j))
  skip : ∀ j, 0 < j → parent j = i → 0 < i → ¬ R (g j) (g (parent i))

omit [IsStrictWeakOrder V R] in
theorem UpReady.ordered (h : UpReady R g i) (hstop : 0 < i → ¬ R (g i) (g (parent i))) :
    Ordered R g := by
  intro j hj
  by_cases hji : j = i
  · subst hji
    exact hstop hj
  · exact h.edges j hj hji

theorem UpReady.step (h : UpReady R g i) (hi : 0 < i) (habove : R (g i) (g (parent i))) :
    UpReady R (g ∘ Equiv.swap i (parent i)) (parent i) := by
  have hp := parent_lt hi
  refine ⟨?_, ?_⟩
  · intro j hj hjp
    by_cases hji : j = i
    · subst hji
      rw [swap_left, swap_right]
      exact asymm_of R habove
    rw [swap_other hji hjp]
    by_cases hpi : parent j = i
    · rw [hpi, swap_left]
      exact h.skip j hj hpi hi
    by_cases hpp : parent j = parent i
    · rw [hpp, swap_right]
      intro hR
      apply h.edges j hj hji
      rw [hpp]
      exact trans_of R hR habove
    rw [swap_other hpi hpp]
    exact h.edges j hj hji
  · intro j hj hjp hp0
    have hpp := parent_lt hp0
    have hup : ¬ R (g (parent i)) (g (parent (parent i))) := h.edges _ hp0 (by omega)
    have hgrand : (g ∘ Equiv.swap i (parent i)) (parent (parent i)) = g (parent (parent i)) :=
      swap_other (by omega) (by omega)
    rw [hgrand]
    by_cases hji : j = i
    · rw [hji, swap_left]
      exact hup
    have hlt := parent_lt hj
    rw [swap_other hji (by omega)]
    apply not_above_trans _ hup
    rw [← hjp]
    exact h.edges j hj hji

/-- Only the edges out of `i` may be out of order, and `i`'s children fit below its parent. -/
structure DownReady (R : V → V → Prop) (g : Nat → V) (i : Nat) : Prop where
  edges : ∀ j, 0 < j → parent j ≠ i → ¬ R (g j) (g (parent j))
  skip : ∀ j, 0 < j → parent j = i → 0 < i → ¬ R (g j) (g (parent i))

omit [IsStrictWeakOrder V R] in
theorem DownReady.ordered (h : DownReady R g i)
    (hstop : ∀ j, 0 < j → parent j = i → ¬ R (g j) (g i)) : Ordered R g := by
  intro j hj
  by_cases hpi : parent j = i
  · rw [hpi]
    exact hstop j hj hpi
  · exact h.edges j hj hpi

theorem DownReady.step {c} (h : DownReady R g i) (hc : 0 < c) (hpc : parent c = i)
    (habove : R (g c) (g i)) (htop : ∀ j, 0 < j → parent j = i → ¬ R (g j) (g c)) :
    DownReady R (g ∘ Equiv.swap i c) c := by
  have hlt : i < c := hpc ▸ parent_lt hc
  refine ⟨?_, ?_⟩
  · intro j hj hpj
    by_cases hji : j = i
    · subst hji
      have hp := parent_lt hj
      have hup : (g ∘ Equiv.swap j c) (parent j) = g (parent j) := swap_other (by omega) hpj
      rw [hup, swap_left]
      exact h.skip c hc hpc hj
    by_cases hjc : j = c
    · subst hjc
      rw [hpc, swap_right, swap_left]
      exact asymm_of R habove
    rw [swap_other hji hjc]
    by_cases hpi : parent j = i
    · rw [hpi, swap_left]
      exact htop j hj hpi
    rw [swap_other hpi hpj]
    exact h.edges j hj hpi
  · intro j hj hpj _
    have hlt' := parent_lt hj
    rw [hpc, swap_left, swap_other (by omega) (by omega), ← hpj]
    exact h.edges j hj (by omega)

/-! ## Layouts with an end -/

/-- `R` on values that may be absent: every value belongs above an absent one. -/
def Above (R : V → V → Prop) : Option V → Option V → Prop
  | some a, some b => R a b
  | some _, none => True
  | none, _ => False

omit [IsStrictWeakOrder V R] in

omit [IsStrictWeakOrder V R] in

instance : IsStrictWeakOrder (Option V) (Above R) where
  irrefl a := by
    cases a with
    | none => exact id
    | some a => exact irrefl_of R a
  trans a b c hab hbc := by
    match a, b, c, hab, hbc with
    | some _, some _, some _, hab, hbc => exact trans_of R hab hbc
    | some _, some _, none, _, _ => trivial
  incomp_trans a b c hab hbc := by
    match a, b, c, hab, hbc with
    | none, none, none, _, _ => exact ⟨id, id⟩
    | some a, some b, some c, hab, hbc => exact IsStrictWeakOrder.incomp_trans a b c hab hbc
    | some _, none, _, hab, _ => exact absurd trivial hab.1
    | none, some _, _, hab, _ => exact absurd trivial hab.2
    | _, some _, none, _, hbc => exact absurd trivial hbc.1
    | _, none, some _, _, hbc => exact absurd trivial hbc.2

end ChezziLang.Lib.BinHeap
