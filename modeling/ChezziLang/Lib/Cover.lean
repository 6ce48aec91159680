/-
  Comparing two lists without regard to order: as long as each other, and every element of
  one has a partner in the other.

  Proved:
  * `cover_symm`: if no two elements of the first list share a partner, every element of
    the second list is a partner.
  * `mapM_eq_some_iff`: traversing a list under `Option`, as a relation between the lists.
-/
import Mathlib.Data.Fintype.EquivFin

namespace ChezziLang.Lib

open Function List Option

variable {α β : Type}

/-- Every element of `xs` has a partner in `ys`. -/
def Covers (R : α → β → Prop) (xs : List α) (ys : List β) : Prop := ∀ x ∈ xs, ∃ y ∈ ys, R x y

variable {R : α → β → Prop} {xs : List α} {ys : List β}

/-- **A cover by a list of the same length that never uses an element twice uses all.** -/
theorem cover_symm (hlen : xs.length = ys.length) (hcover : Covers R xs ys)
    (hapart : xs.Pairwise fun a b => ∀ y, R a y → ¬ R b y) :
    Covers (fun y x => R x y) ys xs := by
  have hpartner : ∀ i : Fin xs.length, ∃ j : Fin xs.length, R xs[i] (ys.get (j.cast hlen)) := by
    intro i
    obtain ⟨y, hy, hR⟩ := hcover xs[i] (getElem_mem _)
    obtain ⟨j, hj, rfl⟩ := getElem_of_mem hy
    exact ⟨⟨j, by omega⟩, hR⟩
  choose f hf using hpartner
  have hinj : Injective f := by
    intro i j hij
    have hi := hf i
    have hj := hf j
    rw [hij] at hi
    rcases Nat.lt_trichotomy i.1 j.1 with h | h | h
    · exact absurd hj (pairwise_iff_getElem.mp hapart i j i.2 j.2 h _ hi)
    · exact Fin.ext h
    · exact absurd hi (pairwise_iff_getElem.mp hapart j i j.2 i.2 h _ hj)
  have hsurj := Finite.injective_iff_surjective.mp hinj
  intro y hy
  obtain ⟨k, hk, rfl⟩ := getElem_of_mem hy
  obtain ⟨i, hi⟩ := hsurj ⟨k, by omega⟩
  have := hf i
  rw [hi] at this
  exact ⟨xs[i], getElem_mem _, this⟩

theorem Covers.trans {γ} {Q : β → γ → Prop} {P} {zs : List γ} (hxy : Covers R xs ys)
    (hyz : Covers Q ys zs) (h : ∀ x ∈ xs, ∀ y ∈ ys, ∀ z ∈ zs, R x y → Q y z → P x z) :
    Covers P xs zs := by
  intro x hx
  obtain ⟨y, hy, hR⟩ := hxy x hx
  obtain ⟨z, hz, hQ⟩ := hyz y hy
  exact ⟨z, hz, h x hx y hy z hz hR hQ⟩

theorem mapM_eq_some_iff {f} : xs.mapM f = some ys ↔ Forall₂ (fun x y => f x = some y) xs ys := by
  induction xs generalizing ys with
  | nil => simp [eq_comm]
  | cons x xs ih =>
    rw [mapM_cons]
    constructor
    · intro h
      obtain ⟨y, hy, hrest⟩ := bind_eq_some_iff.mp h
      obtain ⟨zs, hzs, heq⟩ := bind_eq_some_iff.mp hrest
      cases heq
      exact .cons hy (ih.mp hzs)
    · rintro (_ | ⟨hy, hrest⟩)
      rw [hy, ih.mpr hrest]
      rfl

theorem mapM_congr {f g : α → Option β} (h : ∀ x ∈ xs, f x = g x) : xs.mapM f = xs.mapM g := by
  induction xs with
  | nil => rfl
  | cons x xs ih =>
    rw [mapM_cons, mapM_cons, h x mem_cons_self, ih (forall_mem_cons.mp h).2]

section

variable (h : Forall₂ R xs ys)
include h

theorem forall₂_mem_left {x} (hx : x ∈ xs) : ∃ y ∈ ys, R x y := by
  induction h with
  | nil => cases hx
  | @cons x' y xs ys hxy _ ih =>
    rcases mem_cons.mp hx with rfl | hx
    · exact ⟨y, mem_cons_self, hxy⟩
    · obtain ⟨y', hy', hR⟩ := ih hx
      exact ⟨y', mem_cons_of_mem y hy', hR⟩

theorem forall₂_mem_right {y} (hy : y ∈ ys) : ∃ x ∈ xs, R x y :=
  forall₂_mem_left h.flip hy

theorem forall₂_imp_mem {S} (himp : ∀ x ∈ xs, ∀ y ∈ ys, R x y → S x y) :
    Forall₂ S xs ys := by
  induction h with
  | nil => exact .nil
  | cons hxy _ ih =>
    refine .cons (himp _ mem_cons_self _ mem_cons_self hxy) (ih fun x hx y hy => ?_)
    exact himp x (.tail _ hx) y (.tail _ hy)

/-- Two lists related to a third element by element. -/
theorem forall₂_through {γ : Type} {S} {T : β → γ → Prop} {zs} (h' : Forall₂ S xs zs) (hT : ∀ {x y
    z}, R x y → S x z → T y z) : Forall₂ T ys zs := by
  induction h generalizing zs with
  | nil =>
    cases h'
    exact .nil
  | cons hr _ ih =>
    cases h' with
    | cons hs hrest => exact .cons (hT hr hs) (ih hrest)

end

/-- Related through an element each, or through a list of them. -/
theorem forall₂_comp {γ : Type} {S} {zs : List γ} : Forall₂ (fun x z => ∃ y, R x y ∧ S y z) xs zs ↔
      ∃ ys, Forall₂ R xs ys ∧ Forall₂ S ys zs := by
  constructor
  · intro h
    induction h with
    | nil => exact ⟨[], .nil, .nil⟩
    | cons hxz _ ih =>
      obtain ⟨y, hxy, hyz⟩ := hxz
      obtain ⟨ys, hxs, hzs⟩ := ih
      exact ⟨y :: ys, .cons hxy hxs, .cons hyz hzs⟩
  · rintro ⟨ys, hxs, hzs⟩
    induction hxs generalizing zs with
    | nil =>
      cases hzs
      exact .nil
    | cons hxy _ ih =>
      cases hzs with
      | cons hyz hrest => exact .cons ⟨_, hxy, hyz⟩ (ih hrest)

end ChezziLang.Lib
