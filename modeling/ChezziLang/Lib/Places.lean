/-
  Tokens in places.

  A family of lists `f : ι → List α` says which tokens each place holds.
  `Unique f` says that no token is held twice, in one place or in two.  The
  lemmas are the ways in which a step changes such a family: tokens
  disappear (`Unique.mono`), a token that was nowhere appears (`Unique.insert`,
  several: `Unique.extend`), a token moves to another place (`Unique.move`), two
  places exchange tokens (`Unique.exchange`).  Each place only has to be
  bounded up to order, so that a queue may be cut, extended or rearranged.
-/
import Mathlib.Data.List.Nodup
import Mathlib.Data.List.Perm.Subperm

namespace ChezziLang.Lib.Places

open List

variable {ι α : Type}

theorem subperm_map {β : Type} (f : α → β) {l1 l2 : List α} (h : l1.Subperm l2) :
    (l1.map f).Subperm (l2.map f) := by
  obtain ⟨l, hp, hl⟩ := h
  exact ⟨l.map f, hp.map f, hl.map f⟩

/-- No token is held twice. -/
structure Unique (f : ι → List α) : Prop where
  nodup : ∀ i, (f i).Nodup
  inj : ∀ {i j : ι} {x : α}, x ∈ f i → x ∈ f j → i = j

theorem Unique.empty : Unique (fun _ : ι => ([] : List α)) :=
  ⟨fun _ => nodup_nil, fun h => absurd h not_mem_nil⟩

variable {f g : ι → List α}

theorem Unique.mono (h : Unique f) (hs : ∀ i, (g i).Subperm (f i)) : Unique g where
  nodup := fun i => by
    obtain ⟨l, hp, hl⟩ := hs i
    exact hp.nodup_iff.mp ((h.nodup i).sublist hl)
  inj := fun hi hj => h.inj ((hs _).subset hi) ((hs _).subset hj)

/-- A token is held exactly once, counting positions. -/
theorem Unique.position_unique (h : Unique f) {i j} {m n : Nat} {x} (hi : (f i)[m]? = some x)
    (hj : (f j)[n]? = some x) : i = j ∧ m = n := by
  have hij : i = j := h.inj (mem_of_getElem? hi) (mem_of_getElem? hj)
  subst hij
  obtain ⟨hm, hm'⟩ := List.getElem?_eq_some_iff.mp hi
  obtain ⟨hn, hn'⟩ := List.getElem?_eq_some_iff.mp hj
  exact ⟨rfl, (h.nodup i).getElem_inj_iff.mp (hm'.trans hn'.symm)⟩

/-- Tokens that were nowhere appear in place `b`. -/
theorem Unique.extend (h : Unique f) {xs} (hxs : xs.Nodup) (hx : ∀ x ∈ xs, ∀ i, x ∉ f i) (b)
    (hb : (g b).Subperm (f b ++ xs)) (hother : ∀ i, i ≠ b → (g i).Subperm (f i)) : Unique g := by
  have hold : ∀ {i : ι} {x : α}, x ∈ g i → x ∈ f i ∨ i = b ∧ x ∈ xs := by
    intro i x hi
    by_cases hib : i = b
    · subst hib
      rcases mem_append.mp (hb.subset hi) with hf | hnew
      · exact .inl hf
      · exact .inr ⟨rfl, hnew⟩
    · exact .inl ((hother i hib).subset hi)
  constructor
  · intro i
    by_cases hib : i = b
    · subst hib
      have hnodup : (f i ++ xs).Nodup := by
        rw [nodup_append]
        refine ⟨h.nodup i, hxs, ?_⟩
        rintro x hi y hy rfl
        exact hx x hy i hi
      obtain ⟨l, hp, hl⟩ := hb
      exact hp.nodup_iff.mp (hnodup.sublist hl)
    · obtain ⟨l, hp, hl⟩ := hother i hib
      exact hp.nodup_iff.mp ((h.nodup i).sublist hl)
  · intro i j x hi hj
    rcases hold hi with hi | ⟨rfl, hi⟩
    · rcases hold hj with hj | ⟨rfl, hj⟩
      · exact h.inj hi hj
      · exact absurd hi (hx x hj i)
    · rcases hold hj with hj | ⟨rfl, hj⟩
      · exact absurd hj (hx x hi j)
      · rfl

/-- Two places exchange tokens. -/
theorem Unique.exchange (h : Unique f) {a b} (hab : a ≠ b) (hs : (g a ++ g b).Subperm (f a ++ f b))
    (hother : ∀ i, i ≠ a → i ≠ b → (g i).Subperm (f i)) : Unique g := by
  have hnodup : (g a ++ g b).Nodup := by
    have hf : (f a ++ f b).Nodup := by
      rw [nodup_append]
      refine ⟨h.nodup a, h.nodup b, ?_⟩
      rintro x hxa y hxb rfl
      exact hab (h.inj hxa hxb)
    obtain ⟨l, hp, hl⟩ := hs
    exact hp.nodup_iff.mp (hf.sublist hl)
  obtain ⟨ha, hb, hdisj⟩ := nodup_append.mp hnodup
  -- A token of a third place is in neither of the two.
  have hthird : ∀ {i : ι} {x : α}, i ≠ a → i ≠ b → x ∈ g i → x ∉ g a ++ g b := by
    intro i x hia hib hi hx
    have hfi := (hother i hia hib).subset hi
    rcases mem_append.mp (hs.subset hx) with hx | hx
    · exact hia (h.inj hfi hx)
    · exact hib (h.inj hfi hx)
  constructor
  · intro i
    by_cases hia : i = a
    · exact hia ▸ ha
    by_cases hib : i = b
    · exact hib ▸ hb
    · obtain ⟨l, hp, hl⟩ := hother i hia hib
      exact hp.nodup_iff.mp ((h.nodup i).sublist hl)
  · intro i j x hi hj
    by_cases hx : x ∈ g a ++ g b
    -- Both are among the two places, which share no token.
    · have hplace : ∀ {k : ι}, x ∈ g k → k = a ∨ k = b := by
        intro k hk
        by_contra hne
        rw [not_or] at hne
        exact hthird hne.1 hne.2 hk hx
      rcases hplace hi with rfl | rfl
      · rcases hplace hj with rfl | rfl
        · rfl
        · exact absurd rfl (hdisj x hi x hj)
      · rcases hplace hj with rfl | rfl
        · exact absurd rfl (hdisj x hj x hi)
        · rfl
    · have hold : ∀ {k : ι}, x ∈ g k → x ∈ f k := fun {k} hk =>
        (hother k (fun he => hx (mem_append_left _ (he ▸ hk)))
          fun he => hx (mem_append_right _ (he ▸ hk))).subset hk
      exact h.inj (hold hi) (hold hj)

variable [DecidableEq ι]

theorem Unique.insert (h : Unique f) {x} (hx : ∀ i, x ∉ f i) (b)
    (hs : ∀ i, (g i).Subperm (if i = b then x :: f i else f i)) : Unique g := by
  refine h.extend (nodup_singleton x) (fun y hy => mem_singleton.mp hy ▸ hx) b ?_
    fun i hi => ?_
  · have hb := hs b
    rw [if_pos rfl] at hb
    exact hb.trans (perm_append_singleton x (f b)).symm.subperm
  · have hi' := hs i
    rwa [if_neg hi] at hi'

variable [DecidableEq α]

/-- A token leaves the place it is in and enters place `b`. -/
theorem Unique.move (h : Unique f) (x b)
    (hs : ∀ i, (g i).Subperm (if i = b then x :: (f i).erase x else (f i).erase x)) : Unique g :=
  Unique.insert (f := fun i => (f i).erase x) (h.mono fun _ => erase_sublist.subperm)
    (fun i => (h.nodup i).not_mem_erase) b hs

end ChezziLang.Lib.Places
