/-
  Rosters: lists that name each member of a set once.

  A counter that follows a set of parties through steps of one party at a time is the
  length of such a list.  The lemmas are the ways in which a step changes it: a party
  joins, a party leaves, nothing changes.  `swapRemove` is the removal that moves the
  last entry into the gap.

  Proved:
    * `Lists.covers`: a roster inside another that is not longer names the same parties;
    * `swapRemove_perm`: `swapRemove` takes out exactly the entry at the index;
    * `lookup_iff_mem`: under distinct keys a lookup finds exactly the entries.
-/
import Mathlib.Data.List.Nodup
import Mathlib.Data.List.Perm.Subperm

namespace ChezziLang.Lib.Roster

open List

variable {T : Type} {p q : T → Prop} {l m : List T}

/-- The list names every party with the property, once. -/
structure Lists (l : List T) (p : T → Prop) : Prop where
  nodup : l.Nodup
  mem_iff : ∀ t, t ∈ l ↔ p t

theorem Lists.congr (h : Lists l p) (hpq : ∀ t, q t ↔ p t) : Lists l q :=
  ⟨h.nodup, fun t => (h.mem_iff t).trans (hpq t).symm⟩

theorem Lists.nil (h : ∀ t, ¬ p t) : Lists [] p :=
  ⟨nodup_nil, fun t => iff_of_false not_mem_nil (h t)⟩

theorem Lists.join (h : Lists l p) {t} (ht : ¬ p t) (hq : ∀ u, q u ↔ p u ∨ u = t) :
    Lists (l ++ [t]) q := by
  constructor
  · rw [nodup_append_comm, singleton_append, nodup_cons]
    exact ⟨fun hmem => ht ((h.mem_iff t).mp hmem), h.nodup⟩
  · intro u
    rw [mem_append, mem_singleton, h.mem_iff, hq]

theorem Lists.leave [DecidableEq T] (h : Lists l p) {t} (hq : ∀ u, q u ↔ p u ∧ u ≠ t) :
    Lists (l.erase t) q := by
  constructor
  · exact h.nodup.erase t
  · intro u
    rw [h.nodup.mem_erase_iff, h.mem_iff, hq, and_comm]

/-- A roster inside another that is not longer names the same parties. -/
theorem Lists.covers (hl : Lists l p) (hm : Lists m q) (hpq : ∀ t, p t → q t)
    (hlen : m.length ≤ l.length) {t} (ht : q t) : p t := by
  have hsub : l.Subperm m := by
    apply hl.nodup.subperm
    intro u hu
    exact (hm.mem_iff u).mpr (hpq u ((hl.mem_iff u).mp hu))
  have hperm : l.Perm m := hsub.perm_of_length_le hlen
  exact (hl.mem_iff t).mp (hperm.mem_iff.mpr ((hm.mem_iff t).mpr ht))

/-! ## Entries under keys -/

section

variable {K V : Type} [BEq K] [LawfulBEq K] {es : List (K × V)} {k : K} {v : V}

theorem mem_of_lookup (h : es.lookup k = some v) : (k, v) ∈ es := by
  obtain ⟨l1, l2, rfl, -⟩ := lookup_eq_some_iff.mp h
  exact mem_append_right _ mem_cons_self

theorem lookup_iff_mem (hkeys : (es.map Prod.fst).Nodup) : es.lookup k = some v ↔ (k, v) ∈ es := by
  refine ⟨mem_of_lookup, fun he => ?_⟩
  obtain ⟨l1, l2, rfl⟩ := append_of_mem he
  refine lookup_eq_some_iff.mpr ⟨l1, l2, rfl, fun p hp => ?_⟩
  rw [map_append, map_cons, nodup_append] at hkeys
  have hne := hkeys.2.2 p.1 (mem_map_of_mem hp) k mem_cons_self
  simpa using Ne.symm hne

end

/-! ## Removal by the last entry -/

/-- The last entry takes the place of the one removed. -/
def swapRemove (l : List T) (i : Nat) : List T :=
  match l.getLast? with
  | none => []
  | some x => (l.set i x).dropLast

theorem swapRemove_perm {i a} (h : l[i]? = some a) : (a :: swapRemove l i).Perm l := by
  obtain ⟨hi, ha⟩ := List.getElem?_eq_some_iff.mp h
  have hne : l ≠ [] := ne_nil_of_length_pos (by omega)
  obtain ⟨init, x, rfl⟩ : ∃ init x, l = init ++ [x] :=
    ⟨l.dropLast, l.getLast hne, (dropLast_append_getLast hne).symm⟩
  unfold swapRemove
  rw [getLast?_concat]
  dsimp only
  rw [length_append, length_singleton] at hi
  rcases Nat.lt_or_eq_of_le (Nat.le_of_lt_succ hi) with hlt | rfl
  · rw [set_append_left _ _ hlt, dropLast_concat]
    rw [getElem_append_left hlt] at ha
    -- `init` splits around the entry that goes.
    have hsplit : init = init.take i ++ a :: init.drop (i + 1) := by
      rw [← ha, getElem_cons_drop, take_append_drop]
    rw [set_eq_take_append_cons_drop, if_pos hlt]
    conv => rhs; rw [hsplit, append_assoc, cons_append]
    have hlast : (x :: init.drop (i + 1)).Perm (init.drop (i + 1) ++ [x]) :=
      (perm_append_singleton x _).symm
    exact ((hlast.append_left (init.take i)).cons a).trans perm_middle.symm
  · rw [set_append_right _ _ (Nat.le_refl _), Nat.sub_self, set_cons_zero, dropLast_concat]
    rw [getElem_concat_length rfl] at ha
    rw [ha]
    exact (perm_append_singleton a init).symm

end ChezziLang.Lib.Roster
