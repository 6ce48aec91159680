/-
  `split` and `rsplit` of `std/string.chz`.

  The native `s.split(sep)` is the greedy splitter from the left, and `reversed` reverses the
  characters.

  Proved:
  * `rsplit_greedy`: `rsplit` cuts where the greedy search from the right does.
-/
import ChezziLang.Lib.Cuts
import ChezziLang.Stdlib.Text

namespace ChezziLang.Stdlib.Strings

open Lib.Cuts List

/-- `while` over the indices `is`: push `f(xs[i])`. -/
def pushEach (xs : List Text) (f : Text → Text) (is : List Nat) : Run (List Text) :=
  is.foldlM (fun out i => do return out ++ [f (← index xs i)]) []

def split (s sep : Text) (maxsplit : Int) : Run (List Text) :=
  if sep.length = 0 then .error (.panic "split: sep must not be empty")
  else
    let parts := splitSeq sep s
    if maxsplit < 0 ∨ maxsplit ≥ (parts.length : Int) - 1 then .ok parts
    else do
      let out ← pushEach parts id (range maxsplit.toNat)
      return out ++ [sep.intercalate ((parts.take parts.length).drop maxsplit.toNat)]

def rsplit (s sep : Text) (maxsplit : Int) : Run (List Text) :=
  if sep.length = 0 then .error (.panic "rsplit: sep must not be empty")
  else do
    let rev ← split s.reverse sep.reverse maxsplit
    pushEach rev reverse (range rev.length).reverse

theorem pushEach_eq {xs ys : List Text} {is} (f) (h : is.map (xs[·]?) = ys.map some) :
    pushEach xs f is = .ok (ys.map f) := by
  have hfold : ∀ out, is.foldlM (fun out i => do return out ++ [f (← index xs i)]) out =
      (.ok (out ++ ys.map f) : Run (List Text)) := by
    induction is generalizing ys with
    | nil =>
      intro out
      obtain rfl : ys = [] := map_eq_nil_iff.mp h.symm
      rw [map_nil, append_nil]
      rfl
    | cons i is ih =>
      intro out
      obtain ⟨y, ys, rfl⟩ := exists_cons_of_ne_nil (l := ys) (by rintro rfl; simp at h)
      obtain ⟨hi, his⟩ := cons.inj h
      have hindex : index xs i = .ok y := by rw [index, show xs[i]? = some y from hi]
      rw [foldlM_cons, hindex]
      exact (ih his _).trans (by simp)
  exact hfold []

theorem map_range_getElem? (xs : List Text) {m} (hm : m ≤ xs.length) :
    (range m).map (xs[·]?) = (xs.take m).map some := by
  refine ext_getElem (by simp [hm]) fun i hi _ => ?_
  have : i < xs.length := by simp at hi; omega
  simp [this]

/-- How many cuts are asked for. -/
def limit (maxsplit : Int) : Option Nat := if maxsplit < 0 then none else some maxsplit.toNat

theorem split_greedy (s sep : Text) (hsep : sep ≠ []) (maxsplit) :
    ∃ ps, split s sep maxsplit = .ok ps ∧ Greedy sep (limit maxsplit) s ps := by
  have hgreedy := splitSeq_greedy hsep s
  unfold split limit
  rw [if_neg (fun h => hsep (length_eq_zero_iff.mp h))]
  by_cases hneg : maxsplit < 0
  · exact ⟨_, by rw [if_pos (.inl hneg)], by rw [if_pos hneg]; exact hgreedy⟩
  have hlimit := hgreedy.limit maxsplit.toNat
  rw [if_neg hneg]
  by_cases hall : maxsplit ≥ ((splitSeq sep s).length : Int) - 1
  · rw [if_pos (by omega)] at hlimit
    exact ⟨_, by rw [if_pos (.inr hall)], hlimit⟩
  rw [if_neg (by omega)] at hlimit
  have hpush := pushEach_eq id
    (map_range_getElem? (splitSeq sep s) (m := maxsplit.toNat) (by omega))
  rw [map_id] at hpush
  refine ⟨_, ?_, hlimit⟩
  rw [if_neg (not_or.mpr ⟨hneg, hall⟩), hpush, take_length]
  rfl

/-- **`rsplit` is the greedy split from the right.** -/
theorem rsplit_greedy (s sep : Text) (hsep : sep ≠ []) (maxsplit : Int) :
    ∃ ps, rsplit s sep maxsplit = .ok ps ∧
      (∀ qs, RightGreedy sep (limit maxsplit) s qs ↔ qs = ps) ∧
      sep.intercalate ps = s ∧ (0 ≤ maxsplit → (ps.length : Int) ≤ maxsplit + 1) := by
  obtain ⟨rev, hsplit, hgreedy⟩ :=
    split_greedy s.reverse sep.reverse (fun h => hsep (reverse_eq_nil_iff.mp h)) maxsplit
  have hright := hgreedy.reverse
  refine ⟨_, ?_, fun qs => ⟨fun h => h.unique hright, fun h => h ▸ hright⟩, hright.join, ?_⟩
  · unfold rsplit
    rw [if_neg (fun h => hsep (length_eq_zero_iff.mp h)), hsplit, ← map_reverse]
    refine pushEach_eq reverse ?_
    rw [map_reverse, map_range_getElem? _ le_rfl, take_length, map_reverse]
  · intro hpos
    have := hright.length_le (m := maxsplit.toNat) (if_neg (by omega))
    omega

theorem rsplit_greedy_overlap :
    ∃ ps, rsplit "aaa".toList "aa".toList (-1) = .ok ps ∧
      ∀ qs, RightGreedy "aa".toList none "aaa".toList qs ↔ qs = ps := by
  obtain ⟨ps, hok, hiff, -⟩ := rsplit_greedy "aaa".toList "aa".toList (by decide) (-1)
  exact ⟨ps, hok, hiff⟩

end ChezziLang.Stdlib.Strings
