/-
  Exchanging two elements of a list through a temporary, where an index out of range faults.

  Proved:
  * `exchange_eq`: inside the list it is the swap of the two positions.
  * `getElem?_swap`: what is at a position after a swap.
-/
import Mathlib.Data.List.Perm.Basic
import Mathlib.Logic.Equiv.Basic

namespace ChezziLang.Lib

open List

variable {α : Type}

/-- `tmp := l[i]; l[i] = l[j]; l[j] = tmp`. -/
def exchange (l : List α) (i j : Nat) : Option (List α) := do
  let tmp ← l[i]?
  let v ← l[j]?
  return (l.set i v).set j tmp

theorem exchange_eq {l : List α} {i j} (hi : i < l.length) (hj : j < l.length) :
    exchange l i j = some (l.swap i j) := by
  rw [swap_eq_of_lt hi hj, exchange, getElem?_eq_getElem hi, getElem?_eq_getElem hj]
  rfl

theorem getElem?_swap {l : List α} {i j} (hi : i < l.length) (hj : j < l.length) (k) :
    (l.swap i j)[k]? = l[Equiv.swap i j k]? := by
  rw [swap_eq_of_lt hi hj, Equiv.swap_apply_def]
  by_cases hkj : k = j
  · subst hkj
    by_cases hki : k = i
    · subst hki
      simp [hi]
    · simp [hki, hi, hj]
  · by_cases hki : k = i
    · subst hki
      simp [hi, hj, Ne.symm hkj]
    · simp [hki, hkj, Ne.symm hkj, Ne.symm hki]

end ChezziLang.Lib
