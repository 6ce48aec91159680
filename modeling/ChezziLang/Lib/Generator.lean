/-
  Generators: a body that runs from one `yield` to the next.

  `resume` is the body from a program point to the next `yield`, to its end, or to a
  fault; `collect` resumes until the body ends, for as long as the fuel lasts.

  Proved:
    * `collect_yields`: a body that yields `n` times, and then goes on;
    * `collect_unique`: the fuel does not matter to a run that ended.
-/
import Mathlib.Data.List.Basic

namespace ChezziLang.Lib.Generator

variable {P E A : Type}

/-- Every value the body yields from the point `p` on, or its fault; `none` when the
    fuel runs out first. -/
def collect (resume : P → Except E (Option A × P)) : Nat → P → Option (Except E (List A))
  | 0, _ => none
  | fuel + 1, p =>
    match resume p with
    | .error f => some (.error f)
    | .ok (none, _) => some (.ok [])
    | .ok (some a, p') => (collect resume fuel p').map fun r => r.map (a :: ·)

variable {resume : P → Except E (Option A × P)} {p p' : P} {a : A} {fuel : Nat}

theorem collect_error {f} (h : resume p = .error f) :
    collect resume (fuel + 1) p = some (.error f) := by
  rw [collect, h]

theorem collect_end (h : resume p = .ok (none, p')) :
    collect resume (fuel + 1) p = some (.ok []) := by
  rw [collect, h]

theorem collect_yield (h : resume p = .ok (some a, p')) :
    collect resume (fuel + 1) p = (collect resume fuel p').map fun r => r.map (a :: ·) := by
  rw [collect, h]

/-- `n` yields, and what the body does after them. -/
theorem collect_yields {point : Nat → P} {value} (n)
    (h : ∀ k < n, resume (point k) = .ok (some (value k), point (k + 1))) :
    collect resume (n + fuel) (point 0) = (collect resume fuel (point n)).map fun r =>
      r.map ((List.range n).map value ++ ·) := by
  induction n generalizing fuel with
  | zero => rcases hc : collect resume fuel (point 0) with _ | (f | as) <;> simp [hc, Except.map]
  | succ n ih =>
    rw [Nat.add_assoc, Nat.add_comm 1, ih fun k hk => h k (by omega),
      collect_yield (h n (by omega)), Option.map_map, List.range_succ, List.map_append]
    rcases collect resume fuel (point (n + 1)) with _ | (f | as) <;> simp [Except.map]

theorem collect_succ {r} (h : collect resume fuel p = some r) :
    collect resume (fuel + 1) p = some r := by
  induction fuel generalizing p r with
  | zero => cases h
  | succ fuel ih =>
    rw [collect] at h ⊢
    split at h
    · exact h
    · exact h
    · obtain ⟨r', hr', he⟩ := Option.map_eq_some_iff.mp h
      rw [ih hr', Option.map_some, he]

theorem collect_add {r} (h : collect resume fuel p = some r) (more) :
    collect resume (fuel + more) p = some r := by
  induction more with
  | zero => exact h
  | succ more ih => exact collect_succ ih

/-- The fuel does not matter to a run that ended. -/
theorem collect_unique {fuel' r r'} (h : collect resume fuel p = some r)
    (h' : collect resume fuel' p = some r') : r = r' := by
  have hr := collect_add h fuel'
  have hr' := collect_add h' fuel
  rw [Nat.add_comm, hr'] at hr
  exact (Option.some.inj hr).symm

end ChezziLang.Lib.Generator
