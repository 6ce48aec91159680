/-
  Runs of a step relation.

  `Settles step s0 final`: every run from `s0` comes to a final state.  It can go on as long as it
  has not, and it cannot go on for ever.

  Proved:
  * `Reaches.keeps`: what every step keeps holds in every state of a run.
  * `Settles.of_rank`: an invariant, a rank that each step lowers, and a step from every state
    that is not final.
-/
import Mathlib.Logic.Relation

namespace ChezziLang.Lib.Runs

variable {S : Type} {step : S → S → Prop} {s0 s : S} {Inv final : S → Prop}

/-- Some run from `s0` comes to `s`. -/
def Reaches (step : S → S → Prop) (s0 s : S) : Prop := Relation.ReflTransGen step s0 s

theorem Reaches.refl : Reaches step s0 s0 := Relation.ReflTransGen.refl

theorem Reaches.tail {s'} (h : Reaches step s0 s) (hstep : step s s') : Reaches step s0 s' :=
  Relation.ReflTransGen.tail h hstep

theorem Reaches.keeps (h : Reaches step s0 s) (hinit : Inv s0)
    (hstep : ∀ s s', Inv s → step s s' → Inv s') : Inv s := by
  induction h with
  | refl => exact hinit
  | tail _ hlast ih => exact hstep _ _ ih hlast

structure Settles (step : S → S → Prop) (s0 : S) (final : S → Prop) : Prop where
  progress : ∀ s, Reaches step s0 s → ¬ final s → ∃ s', step s s'
  ends : ∀ run : Nat → S, run 0 = s0 → ∃ k, ¬ step (run k) (run (k + 1))

theorem Settles.of_rank (rank : S → Nat) (hinit : Inv s0)
    (hstep : ∀ s s', Inv s → step s s' → Inv s')
    (hrank : ∀ s s', Inv s → step s s' → rank s' < rank s)
    (hprogress : ∀ s, Inv s → ¬ final s → ∃ s', step s s') : Settles step s0 final := by
  refine ⟨fun s hs hnot => hprogress s (hs.keeps hinit hstep) hnot, ?_⟩
  intro run hzero
  refine Classical.byContradiction fun hnone => ?_
  have hall : ∀ k, step (run k) (run (k + 1)) := fun k =>
    Classical.byContradiction fun h => hnone ⟨k, h⟩
  -- after `k` steps the rank has gone down by `k` at least
  have hdown : ∀ k, Inv (run k) ∧ rank (run k) + k ≤ rank (run 0) := by
    intro k
    induction k with
    | zero => exact ⟨hzero ▸ hinit, Nat.le_refl _⟩
    | succ k ih =>
      have := hrank _ _ ih.1 (hall k)
      exact ⟨hstep _ _ ih.1 (hall k), by omega⟩
  have := (hdown (rank (run 0) + 1)).2
  omega

end ChezziLang.Lib.Runs
