/-
  Marking a graph with a stack of pending nodes.

  `succ x` is the list of the successors of `x`, or `none` when `x` is dangling: the loop
  then stops, and the marks it has made stay.  The invariant is the usual one of three
  colours: the successors of a marked node are marked or pending.

  Proved:
    * `markLoop_total`: a bound on the number of pops;
    * `markLoop_sound`: every new mark is on a reachable node, also when the loop stops
      early;
    * `markLoop_exact`: after a whole loop from marks on dangling nodes only, the marked
      nodes are those and the reachable ones.
-/
import Mathlib.Algebra.GroupWithZero.Nat
import Mathlib.Data.List.Nodup

namespace ChezziLang.Lib.Mark

open Function List

variable {N : Type} [DecidableEq N]

/-- Nodes that paths over live nodes reach from the roots. -/
inductive Reach (succ : N → Option (List N)) (roots : List N) : N → Prop where
  | root {x : N} (h : x ∈ roots) : Reach succ roots x
  | step {x y : N} {next : List N} (hx : Reach succ roots x) (hnext : succ x = some next)
      (hy : y ∈ next) : Reach succ roots y

def mark (marks : N → Bool) (x : N) : N → Bool := Function.update marks x true

variable {marks m : N → Bool} {succ : N → Option (List N)} {nodes work roots : List N} {fuel : Nat}

theorem mark_iff {x y} : mark marks x y = true ↔ y = x ∨ marks y = true := by
  unfold mark
  by_cases h : y = x
  · simp [h]
  · simp [h]

/-- The loop: the marks of a whole run, or those of a run that met a dangling node.  The
    stack has its top first; new nodes go on top, the last one highest. -/
def markLoop (succ : N → Option (List N)) :
    Nat → (N → Bool) → List N → Option (Except (N → Bool) (N → Bool))
  | _, marks, [] => some (.ok marks)
  | 0, _, _ :: _ => none
  | fuel + 1, marks, x :: work =>
    if marks x then markLoop succ fuel marks work
    else
      match succ x with
      | none => some (.error (mark marks x))
      | some next => markLoop succ fuel (mark marks x) (next.reverse ++ work)

/-! ## How many pops -/

/-- The successors of one node that the loop may still push. -/
def cost (succ : N → Option (List N)) (marks : N → Bool) (x : N) : Nat :=
  if marks x then 0 else (succ x).elim 0 List.length

/-- The successors that the loop may still push. -/
def weight (succ : N → Option (List N)) (nodes : List N) (marks : N → Bool) : Nat :=
  (nodes.map (cost succ marks)).sum

theorem weight_mark_of_notMem {x} (h : x ∉ nodes) :
    weight succ nodes (mark marks x) = weight succ nodes marks := by
  unfold weight
  congr 1
  apply map_congr_left
  intro y hy
  have hyx : y ≠ x := by
    rintro rfl
    exact h hy
  unfold cost mark
  rw [update_of_ne hyx]

theorem weight_mark (hnodup : nodes.Nodup) {x next} (hx : x ∈ nodes) (hmark : marks x = false)
    (hnext : succ x = some next) :
    weight succ nodes (mark marks x) + next.length = weight succ nodes marks := by
  induction nodes with
  | nil => exact absurd hx not_mem_nil
  | cons y nodes ih =>
    obtain ⟨hy, hnodup⟩ := nodup_cons.mp hnodup
    have hcons : ∀ m : N → Bool, weight succ (y :: nodes) m = cost succ m y + weight succ nodes m :=
      fun m => by simp [weight]
    rw [hcons, hcons]
    rcases mem_cons.mp hx with rfl | hx
    · rw [weight_mark_of_notMem hy]
      simp [cost, mark, hmark, hnext]
      omega
    have hyx : y ≠ x := by
      rintro rfl
      exact hy hx
    have hsame : cost succ (mark marks x) y = cost succ marks y := by
      unfold cost mark
      rw [update_of_ne hyx]
    have := ih hnodup hx
    omega

/-- **The loop ends**: each pop takes a node from the stack or spends a node's weight. -/
theorem markLoop_total (hnodup : nodes.Nodup) (hlive : ∀ x next, succ x = some next → x ∈ nodes)
    (hfuel : work.length + weight succ nodes marks ≤ fuel) :
    ∃ r, markLoop succ fuel marks work = some r := by
  fun_induction markLoop succ fuel marks work with
  | case1 | case4 => exact ⟨_, rfl⟩
  | case2 =>
    rw [length_cons] at hfuel
    omega
  | case3 fuel marks x work hx ih =>
    rw [length_cons] at hfuel
    exact ih (by omega)
  | case5 fuel marks x work hx next hnext ih =>
    have hspend := weight_mark hnodup (hlive x next hnext) (Bool.not_eq_true _ ▸ hx) hnext
    rw [length_cons] at hfuel
    apply ih
    rw [length_append, length_reverse]
    omega

/-! ## What is marked -/

omit [DecidableEq N] in
theorem pending_reach {y next} (hwork : ∀ x ∈ y :: work, Reach succ roots x)
    (hnext : succ y = some next) : ∀ z ∈ next.reverse ++ work, Reach succ roots z := by
  intro z hz
  rcases mem_append.mp hz with hz | hz
  · exact .step (hwork y mem_cons_self) hnext (mem_reverse.mp hz)
  · exact hwork z (mem_cons_of_mem y hz)

/-- Every new mark is on a reachable node. -/
theorem markLoop_sound {r} (h : markLoop succ fuel marks work = some r)
    (hwork : ∀ x ∈ work, Reach succ roots x) :
    ∀ m, r = .ok m ∨ r = .error m → ∀ x, m x = true → marks x = true ∨ Reach succ roots x := by
  fun_induction markLoop succ fuel marks work with
  | case1 =>
    cases h
    rintro m (hm | hm) x hx
    · cases hm
      exact .inl hx
    · cases hm
  | case2 => cases h
  | case3 fuel marks y work hmark ih => exact ih h (forall_mem_cons.mp hwork).2
  | case4 fuel marks y work hmark hnext =>
    cases h
    rintro m (hm | hm) x hx
    · cases hm
    cases hm
    rcases mark_iff.mp hx with rfl | hx
    · exact .inr (hwork x mem_cons_self)
    · exact .inl hx
  | case5 fuel marks y work hmark next hnext ih =>
    intro m hm x hx
    rcases ih h (pending_reach hwork hnext) m hm x hx with hx | hx
    · rcases mark_iff.mp hx with rfl | hx
      · exact .inr (hwork x mem_cons_self)
      · exact .inl hx
    · exact .inr hx

/-- The three colours: what is pending is not forgotten, and no marked node has a successor
    that is neither marked nor pending. -/
structure Tri (succ : N → Option (List N)) (marks : N → Bool) (work : List N) : Prop where
  closed : ∀ x next, marks x = true → succ x = some next →
    ∀ y ∈ next, marks y = true ∨ y ∈ work

/-- A whole loop ends with every pending node marked, and closed under successors. -/
theorem markLoop_closed (h : markLoop succ fuel marks work = some (.ok m))
    (htri : Tri succ marks work) :
    (∀ x, marks x = true ∨ x ∈ work → m x = true) ∧ Tri succ m [] := by
  fun_induction markLoop succ fuel marks work with
  | case1 =>
    cases h
    exact ⟨fun x hx => hx.resolve_right not_mem_nil, htri⟩
  | case2 => cases h
  | case3 fuel marks y work hmark ih =>
    have htri' : Tri succ marks work := by
      constructor
      intro x next hx hnext z hz
      rcases htri.closed x next hx hnext z hz with hz | hz
      · exact .inl hz
      · rcases mem_cons.mp hz with rfl | hz
        · exact .inl hmark
        · exact .inr hz
    obtain ⟨hall, hclosed⟩ := ih h htri'
    refine ⟨fun x hx => ?_, hclosed⟩
    rcases hx with hx | hx
    · exact hall x (.inl hx)
    · rcases mem_cons.mp hx with rfl | hx
      · exact hall x (.inl hmark)
      · exact hall x (.inr hx)
  | case4 => cases h
  | case5 fuel marks y work hmark next hnext ih =>
    have htri' : Tri succ (mark marks y) (next.reverse ++ work) := by
      constructor
      intro x next' hx hnext' z hz
      rcases mark_iff.mp hx with rfl | hx
      · rw [hnext] at hnext'
        cases hnext'
        exact .inr (mem_append_left _ (mem_reverse.mpr hz))
      rcases htri.closed x next' hx hnext' z hz with hz | hz
      · exact .inl (mark_iff.mpr (.inr hz))
      · rcases mem_cons.mp hz with rfl | hz
        · exact .inl (mark_iff.mpr (.inl rfl))
        · exact .inr (mem_append_right _ hz)
    obtain ⟨hall, hclosed⟩ := ih h htri'
    refine ⟨fun x hx => ?_, hclosed⟩
    rcases hx with hx | hx
    · exact hall x (.inl (mark_iff.mpr (.inr hx)))
    · rcases mem_cons.mp hx with rfl | hx
      · exact hall x (.inl (mark_iff.mpr (.inl rfl)))
      · exact hall x (.inr (mem_append_right _ hx))

/-- **The marks of a whole loop** that starts with marks on dangling nodes only. -/
theorem markLoop_exact (h : markLoop succ fuel marks roots = some (.ok m))
    (hstray : ∀ x, marks x = true → succ x = none) (x) :
    m x = true ↔ marks x = true ∨ Reach succ roots x := by
  have htri : Tri succ marks roots := by
    constructor
    intro y next hy hnext
    rw [hstray y hy] at hnext
    cases hnext
  obtain ⟨hall, hclosed⟩ := markLoop_closed h htri
  constructor
  · exact markLoop_sound h (fun y hy => .root hy) m (.inl rfl) x
  rintro (hx | hx)
  · exact hall x (.inl hx)
  induction hx with
  | root hroot => exact hall _ (.inr hroot)
  | step _ hnext hy ih =>
    exact (hclosed.closed _ _ ih hnext _ hy).resolve_right not_mem_nil

/-- A loop that stops early met a reachable dangling node. -/
theorem markLoop_error (h : markLoop succ fuel marks work = some (.error m))
    (hwork : ∀ x ∈ work, Reach succ roots x) :
    ∃ x, Reach succ roots x ∧ succ x = none := by
  fun_induction markLoop succ fuel marks work with
  | case1 | case2 => cases h
  | case3 fuel marks y work hmark ih => exact ih h (forall_mem_cons.mp hwork).2
  | case4 fuel marks y work hmark hnext => exact ⟨y, hwork y mem_cons_self, hnext⟩
  | case5 fuel marks y work hmark next hnext ih => exact ih h (pending_reach hwork hnext)

end ChezziLang.Lib.Mark
