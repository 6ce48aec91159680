/-
  A walk over a finite directed graph with a stack and a set of seen nodes, which ends as soon as
  it meets the node it started from.

  `Net` gives the successors of each node and a finite set that holds them all; the walk takes a
  node from the stack, goes over its successors in order, ends on the start node and pushes the
  others the first time it sees them.

  Proved:
  * `walk_iff`: the walk from `start` finds `start` again exactly when a path of at least one edge
    leads from `start` back to `start`.
-/
import Mathlib.Data.Finset.Card

namespace ChezziLang.Lib.Walk

open List Option

variable {α : Type} [DecidableEq α]

structure Net (α : Type) where
  next : α → List α
  nodes : Finset α
  closed : ∀ a, ∀ b ∈ next a, b ∈ nodes

def Net.Edge (N : Net α) (a b : α) : Prop := b ∈ N.next a

/-- The successors of one node: `none` when `start` is one of them, else the seen nodes and the
    stack after them. -/
def scan (start : α) : List α → List α → List α → Option (List α × List α)
  | [], seen, work => some (seen, work)
  | t :: ts, seen, work =>
    if t = start then none
    else if t ∈ seen then scan start ts seen work
    else scan start ts (t :: seen) (t :: work)

/-! ## What one scan does -/

variable {seen : List α} {start : α}

theorem scan_none {ts work} (h : scan start ts seen work = none) : start ∈ ts := by
  fun_induction scan start ts seen work with
  | case1 => cases h
  | case2 => exact mem_cons_self
  | case3 _ _ _ _ _ _ ih | case4 _ _ _ _ _ _ ih => exact .tail _ (ih h)

/-- What a scan that meets no `start` leaves: the fresh successors, pushed and seen. -/
structure Scanned (start : α) (ts seen work seen' work' : List α) : Prop where
  avoids : start ∉ ts
  seen_iff : ∀ x, x ∈ seen' ↔ x ∈ seen ∨ x ∈ ts
  work_iff : ∀ x, x ∈ work' ↔ x ∈ work ∨ (x ∈ ts ∧ x ∉ seen)

theorem scan_some {ts work seen' work'} (h : scan start ts seen work = some (seen', work')) :
    Scanned start ts seen work seen' work' := by
  fun_induction scan start ts seen work with
  | case1 =>
    obtain ⟨rfl, rfl⟩ := Prod.mk.inj (some.inj h)
    exact ⟨not_mem_nil, by simp, by simp⟩
  | case2 => cases h
  | case3 t ts seen work hstart hseen ih =>
    obtain ⟨havoid, hs, hw⟩ := ih h
    refine ⟨?_, fun x => ?_, fun x => ?_⟩
    · exact not_mem_cons_of_ne_of_not_mem (Ne.symm hstart) havoid
    · rw [hs, mem_cons]
      exact ⟨by tauto, by rintro (hx | rfl | hx) <;> tauto⟩
    · rw [hw, mem_cons]
      exact ⟨by tauto, by rintro (hx | ⟨rfl | hx, hn⟩) <;> tauto⟩
  | case4 t ts seen work hstart hseen ih =>
    obtain ⟨havoid, hs, hw⟩ := ih h
    refine ⟨?_, fun x => ?_, fun x => ?_⟩
    · exact not_mem_cons_of_ne_of_not_mem (Ne.symm hstart) havoid
    · rw [hs, mem_cons, mem_cons]
      tauto
    rw [hw, mem_cons, mem_cons, mem_cons]
    by_cases hx : x = t
    · subst hx; tauto
    · tauto

/-- Every node pushed is a node not seen before, so the stack grows by no more than the nodes left
    to see shrink. -/
theorem scan_measure {nodes ts work seen' work'} (hts : ∀ t ∈ ts, t ∈ nodes)
    (h : scan start ts seen work = some (seen', work')) :
    work'.length + (nodes \ seen'.toFinset).card ≤ work.length + (nodes \ seen.toFinset).card := by
  fun_induction scan start ts seen work with
  | case1 =>
    obtain ⟨rfl, rfl⟩ := Prod.mk.inj (some.inj h)
    exact le_rfl
  | case2 => cases h
  | case3 t ts seen work hstart hseen ih => exact ih (forall_mem_cons.mp hts).2 h
  | case4 t ts seen work hstart hseen ih =>
    have hmem : t ∈ nodes \ seen.toFinset := by
      rw [Finset.mem_sdiff, List.mem_toFinset]
      exact ⟨hts t mem_cons_self, hseen⟩
    have hcard := Finset.card_erase_add_one hmem
    have hsplit : nodes \ (t :: seen).toFinset = (nodes \ seen.toFinset).erase t := by
      rw [toFinset_cons, Finset.sdiff_insert]
    have := ih (forall_mem_cons.mp hts).2 h
    rw [hsplit, length_cons] at this
    omega

/-! ## The walk -/

def walk (N : Net α) (start : α) (seen : List α) : List α → Bool
  | [] => false
  | cur :: rest =>
    match _h : scan start (N.next cur) seen rest with
    | none => true
    | some (seen', work') => walk N start seen' work'
termination_by work => work.length + (N.nodes \ seen.toFinset).card
decreasing_by
  have := scan_measure (N.closed cur) _h
  rw [List.length_cons]
  omega

/-- What holds between two turns: every node on the stack is reached from `start`, and every node
    seen but no longer on the stack has had its successors seen, none of which is `start`. -/
structure Frontier (N : Net α) (start : α) (seen work : List α) : Prop where
  reached : ∀ x ∈ work, Relation.ReflTransGen N.Edge start x
  done : ∀ x, x = start ∨ x ∈ seen → x ∉ work →
    start ∉ N.next x ∧ ∀ y ∈ N.next x, y ∈ seen

theorem Frontier.turn {N cur rest seen' work'} (hf : Frontier N start seen (cur :: rest))
    (h : scan start (N.next cur) seen rest = some (seen', work')) :
    Frontier N start seen' work' := by
  obtain ⟨havoid, hseen, hwork⟩ := scan_some h
  refine ⟨fun x hx => ?_, fun x hx hnot => ?_⟩
  · rcases (hwork x).mp hx with hx | ⟨hx, -⟩
    · exact hf.reached x (.tail _ hx)
    · exact (hf.reached cur mem_cons_self).tail hx
  by_cases hcur : x = cur
  · rw [hcur]
    exact ⟨havoid, fun y hy => (hseen y).mpr (.inr hy)⟩
  -- a node other than `cur` was seen before this turn, or it has just been pushed
  have hold : x = start ∨ x ∈ seen := by
    rcases hx with hx | hx
    · exact .inl hx
    · rcases (hseen x).mp hx with hx | hx
      · exact .inr hx
      · by_contra hnew
        rw [not_or] at hnew
        exact hnot ((hwork x).mpr (.inr ⟨hx, hnew.2⟩))
  have hoff : x ∉ cur :: rest :=
    not_mem_cons_of_ne_of_not_mem hcur fun hr => hnot ((hwork x).mpr (.inl hr))
  obtain ⟨hs, hall⟩ := hf.done x hold hoff
  exact ⟨hs, fun y hy => (hseen y).mpr (.inl (hall y hy))⟩

omit [DecidableEq α] in
theorem Frontier.no_cycle {N} (hf : Frontier N start seen []) :
    ¬ Relation.TransGen N.Edge start start := by
  -- nothing but seen nodes is reached, and no seen node leads to `start`
  have hclosed : ∀ x, Relation.ReflTransGen N.Edge start x → x = start ∨ x ∈ seen := by
    intro x hx
    induction hx with
    | refl => exact .inl rfl
    | tail _ hlast ih => exact .inr ((hf.done _ ih not_mem_nil).2 _ hlast)
  intro hcycle
  obtain ⟨x, hx, hlast⟩ := Relation.TransGen.tail'_iff.mp hcycle
  exact (hf.done x (hclosed x hx) not_mem_nil).1 hlast

theorem walk_correct {N work} (hf : Frontier N start seen work) :
    walk N start seen work = true ↔ Relation.TransGen N.Edge start start := by
  fun_induction walk N start seen work with
  | case1 => exact ⟨fun h => absurd h Bool.false_ne_true, fun h => absurd h hf.no_cycle⟩
  | case2 seen cur rest h =>
    exact ⟨fun _ => .tail' (hf.reached cur mem_cons_self) (scan_none h), fun _ => rfl⟩
  | case3 seen cur rest seen' work' h ih => exact ih (hf.turn h)

/-- **The walk from a node decides whether the node lies on a cycle.** -/
theorem walk_iff (N : Net α) (start) :
    walk N start [] [start] = true ↔ Relation.TransGen N.Edge start start := by
  refine walk_correct ⟨fun x hx => ?_, fun x hx hnot => ?_⟩
  · rw [mem_singleton.mp hx]
  · rcases hx with rfl | hx
    · exact absurd mem_cons_self hnot
    · exact absurd hx not_mem_nil

end ChezziLang.Lib.Walk
