/-
  The wait-for graph of the guards (`vm/core.rs`, `GuardGraph` and `wait_for_cycle`).

  `waiting` is the registry's map, in the order a traversal of it would have.  A lock's `writer` is
  the token it records, 0 for none.  Who reads a lock is kept by the reading tasks alone
  (`Vm::held_reads`), so `blockers` cannot see it; `Blocks` is the graph with the readers in it.

  Proved:
  * `waitForCycle_iff`: the search finds exactly the cycles of the recorded graph.  Each is a cycle
    of `Blocks`, and it finds all of those when no task waits to write a lock that others read.
-/
import ChezziLang.Lib.Roster
import ChezziLang.Lib.Walk

namespace ChezziLang.Vm.WaitGraph

open Lib.Roster Lib.Walk List

variable {L : Type} [DecidableEq L]

inductive GuardMode where
  | write
  | read
  deriving DecidableEq, Repr

/-- The waits, one for each task, and who holds each lock. -/
structure GuardGraph (L : Type) where
  waiting : List (Nat × L × GuardMode)
  nodup : (waiting.map Prod.fst).Nodup
  writer : L → Nat
  reading : List (Nat × L)

namespace GuardGraph

section

variable (g : GuardGraph L)

def blockers (lock : L) (mode : GuardMode) (me : Nat) : List Nat :=
  let w := g.writer lock
  (if w ≠ 0 ∧ w ≠ me then [w] else []) ++
    match mode with
    | .read => (g.waiting.filter fun e => e.1 ≠ me ∧ e.2.2 = .write ∧ e.2.1 = lock).map Prod.fst
    | .write => []

/-- What one turn of the search adds for a task it has popped. -/
def next (cur : Nat) : List Nat :=
  match g.waiting.lookup cur with
  | none => []
  | some (lock, mode) => g.blockers lock mode cur

def net : Net Nat where
  next := g.next
  nodes := (g.waiting.flatMap fun e => g.next e.1).toFinset
  closed := by
    intro a b hb
    rw [mem_toFinset, mem_flatMap]
    unfold next at hb
    cases hget : g.waiting.lookup a with
    | none => rw [hget] at hb; exact absurd hb not_mem_nil
    | some e =>
      refine ⟨(a, e), mem_of_lookup hget, ?_⟩
      unfold next
      exact hb

def waitForCycle (start : Nat) : Bool := walk g.net start [] [start]

/-- `t` waits, and `u` is another task in its way that the registry records. -/
def Recorded (t u : Nat) : Prop :=
  ∃ lock mode, (t, lock, mode) ∈ g.waiting ∧ u ≠ t ∧
    (u ≠ 0 ∧ g.writer lock = u ∨ mode = .read ∧ (u, lock, .write) ∈ g.waiting)

/-- `t` waits, and `u` is another task in its way: the writer of the lock; for a read a writer that
    waits for it; for a write a reader of it. -/
def Blocks (t u : Nat) : Prop :=
  g.Recorded t u ∨ u ≠ t ∧ ∃ lock, (t, lock, .write) ∈ g.waiting ∧ (u, lock) ∈ g.reading

end

theorem mem_next (g : GuardGraph L) (t u) : u ∈ g.next t ↔ g.Recorded t u := by
  have hblock : ∀ lock mode, u ∈ g.blockers lock mode t ↔
      u ≠ t ∧ (u ≠ 0 ∧ g.writer lock = u ∨ mode = .read ∧ (u, lock, .write) ∈ g.waiting) := by
    intro lock mode
    have hfirst : u ∈ (if g.writer lock ≠ 0 ∧ g.writer lock ≠ t then [g.writer lock] else []) ↔
        u ≠ t ∧ u ≠ 0 ∧ g.writer lock = u := by
      split <;> grind
    cases mode with
    | write => simp [blockers, hfirst]
    | read =>
      have hqueued : u ∈ (g.waiting.filter fun e =>
          e.1 ≠ t ∧ e.2.2 = .write ∧ e.2.1 = lock).map Prod.fst ↔
          u ≠ t ∧ (u, lock, .write) ∈ g.waiting := by
        simp only [mem_map, mem_filter, decide_eq_true_eq]
        constructor
        · rintro ⟨⟨v, lock', mode⟩, ⟨hmem, hne, rfl, rfl⟩, rfl⟩
          exact ⟨hne, hmem⟩
        · exact fun ⟨hne, hmem⟩ => ⟨_, ⟨hmem, hne, rfl, rfl⟩, rfl⟩
      rw [blockers, mem_append, hfirst, hqueued]
      tauto
  unfold next
  constructor
  · cases hget : g.waiting.lookup t with
    | none => exact fun h => absurd h not_mem_nil
    | some w => exact fun h => ⟨w.1, w.2, (lookup_iff_mem g.nodup).mp hget, (hblock _ _).mp h⟩
  · rintro ⟨lock, mode, hmem, hu⟩
    rw [(lookup_iff_mem g.nodup).mpr hmem]
    exact (hblock _ _).mpr hu

/-! ## The search -/

/-- **The search decides the recorded graph.** -/
theorem waitForCycle_iff (g : GuardGraph L) (start : Nat) :
    (g.waitForCycle start = true ↔ Relation.TransGen g.Recorded start start) ∧
    (g.waitForCycle start = true → Relation.TransGen g.Blocks start start) ∧
    ((∀ t lock u, (t, lock, .write) ∈ g.waiting → (u, lock) ∈ g.reading → u = t) →
      (g.waitForCycle start = true ↔ Relation.TransGen g.Blocks start start)) := by
  have hedge : g.net.Edge = g.Recorded := by
    funext t u
    exact propext (g.mem_next t u)
  have hiff : g.waitForCycle start = true ↔ Relation.TransGen g.Recorded start start := by
    rw [← hedge]
    exact walk_iff g.net start
  have hsub : g.Recorded ≤ g.Blocks := fun _ _ => .inl
  refine ⟨hiff, fun h => Relation.TransGen.mono hsub _ _ (hiff.mp h), fun hquiet => ?_⟩
  have hall : g.Blocks ≤ g.Recorded := by
    rintro t u (hb | ⟨hne, lock, hwait, hread⟩)
    · exact hb
    · exact absurd (hquiet t lock u hwait hread) hne
  rw [hiff, le_antisymm hsub hall]

/-- Task 1 reads lock 0 and waits to write lock 1, task 2 holds lock 1 and waits to write lock 0. -/
def throughReader : GuardGraph Nat where
  waiting := [(1, 1, .write), (2, 0, .write)]
  nodup := by decide
  writer := fun lock => if lock = 1 then 2 else 0
  reading := [(1, 0)]

/-- The cycle through a read guard is not found. -/
theorem throughReader_not_found :
    Relation.TransGen throughReader.Blocks 1 1 ∧ throughReader.waitForCycle 1 = false := by
  have h12 : throughReader.Blocks 1 2 := .inl ⟨1, .write, by decide, by decide, .inl ⟨by decide, rfl⟩⟩
  have h21 : throughReader.Blocks 2 1 := .inr ⟨by decide, 0, by decide, by decide⟩
  refine ⟨.tail (.single h12) h21, ?_⟩
  simp [waitForCycle, net, walk, scan, next, blockers, throughReader, lookup_cons]

end GuardGraph

end ChezziLang.Vm.WaitGraph
