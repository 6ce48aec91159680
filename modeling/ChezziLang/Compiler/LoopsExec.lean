/-
  Running the code of a loop: what opening an iteration does, and how a body runs.

  Proved:
  * `fresh_linear`: an iteration's variable is in place, in a cell of its own if it is boxed.
  * `body_follows`: a body runs alike in any loop that goes on to the next value alike.
-/
import ChezziLang.Compiler.LoopsLayout

namespace ChezziLang.Compiler

open Lib List

variable {slot : Nat}

section

attribute [simp] linear Config.push Config.jump Config.set

variable {B W X : Type} {p : Program B W X} {code ops : List (Op (B × Option Nat))}
  {op : Op (B × Option Nat)} {c c' : Config W}

@[simp]
theorem exec_getLocal (p : Program B W X) (c) :
    exec p (.getLocal slot) c = .next (c.push (c.slots slot) c.stack) := rfl

theorem step_of_codeAt (hat : CodeAt code c.pc (op :: ops)) : step p code c = exec p op c :=
  fetch_of_codeAt hat

theorem goes_of_linear (hat : CodeAt code c.pc ops) (hne : ops ≠ [])
    (h : linear Config.pc (exec p) ops c = some c') : Goes (step p code) c c' :=
  goes_linear hat hne h

theorem comes_of_linear (hat : CodeAt code c.pc ops)
    (h : linear Config.pc (exec p) ops c = some c') : Comes (step p code) c c' :=
  comes_linear hat h

/-- An expression of a bound leaves the loop. -/
theorem expr_leaves {u x sh} (hat : CodeAt code c.pc (.expr (u, none) :: ops))
    (hev : p.eval u c.shared = (sh, .error x)) : EndsWith (step p code) c (.leave x sh) := by
  apply EndsWith.of_stop
  simp only [step_of_codeAt hat, exec, hev]

end

section

variable {B W X : Type} {p : Program B W X} {h : Header B}

/-- What opening an iteration leaves: its variable, its cell, and nothing else changed. -/
structure Opened (h : Header B) (slot : Nat) (cur : Int64) (c c' : Config W) : Prop where
  pc : c'.pc = c.pc + (h.fresh slot).length
  shared : c'.shared = (h.bind cur c.shared).2
  view : (h.binding.view slot).map c'.slots = (h.bind cur c.shared).1
  gens : c'.gens = c.gens
  other : ∀ x, (h.binding = .cell → x ≠ slot) → c'.slots x = c.slots x

theorem fresh_linear (p : Program B W X) (slot cur c)
    (hraw : c.slots (h.binding.raw slot) = .int cur) :
    ∃ c', linear Config.pc (exec p) (h.fresh slot) c = some c' ∧ Opened h slot cur c c' := by
  obtain ⟨pc, s, slots, gens, sh⟩ := c
  dsimp only at hraw
  cases hb : h.binding with
  | unnamed =>
    refine ⟨_, by simp [Header.fresh, hb]; rfl, ?_, ?_, ?_, rfl, fun _ _ => rfl⟩
    · simp [Header.fresh, hb, refresh]
    · simp [Header.bind, hb]
    · simp [Header.bind, hb, Binding.view]
  | slot =>
    rw [hb] at hraw
    refine ⟨_, by simp [Header.fresh, hb]; rfl, ?_, ?_, ?_, rfl, fun _ _ => rfl⟩
    · simp [Header.fresh, hb, refresh]
    · simp [Header.bind, hb]
    · simpa [Header.bind, hb, Binding.view, Binding.raw] using hraw
  | cell =>
    rw [hb] at hraw
    refine ⟨⟨pc + 3, s, Function.update slots slot (.cell sh.cells.length), gens,
      { sh with cells := sh.cells ++ [.int cur] }⟩, ?_, ?_, ?_, ?_, rfl, ?_⟩
    · simp [Header.fresh, hb, refresh, exec, hraw]
    · simp [Header.fresh, hb, refresh]
    · simp [Header.bind, hb]
    · simp [Header.bind, hb, Binding.view]
    · intro x hx
      exact Function.update_of_ne (hx hb) _ _

end

section

variable {B W X : Type} {p : Program B W X} {h : Header B} {code : List (Op (B × Option Nat))}

/-- A configuration of a loop's code and the state of the loop it stands for.  `Keeps` says what
    the code keeps in slots and generators while the body runs. -/
def LoopRel (p : Program B W X) (h : Header B) (a base slot : Nat)
    (Keeps : (Nat → Val) → List (Stdlib.Range × Stdlib.Range.Point) → Int64 → Option Int64 → Prop)
    (c : Config W) : LoopState W → Prop
  | .enter s => c.pc = a ∧ c.shared = s
  | .body _ j cur stop view s =>
    c.pc = base + j ∧ j ≤ p.items.length ∧ Keeps c.slots c.gens cur stop ∧
      within stop h.inclusive cur.toInt = true ∧ (h.binding.view slot).map c.slots = view ∧
      c.shared = s

theorem endsWith_exit {c} (hpc : c.pc = code.length) :
    EndsWith (step p code) c (.exit c.shared) := by
  have hnone : code[c.pc]? = none := by rw [getElem?_eq_none_iff, hpc]
  apply EndsWith.of_stop
  rw [step, fetch, hnone]
  simp [offEnd, hpc]

/-- **A body runs alike in any loop that goes on to the next value alike.** -/
theorem body_follows {a base exit inc Keeps}
    (hat : CodeAt code base (p.items.map (Item.op (h.binding.view slot) base exit inc)))
    (hexit : code.length = exit) (hinc : inc = base + p.items.length)
    (hadvance : ∀ (c : Config W) k cur stop, c.pc = inc → Keeps c.slots c.gens cur stop →
      within stop h.inclusive cur.toInt = true →
      Follows (step p code) (LoopRel p h a base slot Keeps) c
        (h.open' k (cur.toInt + 1) stop c.shared)) {c k j cur stop view s}
    (hrel : LoopRel p h a base slot Keeps c (.body k j cur stop view s)) :
    Follows (step p code) (LoopRel p h a base slot Keeps) c
      (h.run p (.body k j cur stop view s)) := by
  obtain ⟨hpc, hj, hc, hw, hview, rfl⟩ := hrel
  rw [Header.run]
  cases hitem : p.items[j]? with
  | none =>
    have hj' : j = p.items.length := by
      rw [getElem?_eq_none_iff] at hitem
      omega
    apply hadvance c (k + 1) cur stop _ hc hw
    rw [hpc, hj', hinc]
  | some item =>
    have hop : code[c.pc]? = some (Item.op (h.binding.view slot) base exit inc item) := by
      rw [hpc]
      apply hat.get
      rw [getElem?_map, hitem]
      rfl
    have hstep : step p code c = exec p _ c := fetch_of_get hop
    have hlt : j < p.items.length := (List.getElem?_eq_some_iff.mp hitem).1
    cases item with
    | brk =>
      have hgoes : Goes (step p code) c { c with pc := exit } := .one hstep
      exact hgoes.endsWith (endsWith_exit hexit.symm)
    | cont =>
      have hgoes : Goes (step p code) c { c with pc := inc } := .one hstep
      exact hgoes.follows (hadvance { c with pc := inc } (k + 1) cur stop rfl hc hw).reaches
    | code u =>
      dsimp only
      rw [Item.op, exec, hview] at hstep
      rcases hact : p.act u view c.shared with ⟨sh, _ | j' | x⟩
      · rw [hact] at hstep
        refine ⟨_, .one hstep, ?_, hlt, hc, hw, hview, rfl⟩
        simp only [Config.jump, hpc, Nat.add_assoc]
      · rw [hact] at hstep
        exact ⟨_, .one hstep, rfl, Nat.le_of_lt_succ j'.isLt, hc, hw, hview, rfl⟩
      · rw [hact] at hstep
        exact .of_stop hstep

end

end ChezziLang.Compiler
