/-
  Adaptive quickening of the binary operators: `q_arith`, `q_eq` of `vm/arith.rs`.

  Each program point has a state: cold, specialised to inline ints, or generic.  The
  specialised path decides two inline ints on the spot; every other path runs the
  generic operator.  A generic operator on operands that are no numbers may call a hook,
  which runs code of its own, with quickened operators of its own, on the same table.
  That is what a `Run` describes: what the machine does between two of its operators,
  whatever the hooks are.

  A fault on the specialised path leaves both operands on the stack, where the generic
  path has popped them.  Unwinding cuts the stack back to a height below the operands.

  Proved:
  * `quicken_agrees`: with any table a quickened operator answers what the generic one
    answers, leaves the same stack, up to the unwinding of a fault, and so does any run.
-/
import ChezziLang.Vm.Arith

namespace ChezziLang.Vm

/-- `MAX_STRUCTURAL_DEPTH`. -/
def maxStructuralDepth : Nat := 10000

/-- `depth_exceeded_err`. -/
def depthExceededErr (span : Span) : RuntimeError :=
  ⟨"maximum structural depth (10000) exceeded (cyclic data structure?)", span⟩

/-- The machine around an operator: its operand stack, top first, the structural depth
    its enclosing walk has used up, and everything else it can touch.  A walk only hands
    on a depth that has passed its own test. -/
structure State (O W : Type) where
  stack : List (Val O)
  walkBase : Nat
  walkBase_le : walkBase ≤ maxStructuralDepth
  world : W

namespace State

variable {O W : Type}

def push (s : State O W) (v : Val O) : State O W := { s with stack := v :: s.stack }

/-- `stack.truncate(n)`. -/
def truncate (s : State O W) (n : Nat) : State O W :=
  { s with stack := s.stack.drop (s.stack.length - n) }

end State

inductive BinKind where
  | add
  | sub
  | mul
  | div
  | mod
  | lt
  | ltEq
  | gt
  | gtEq
  deriving DecidableEq, Repr

/-- The operator of a kind, and whether `arith` runs it. -/
def BinKind.op : BinKind → BinaryOp
  | .add => .add
  | .sub => .sub
  | .mul => .mul
  | .div => .div
  | .mod => .mod
  | .lt => .lt
  | .ltEq => .ltEq
  | .gt => .gt
  | .gtEq => .gtEq

def BinKind.isArith : BinKind → Bool
  | .add | .sub | .mul | .div | .mod => true
  | .lt | .ltEq | .gt | .gtEq => false

/-- A quickened operator. -/
inductive QOp where
  | bin (kind : BinKind)
  | eq (negate : Bool)
  deriving DecidableEq, Repr

/-- `Q_COLD`, `Q_INT`, `Q_GENERIC`. -/
inductive QState where
  | cold
  | int
  | generic
  deriving DecidableEq, Repr

/-- `Vm::quicken`: the state of each program point. -/
abbrev Table := Nat → QState

def Table.set (t : Table) (site : Nat) (q : QState) : Table := Function.update t site q

/-! ## The operators -/

section

variable {O W : Type}

/-- What an operator leaves: a result, the state and the table.  `none` does not come
    back. -/
abbrev Answer (O W A : Type) := Option (Except Stop A × State O W × Table)

/-- The rest of an operator on operands that are no numeric pair, and how it ends. -/
abbrev Slow (O W : Type) :=
  QOp → Val O → Val O → Span → State O W → Table → Answer O W (Val O)

/-- Push the value of an answer. -/
def Answer.push : Answer O W (Val O) → Answer O W Unit
  | none => none
  | some (.ok v, s, t) => some (.ok (), s.push v, t)
  | some (.error e, s, t) => some (.error e, s, t)

/-- `arith` or `compare_op` on a numeric pair. -/
def binNum (fl : FloatOps) (kind : BinKind) (l r : Val O) (span : Span) :
    Option (Except Stop (Val O)) :=
  if kind.isArith then arithNum fl kind.op l r span else compareOpNum kind.op l r

/-- `run_bin_kind`. -/
def runBinKind (fl : FloatOps) (slow : Slow O W) (kind : BinKind) (span : Span)
    (s : State O W) (t : Table) : Answer O W Unit :=
  match s.stack with
  | r :: l :: rest =>
    let popped := { s with stack := rest }
    match binNum fl kind l r span with
    | some v => Answer.push (some (v, popped, t))
    | none => (slow (.bin kind) l r span popped t).push
  | _ => some (.error .panic, s, t)

/-- `eq_operator`. -/
def eqOperator (slow : Slow O W) (negate : Bool) (span : Span) (s : State O W) (t : Table) :
    Answer O W Unit :=
  match s.stack with
  | r :: l :: rest =>
    let popped := { s with stack := rest }
    if s.walkBase > maxStructuralDepth then
      some (.error (.fault (depthExceededErr span)), popped, t)
    else
      match equalNum l r with
      | some eq => some (.ok (), popped.push (.bool (eq ^^ negate)), t)
      | none => (slow (.eq negate) l r span popped t).push
  | _ => some (.error .panic, s, t)

/-- The operator without quickening. -/
def generic (fl : FloatOps) (slow : Slow O W) (q : QOp) (span : Span) (s : State O W)
    (t : Table) : Answer O W Unit :=
  match q with
  | .bin kind => runBinKind fl slow kind span s t
  | .eq negate => eqOperator slow negate span s t

/-- `fast_int_bin`. -/
def fastIntBin (x y : Int64) (kind : BinKind) (span : Span) : Except Stop (Val O) :=
  match kind with
  | .add => (intOp .add x y span).map makeInt
  | .sub => (intOp .sub x y span).map makeInt
  | .mul => (intOp .mul x y span).map makeInt
  | .div => (intOp .div x y span).map makeInt
  | .mod => (intOp .mod x y span).map makeInt
  | .lt => .ok (.bool (decide (x < y)))
  | .ltEq => .ok (.bool (decide (x ≤ y)))
  | .gt => .ok (.bool (decide (x > y)))
  | .gtEq => .ok (.bool (decide (x ≥ y)))

/-- What a cold site becomes. -/
def observe (l r : Val O) : QState :=
  if l.asIntInline.isSome && r.asIntInline.isSome then .int else .generic

/-- `q_arith`. -/
def qArith (fl : FloatOps) (slow : Slow O W) (site : Nat) (kind : BinKind) (span : Span)
    (s : State O W) (t : Table) : Answer O W Unit :=
  match s.stack with
  | r :: l :: rest =>
    match t site with
    | .int =>
      match l.asIntInline, r.asIntInline with
      | some x, some y =>
        match fastIntBin x y kind span with
        | .ok v => some (.ok (), ({ s with stack := rest } : State O W).push v, t)
        | .error e => some (.error e, s, t)
      | _, _ => runBinKind fl slow kind span s (t.set site .generic)
    | .generic => runBinKind fl slow kind span s t
    | .cold => runBinKind fl slow kind span s (t.set site (observe l r))
  | _ => some (.error .panic, s, t)

/-- `q_eq`. -/
def qEq (slow : Slow O W) (site : Nat) (negate : Bool) (span : Span) (s : State O W)
    (t : Table) : Answer O W Unit :=
  match s.stack with
  | r :: l :: rest =>
    match t site with
    | .int =>
      match l.asIntInline, r.asIntInline with
      | some x, some y =>
        some (.ok (), ({ s with stack := rest } : State O W).push (.bool (x == y ^^ negate)), t)
      | _, _ => eqOperator slow negate span s (t.set site .generic)
    | .generic => eqOperator slow negate span s t
    | .cold => eqOperator slow negate span s (t.set site (observe l r))
  | _ => some (.error .panic, s, t)

def quickened (fl : FloatOps) (slow : Slow O W) (site : Nat) (q : QOp) (span : Span)
    (s : State O W) (t : Table) : Answer O W Unit :=
  match q with
  | .bin kind => qArith fl slow site kind span s t
  | .eq negate => qEq slow site negate span s t

/-! ## Runs -/

/-- What the machine does, seen from its quickened operators: it ends, or it runs one and
    goes on from what that leaves.  `height` is where a fault cuts the stack: below the
    operands. -/
inductive Run (O W : Type) where
  | done (result : Except Stop (Val O)) (s : State O W)
  | op (site : Nat) (q : QOp) (span : Span) (l r : Val O) (s : State O W)
      (height : Nat) (below : height ≤ s.stack.length)
      (next : Except Stop Unit → State O W → Run O W)

/-- Unwind to a handler on a fault. -/
def unwind (height : Nat) : Except Stop Unit → State O W → State O W
  | .ok _, s => s
  | .error _, s => s.truncate height

/-- How a machine runs its operators. -/
abbrev Mode (O W : Type) :=
  Slow O W → Nat → QOp → Span → State O W → Table → Answer O W Unit

/-- Run for at most `fuel` operators in sequence; `hooks` is what an operator does with
    operands that are no numbers. -/
def run (mode : Mode O W) (hooks : QOp → Val O → Val O → Span → State O W → Run O W) :
    Nat → Run O W → Table → Answer O W (Val O)
  | 0, _, _ => none
  | _ + 1, .done result s, t => some (result, s, t)
  | fuel + 1, .op site q span l r s height _ next, t =>
    let slow : Slow O W := fun q l r span s t => run mode hooks fuel (hooks q l r span s) t
    match mode slow site q span ((s.push l).push r) t with
    | none => none
    | some (result, s', t') => run mode hooks fuel (next result (unwind height result s')) t'

/-- The hooks, run by the machine itself. -/
def slowOf (mode : Mode O W) (hooks : QOp → Val O → Val O → Span → State O W → Run O W)
    (fuel : Nat) : Slow O W :=
  fun q l r span s t => run mode hooks fuel (hooks q l r span s) t

/-- The machine that never quickens. -/
def genericMode (fl : FloatOps) : Mode O W := fun slow _ q span s t => generic fl slow q span s t

/-- An answer without its table. -/
def Answer.seen {A : Type} (a : Answer O W A) : Option (Except Stop A × State O W) :=
  a.map fun x => (x.1, x.2.1)

/-- An operator's answer, after the unwinding of a fault. -/
def Answer.after (height : Nat) (a : Answer O W Unit) : Option (Except Stop Unit × State O W) :=
  a.map fun x => (x.1, unwind height x.1 x.2.1)

/-! ## One operator -/

theorem compare_tests (a b : Int) :
    (compare a b).isLT = decide (a < b) ∧ (compare a b).isLE = decide (a ≤ b) ∧
      (compare a b).isGT = decide (b < a) ∧ (compare a b).isGE = decide (b ≤ a) := by
  rcases lt_trichotomy a b with h | rfl | h
  · simp [compare_lt_iff_lt.mpr h, h, h.le, h.not_ge, h.not_gt]
  · simp
  · simp [compare_gt_iff_gt.mpr h, h, h.le, h.not_ge, h.not_gt]

/-- The fast path is the generic operator on two inline ints. -/
theorem binNum_inline (fl : FloatOps) {l r : Val O} {x y} (hl : l.asIntInline = some x)
    (hr : r.asIntInline = some y) (kind span) :
    binNum fl kind l r span = some (fastIntBin x y kind span) := by
  have hx := intVal_of_asIntInline hl
  have hy := intVal_of_asIntInline hr
  unfold binNum arithNum compareOpNum compareNum
  rw [hx, hy]
  cases kind <;>
    simp only [BinKind.isArith, BinKind.op, fastIntBin, if_true, Bool.false_eq_true, if_false,
      orderedBool, compare_tests, gt_iff_lt, ge_iff_le,
      Int64.lt_iff_toInt_lt, Int64.le_iff_toInt_le]

theorem equalNum_inline {l r : Val O} {x y} (hl : l.asIntInline = some x)
    (hr : r.asIntInline = some y) : equalNum l r = some (x == y) := by
  unfold equalNum
  rw [intVal_of_asIntInline hl, intVal_of_asIntInline hr]

/-- Cutting below the operands, it does not matter whether they were popped. -/
theorem truncate_operands (s : State O W) (l r k) :
    ((s.push l).push r).truncate (s.stack.length - k) = s.truncate (s.stack.length - k) := by
  have hlen : s.stack.length + 1 + 1 - (s.stack.length - k) =
      s.stack.length - (s.stack.length - k) + 1 + 1 := by omega
  simp only [State.truncate, State.push, List.length_cons, hlen, List.drop_succ_cons]

theorem seen_push {a b : Answer O W (Val O)} (h : a.seen = b.seen) : a.push.seen = b.push.seen := by
  rcases a with _ | ⟨_ | v, s, t⟩ <;> rcases b with _ | ⟨_ | v', s', t'⟩ <;>
    simp_all [Answer.seen, Answer.push]

theorem after_of_seen {a b : Answer O W Unit} (h : a.seen = b.seen) (height : Nat) :
    a.after height = b.after height := by
  have hafter : ∀ c : Answer O W Unit,
      c.after height = c.seen.map fun x => (x.1, unwind height x.1 x.2) := by
    intro c
    simp only [Answer.after, Answer.seen, Option.map_map]
    rfl
  rw [hafter, hafter, h]

/-- A site that deoptimises or warms up runs the generic operator. -/
theorem quickened_cases (fl slow site q span l r) (s : State O W) (t) :
    (∃ t', quickened fl slow site q span ((s.push l).push r) t =
      generic fl slow q span ((s.push l).push r) t') ∨
    ∃ x y, l.asIntInline = some x ∧ r.asIntInline = some y ∧ t site = .int := by
  by_cases hfast : ∃ x y, l.asIntInline = some x ∧ r.asIntInline = some y ∧ t site = .int
  · exact .inr hfast
  left
  cases q <;> simp only [quickened, generic, qArith, qEq, State.push] <;> split
  case h_2 | h_3 | h_2 | h_3 => exact ⟨_, rfl⟩
  all_goals split
  case h_1 | h_1 => exact absurd ⟨_, _, ‹_›, ‹_›, ‹_›⟩ hfast
  all_goals exact ⟨_, rfl⟩

section

variable {slowQ slowG : Slow O W}
  (hslow : ∀ q l r span s t t', (slowQ q l r span s t).seen = (slowG q l r span s t').seen)
include hslow

/-- The generic operator does not look at the table. -/
theorem generic_blind (fl q span s t t') :
    (generic fl slowQ q span s t).seen = (generic fl slowG q span s t').seen := by
  unfold generic
  cases q with
  | bin kind =>
    simp only [runBinKind]
    split
    · split
      · exact seen_push rfl
      · exact seen_push (hslow ..)
    · rfl
  | eq negate =>
    simp only [eqOperator]
    split
    · split
      · rfl
      · split
        · rfl
        · exact seen_push (hslow ..)
    · rfl

/-- A quickened operator answers what the generic one answers. -/
theorem quickened_after (fl) (site : Nat) (q : QOp) (span : Span) (l r : Val O) (s : State O W)
    (t t' : Table) (k : Nat) :
    (quickened fl slowQ site q span ((s.push l).push r) t).after (s.stack.length - k) =
      (generic fl slowG q span ((s.push l).push r) t').after (s.stack.length - k) := by
  rcases quickened_cases fl slowQ site q span l r s t with ⟨t1, h⟩ | ⟨x, y, hl, hr, hsite⟩
  · rw [h]
    exact after_of_seen (generic_blind hslow fl q span _ t1 t') _
  cases q with
  | bin kind =>
    have hnum := binNum_inline fl hl hr kind span
    cases hv : (fastIntBin x y kind span : Except Stop (Val O)) with
    | ok v =>
      rw [hv] at hnum
      simp only [quickened, generic, qArith, runBinKind, State.push, hsite, hl, hr, hv, hnum,
        Answer.push, Answer.after, Option.map_some, unwind]
    | error e =>
      rw [hv] at hnum
      have hcut := truncate_operands s l r k
      simp only [State.push] at hcut
      simp only [quickened, generic, qArith, runBinKind, State.push, hsite, hl, hr, hv, hnum,
        Answer.push, Answer.after, Option.map_some, unwind, hcut]
  | eq negate =>
    have hbase : ¬ s.walkBase > maxStructuralDepth := Nat.not_lt.mpr s.walkBase_le
    simp only [quickened, generic, qEq, eqOperator, State.push, hsite, hl, hr, hbase,
      equalNum_inline hl hr, if_false, Answer.after, Option.map_some, unwind]

end

/-! ## Runs -/

theorem run_op (mode) (hooks : QOp → Val O → Val O → Span → State O W → Run O W)
    (fuel site q span l r s) (height : Nat) (below next t) :
    run mode hooks (fuel + 1) (.op site q span l r s height below next) t =
      (mode (slowOf mode hooks fuel) site q span ((s.push l).push r) t).bind fun x =>
        run mode hooks fuel (next x.1 (unwind height x.1 x.2.1)) x.2.2 := by
  change (match mode (slowOf mode hooks fuel) site q span ((s.push l).push r) t with
    | none => none
    | some (result, s', t') => _) = _
  cases mode (slowOf mode hooks fuel) site q span ((s.push l).push r) t <;> rfl

theorem run_seen (fl : FloatOps) (hooks : QOp → Val O → Val O → Span → State O W → Run O W) (fuel)
    (p : Run O W) (t t' : Table) :
    (run (quickened fl) hooks fuel p t).seen = (run (genericMode fl) hooks fuel p t').seen := by
  induction fuel generalizing p t t' with
  | zero => rfl
  | succ fuel ih =>
    cases p with
    | done result s => rfl
    | op site q span l r s height below next =>
      -- the hooks run on the fuel that is left
      have hop : (quickened fl (slowOf (quickened fl) hooks fuel) site q span
            ((s.push l).push r) t).after height =
          (genericMode fl (slowOf (genericMode fl) hooks fuel) site q span
            ((s.push l).push r) t').after height := by
        have h := @quickened_after O W (slowOf (quickened fl) hooks fuel)
          (slowOf (genericMode fl) hooks fuel) (fun q l r span s => ih (hooks q l r span s))
          fl site q span l r s t t' (s.stack.length - height)
        rwa [show s.stack.length - (s.stack.length - height) = height by omega] at h
      rw [run_op, run_op]
      generalize quickened fl (slowOf (quickened fl) hooks fuel) site q span
        ((s.push l).push r) t = a at hop
      generalize genericMode fl (slowOf (genericMode fl) hooks fuel) site q span
        ((s.push l).push r) t' = b at hop
      rcases a with _ | ⟨ra, sa, ta⟩
      · rcases b with _ | ⟨rb, sb, tb⟩
        · rfl
        · cases hop
      rcases b with _ | ⟨rb, sb, tb⟩
      · cases hop
      · simp only [Answer.after, Option.map_some, Option.some.injEq, Prod.mk.injEq] at hop
        obtain ⟨rfl, hs⟩ := hop
        simp only [Option.bind_some, hs]
        exact ih _ _ _

/-- **Quickening is invisible.**  Whatever its sites have seen, a quickened operator gives
    the generic operator's result or fault, and the same state once a fault is unwound to
    any height below the operands; so whole runs agree, hooks included. -/
theorem quicken_agrees (fl : FloatOps)
    (hooks : QOp → Val O → Val O → Span → State O W → Run O W) (fuel : Nat) :
    (∀ site q span l r (s : State O W) t t' k,
      (quickened fl (slowOf (quickened fl) hooks fuel) site q span
          ((s.push l).push r) t).after (s.stack.length - k) =
        (generic fl (slowOf (genericMode fl) hooks fuel) q span
          ((s.push l).push r) t').after (s.stack.length - k)) ∧
    ∀ p t t', (run (quickened fl) hooks fuel p t).seen =
      (run (genericMode fl) hooks fuel p t').seen := by
  refine ⟨?_, run_seen fl hooks fuel⟩
  intro site q span l r s t t' k
  exact @quickened_after O W (slowOf (quickened fl) hooks fuel)
    (slowOf (genericMode fl) hooks fuel) (fun q l r span s => run_seen fl hooks fuel _)
    fl site q span l r s t t' k

/-- A division by zero at a specialised site leaves its operands on the stack, where the
    generic operator has popped them. -/
theorem specialised_fault_keeps_operands :
    let s : State Unit Unit := ⟨[makeInt 0, makeInt 1], 0, by decide, ()⟩
    let fault : Except Stop Unit := .error (.fault ⟨"division by zero", 0⟩)
    ∀ (fl : FloatOps) (slow : Slow Unit Unit),
      (quickened fl slow 0 (.bin .div) 0 s fun _ => .int).seen = some (fault, s) ∧
        (generic fl slow (.bin .div) 0 s fun _ => .int).seen =
          some (fault, { s with stack := [] }) := by
  intro s fault fl slow
  exact ⟨rfl, rfl⟩

end

end ChezziLang.Vm
