/-
  The constant evaluator: `ast/consteval.rs`.

  `intBinop` owns the value and the fault of every int operation, at check time and at
  run time alike.  `evalNoting` folds an expression of literals, unary minus and binary
  operators; it also notes the nodes whose constant right operand faults for every int
  left operand.

  Proved:
  * `int_binop_exact`: an int operation succeeds exactly when its operands are legal
    and its exact result fits, and then gives that result.
-/
import ChezziLang.Ast.Pattern
import ChezziLang.Lib.I64

namespace ChezziLang

open Lib.I64

/-! ## Int operations -/

inductive BinaryOp where
  | add
  | sub
  | mul
  | div
  | mod
  | lt
  | ltEq
  | gt
  | gtEq
  | eq
  | notEq
  | and
  | or
  | bitAnd
  | bitOr
  | bitXor
  | shl
  | shr
  | «in»
  deriving DecidableEq, Repr

inductive UnaryOp where
  | neg
  | not
  | errVal
  | wrap
  deriving DecidableEq, Repr

/-- The operation an overflow fault names. -/
inductive IntOp where
  | bin (op : BinaryOp)
  | neg
  | abs
  | lcm
  | gcd
  deriving DecidableEq, Repr

inductive IntFault where
  | overflow (op : IntOp)
  | divByZero
  | modByZero
  | shiftRange (b : Int64)
  deriving DecidableEq, Repr

/-- The protocol of a binary operator's hook, which names it in faults. -/
def BinaryOp.protocol : BinaryOp → Option String
  | .add => some "Add"
  | .sub => some "Sub"
  | .mul => some "Mul"
  | .div => some "Div"
  | .mod => some "Mod"
  | .lt | .ltEq | .gt | .gtEq => some "Comparable"
  | .eq | .notEq => some "Eq"
  | .in => some "Contains"
  | .bitAnd => some "BitAnd"
  | .bitOr => some "BitOr"
  | .bitXor => some "BitXor"
  | .shl => some "Shl"
  | .shr => some "Shr"
  | .and | .or => none

/-- `int_fault_message`. -/
def IntFault.message : IntFault → String
  | .overflow op =>
    let name := match op with
      | .bin b => b.protocol.getD ""
      | .neg => "negation"
      | .abs => "abs"
      | .lcm => "lcm"
      | .gcd => "gcd"
    "integer overflow in " ++ name
  | .divByZero => "division by zero"
  | .modByZero => "modulo by zero"
  | .shiftRange b => "shift amount " ++ toString b.toInt ++ " out of range (0..64)"

/-- `operand_fault`: what the right operand alone makes fault. -/
def operandFault (op : BinaryOp) (b : Int64) : Option IntFault :=
  match op with
  | .div => if b = 0 then some .divByZero else none
  | .mod => if b = 0 then some .modByZero else none
  | .shl | .shr => if 0 ≤ b ∧ b < 64 then none else some (.shiftRange b)
  | _ => none

/-- `int_neg`. -/
def intNeg (a : Int64) : Except IntFault Int64 :=
  match checked (-a.toInt) with
  | some v => .ok v
  | none => .error (.overflow .neg)

/-- A checked operation, or its overflow. -/
def orOverflow (op : BinaryOp) (v : Option Int64) : Option (Except IntFault Int64) :=
  match v with
  | some v => some (.ok v)
  | none => some (.error (.overflow (.bin op)))

/-- `int_binop`.  `none` is an operator that is not int arithmetic. -/
def intBinop (op : BinaryOp) (a b : Int64) : Option (Except IntFault Int64) :=
  match operandFault op b with
  | some f => some (.error f)
  | none =>
    match op with
    | .add => orOverflow op (checked (a.toInt + b.toInt))
    | .sub => orOverflow op (checked (a.toInt - b.toInt))
    | .mul => orOverflow op (checked (a.toInt * b.toInt))
    | .div => orOverflow op (checked (a.toInt.tdiv b.toInt))
    -- `wrapping_rem`
    | .mod => some (.ok (a % b))
    | .bitAnd => some (.ok (a &&& b))
    | .bitOr => some (.ok (a ||| b))
    | .bitXor => some (.ok (a ^^^ b))
    | .shl =>
      let v := a <<< b
      if v >>> b = a then some (.ok v) else some (.error (.overflow (.bin op)))
    | .shr => some (.ok (a >>> b))
    | _ => none

/-! ## What they are exactly -/

def BinaryOp.isIntArith : BinaryOp → Bool
  | .add | .sub | .mul | .div | .mod | .bitAnd | .bitOr | .bitXor | .shl | .shr => true
  | _ => false

/-- The right operands an int operation takes. -/
def BinaryOp.Legal (op : BinaryOp) (b : Int) : Prop :=
  match op with
  | .add | .sub | .mul | .bitAnd | .bitOr | .bitXor => True
  | .div | .mod => b ≠ 0
  | .shl | .shr => 0 ≤ b ∧ b < 64
  | _ => False

/-- The exact result: division truncates and the remainder has the dividend's sign,
    bitwise operations are those of the two's-complement expansion, and a right shift
    rounds down. -/
def BinaryOp.exact (op : BinaryOp) (a b : Int) : Int :=
  match op with
  | .add => a + b
  | .sub => a - b
  | .mul => a * b
  | .div => a.tdiv b
  | .mod => a.tmod b
  | .bitAnd => a.land b
  | .bitOr => a.lor b
  | .bitXor => a.xor b
  | .shl => a * 2 ^ b.toNat
  | .shr => a / 2 ^ b.toNat
  | _ => 0

variable {b : Int64} {op : BinaryOp}

theorem toInt_eq_zero_iff : b.toInt = 0 ↔ b = 0 := by
  rw [← Int64.toInt_inj]
  rfl

theorem shift_range_iff : (0 ≤ b ∧ b < 64) ↔ 0 ≤ b.toInt ∧ b.toInt < 64 := by
  rw [Int64.le_iff_toInt_le, Int64.lt_iff_toInt_lt]
  rfl

/-- `operand_fault` finds the operands that are not legal. -/
theorem operandFault_eq_none_iff (h : op.isIntArith = true) :
    operandFault op b = none ↔ op.Legal b.toInt := by
  cases op <;> simp only [BinaryOp.isIntArith, Bool.false_eq_true] at h <;>
    simp only [operandFault, BinaryOp.Legal]
  case div | mod => rw [ne_eq, toInt_eq_zero_iff]; split <;> simp [*]
  case shl | shr => rw [← shift_range_iff]; split <;> simp [*]

variable {v : Int64}

theorem orOverflow_ok_iff {n} : orOverflow op (checked n) = some (.ok v) ↔ v.toInt = n := by
  rw [← checked_eq_some_iff]
  unfold orOverflow
  split <;> simp [*]

variable {a : Int64}

/-- A success is legal and exact. -/
theorem intBinop_ok_iff :
    intBinop op a b = some (.ok v) ↔ op.Legal b.toInt ∧ v.toInt = op.exact a.toInt b.toInt := by
  cases harith : op.isIntArith with
  | false => cases op <;> simp [BinaryOp.isIntArith] at harith <;> simp [intBinop, operandFault, BinaryOp.Legal]
  | true =>
    have hlegal := operandFault_eq_none_iff harith (b := b)
    unfold intBinop
    cases hf : operandFault op b with
    | some f =>
      have : ¬ op.Legal b.toInt := by
        rw [← hlegal, hf]
        simp
      simp [this]
    | none =>
      have hl := hlegal.mp hf
      simp only [hl, true_and]
      cases op with
      | add | sub | mul | div => exact orOverflow_ok_iff
      | mod => simp [BinaryOp.exact, ← Int64.toInt_inj, Int64.toInt_mod, eq_comm]
      | bitAnd => simp [BinaryOp.exact, ← Int64.toInt_inj, toInt_and, eq_comm]
      | bitOr => simp [BinaryOp.exact, ← Int64.toInt_inj, toInt_or, eq_comm]
      | bitXor => simp [BinaryOp.exact, ← Int64.toInt_inj, toInt_xor, eq_comm]
      | shr => simp [BinaryOp.exact, ← Int64.toInt_inj, toInt_shiftRight hl.1 hl.2, eq_comm]
      | shl =>
        simp only [BinaryOp.exact]
        split
        · next hback =>
          have hfit := (shiftLeft_shiftRight_iff hl.1 hl.2).mp hback
          simp [← Int64.toInt_inj, toInt_shiftLeft_of_fits hl.1 hl.2 hfit, eq_comm]
        next hback =>
        simp only [Option.some.injEq, reduceCtorEq, false_iff]
        intro hv
        exact hback ((shiftLeft_shiftRight_iff hl.1 hl.2).mpr (hv ▸ fits_toInt v))
      | _ => cases harith

theorem intBinop_eq_none_iff : intBinop op a b = none ↔ op.isIntArith = false := by
  have hof : ∀ o v, orOverflow o v ≠ none := by
    intro o v
    unfold orOverflow
    split <;> simp
  unfold intBinop
  cases op <;> simp only [BinaryOp.isIntArith, operandFault] <;> repeat' split
  all_goals simp [hof]

theorem intNeg_ok_iff : intNeg a = .ok v ↔ v.toInt = -a.toInt := by
  rw [← checked_eq_some_iff]
  unfold intNeg
  split <;> simp [*]

/-- A success exists exactly when the operands are legal and the exact result fits. -/
theorem intBinop_succeeds_iff : (∃ v, intBinop op a b = some (.ok v)) ↔
      op.Legal b.toInt ∧ Fits (op.exact a.toInt b.toInt) := by
  simp only [intBinop_ok_iff]
  constructor
  · rintro ⟨v, hl, hv⟩
    exact ⟨hl, hv ▸ fits_toInt v⟩
  · rintro ⟨hl, hfit⟩
    exact ⟨Int64.ofInt _, hl, toInt_ofInt_of_fits hfit⟩

theorem intBinop_faults_iff : (∃ f, intBinop op a b = some (.error f)) ↔
      op.isIntArith = true ∧ ¬ (op.Legal b.toInt ∧ Fits (op.exact a.toInt b.toInt)) := by
  rw [← intBinop_succeeds_iff, ← Bool.not_eq_false, ← intBinop_eq_none_iff (a := a) (b := b)]
  cases h : intBinop op a b with
  | none => simp
  | some r => cases r <;> simp

/-- **Int operations are exact.**  An operation succeeds exactly when its operands are
    legal and the exact result fits, with that result, and otherwise faults.  A left
    shift succeeds exactly for amounts in `0..64` whose product fits; a division faults
    only on a zero divisor and on the least integer by minus one, whose remainder is
    zero. -/
theorem int_binop_exact (op : BinaryOp) (a b : Int64) :
    (intBinop op a b = none ↔ op.isIntArith = false) ∧
    (∀ v, intBinop op a b = some (.ok v) ↔
      op.Legal b.toInt ∧ v.toInt = op.exact a.toInt b.toInt) ∧
    ((∃ f, intBinop op a b = some (.error f)) ↔
      op.isIntArith = true ∧ ¬ (op.Legal b.toInt ∧ Fits (op.exact a.toInt b.toInt))) ∧
    (∀ v, intNeg a = .ok v ↔ v.toInt = -a.toInt) ∧
    ((∃ v, intBinop .shl a b = some (.ok v)) ↔
      (0 ≤ b.toInt ∧ b.toInt < 64) ∧ Fits (a.toInt * 2 ^ b.toInt.toNat)) ∧
    ((∃ f, intBinop .div a b = some (.error f)) ↔ b = 0 ∨ (a = Int64.minValue ∧ b = -1)) ∧
    intBinop .mod Int64.minValue (-1) = some (.ok 0) := by
  refine ⟨intBinop_eq_none_iff, fun v => intBinop_ok_iff, intBinop_faults_iff,
    fun v => intNeg_ok_iff, intBinop_succeeds_iff, ?_, by decide⟩
  have hmin : a = Int64.minValue ↔ a.toInt = -2 ^ 63 := by
    rw [← Int64.toInt_inj]
    rfl
  have hm1 : b = -1 ↔ b.toInt = -1 := by
    rw [← Int64.toInt_inj]
    rfl
  rw [intBinop_faults_iff, ← toInt_eq_zero_iff, hmin, hm1]
  simp only [BinaryOp.isIntArith, BinaryOp.Legal, BinaryOp.exact, true_and]
  by_cases hb : b.toInt = 0
  · simp [hb]
  · simp [hb, fits_tdiv_iff hb]

/-- Shifting zero by 64 faults, though its product fits. -/
theorem shl_zero_out_of_range :
    0 ≤ (64 : Int64).toInt ∧ Fits ((0 : Int64).toInt * 2 ^ (64 : Int64).toInt.toNat) ∧
      intBinop .shl 0 64 = some (.error (.shiftRange 64)) := by
  decide

/-! ## Expressions -/

/-- The f64 operations, on bits. -/
structure FloatOps where
  add : BitVec 64 → BitVec 64 → BitVec 64
  sub : BitVec 64 → BitVec 64 → BitVec 64
  mul : BitVec 64 → BitVec 64 → BitVec 64
  div : BitVec 64 → BitVec 64 → BitVec 64
  rem : BitVec 64 → BitVec 64 → BitVec 64
  neg : BitVec 64 → BitVec 64
  /-- `i64 as f64`. -/
  ofInt : Int64 → BitVec 64

/-- `float_binop`: a zero divisor is not folded. -/
def floatBinop (fl : FloatOps) (op : BinaryOp) (a b : BitVec 64) : Option (BitVec 64) :=
  match op with
  | .add => some (fl.add a b)
  | .sub => some (fl.sub a b)
  | .mul => some (fl.mul a b)
  | .div => if F64.isZero b then none else some (fl.div a b)
  | .mod => if F64.isZero b then none else some (fl.rem a b)
  | _ => none

abbrev Span := Nat

mutual

/-- Expressions of literals, names and operators. -/
inductive Expr where
  | int (span : Span) (n : Int64)
  | float (span : Span) (bits : BitVec 64)
  | str (span : Span) (s : String)
  | bytes (span : Span) (bs : List (BitVec 8))
  | bool (span : Span) (b : Bool)
  | noneLit (span : Span)
  | ident (span : Span) (name : String)
  | unary (span : Span) (op : UnaryOp) (expr : Expr)
  | binary (span : Span) (op : BinaryOp) (lhs rhs : Expr)
  | compare (span : Span) (first : Expr) (links : Links)

/-- The operators and further operands of a chained comparison. -/
inductive Links where
  | nil
  | cons (op : BinaryOp) (operand : Expr) (rest : Links)

end

def Expr.span : Expr → Span
  | .int span _ | .float span _ | .str span _ | .bytes span _ | .bool span _ | .noneLit span
  | .ident span _ | .unary span _ _ | .binary span _ _ _ | .compare span _ _ => span

inductive Const where
  | int (n : Int64)
  | float (bits : BitVec 64)
  deriving DecidableEq, Repr

inductive Fold where
  | value (c : Const)
  /-- The innermost node that always faults, and its fault. -/
  | fault (span : Span) (f : IntFault)
  | notConst
  deriving DecidableEq, Repr

def Fold.isFault : Fold → Bool
  | .fault _ _ => true
  | _ => false

/-- The fold of a binary node from those of its operands. -/
def foldBinary (fl : FloatOps) (span : Span) (op : BinaryOp) (l r : Fold) : Fold :=
  match l, r with
  | .fault s f, _ => .fault s f
  | _, .fault s f => .fault s f
  | .value (.int a), .value (.int b) =>
    match intBinop op a b with
    | some (.ok v) => .value (.int v)
    | some (.error f) => .fault span f
    | none => .notConst
  | .value (.float a), .value (.float b) =>
    match floatBinop fl op a b with
    | some v => .value (.float v)
    | none => .notConst
  | _, _ => .notConst

/-- The fold of a unary minus. -/
def foldNeg (fl : FloatOps) (span : Span) : Fold → Fold
  | .value (.int v) =>
    match intNeg v with
    | .ok n => .value (.int n)
    | .error f => .fault span f
  | .value (.float f) => .value (.float (fl.neg f))
  | other => other

/-- A node whose constant right operand faults for every int left operand. -/
structure Note where
  span : Span
  op : BinaryOp
  fault : IntFault
  deriving DecidableEq, Repr

def noteOf (span : Span) (op : BinaryOp) (l r : Fold) : List Note :=
  match l, r with
  | .notConst, .value (.int b) =>
    match operandFault op b with
    | some f => [⟨span, op, f⟩]
    | none => []
  | _, _ => []

/-- `eval_noting`: the fold, and the notes in the order they are made. -/
def evalNoting (fl : FloatOps) : Expr → Fold × List Note
  | .int _ n => (.value (.int n), [])
  | .float _ f => (.value (.float f), [])
  | .unary span .neg e =>
    let r := evalNoting fl e
    (foldNeg fl span r.1, r.2)
  | .binary span op lhs rhs =>
    let l := evalNoting fl lhs
    let r := evalNoting fl rhs
    (foldBinary fl span op l.1 r.1, l.2 ++ r.2 ++ noteOf span op l.1 r.1)
  | _ => (.notConst, [])

end ChezziLang
