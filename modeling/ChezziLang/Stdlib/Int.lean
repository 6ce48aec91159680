/-
  The `int` operations of library code written in the language itself.

  An `int` is an exact integer here and each operation checks that its result fits 64
  bits, as the machine does.

  Proved:
    * `arith_toInt`: on machine integers these are the machine's operations, with the
      machine's faults.
-/
import ChezziLang.Ast.ConstEval

namespace ChezziLang.Stdlib

open Lib.I64

/-- How library code stops without a value. -/
inductive Fault where
  | int (f : IntFault)
  | panic (message : String)
  deriving DecidableEq, Repr

abbrev Run := Except Fault

/-- A result that must fit. -/
def fit (op : BinaryOp) (n : Int) : Run Int :=
  if Fits n then .ok n else .error (.int (.overflow (.bin op)))

def add (a b : Int) : Run Int := fit .add (a + b)

def sub (a b : Int) : Run Int := fit .sub (a - b)

def mul (a b : Int) : Run Int := fit .mul (a * b)

/-- `/` truncates. -/
def div (a b : Int) : Run Int :=
  if b = 0 then .error (.int .divByZero) else fit .div (a.tdiv b)

/-- `%` has the sign of the dividend and never overflows. -/
def mod (a b : Int) : Run Int :=
  if b = 0 then .error (.int .modByZero) else .ok (a.tmod b)

/-- Unary minus. -/
def neg (a : Int) : Run Int := if Fits (-a) then .ok (-a) else .error (.int (.overflow .neg))

theorem fit_toInt (op n) :
    (orOverflow op (checked n)).map (fun r => (r.map Int64.toInt).mapError Fault.int) =
      some (fit op n) := by
  unfold fit
  split
  · next h =>
    rw [checked_of_fits h]
    simp [orOverflow, Except.map, Except.mapError, toInt_ofInt_of_fits h]
  · next h =>
    rw [checked_eq_none_iff.mpr h]
    simp [orOverflow, Except.map, Except.mapError]

/-- **Library arithmetic is the machine's.** -/
theorem arith_toInt (a b) :
    let machine op := (intBinop op a b).map fun r => (r.map Int64.toInt).mapError Fault.int
    machine .add = some (add a.toInt b.toInt) ∧ machine .sub = some (sub a.toInt b.toInt) ∧
      machine .mul = some (mul a.toInt b.toInt) ∧ machine .div = some (div a.toInt b.toInt) ∧
      machine .mod = some (mod a.toInt b.toInt) := by
  refine ⟨fit_toInt .add _, fit_toInt .sub _, fit_toInt .mul _, ?_, ?_⟩
  · unfold div intBinop operandFault
    by_cases hb : b = 0
    · subst hb
      rfl
    · simp only [hb, if_false, toInt_eq_zero_iff]
      exact fit_toInt .div _
  · unfold mod intBinop operandFault
    by_cases hb : b = 0
    · subst hb
      rfl
    · simp [hb, toInt_eq_zero_iff, Except.map, Except.mapError, Int64.toInt_mod]

/-! ## Results that fit -/

theorem ok_bind {α β : Type} (a) (f : α → Run β) : (Except.ok a >>= f) = f a := rfl

theorem fits_natCast {n : Nat} (h : n < 2 ^ 63) : Fits (n : Int) := by
  unfold Fits
  omega

theorem fits_neg_natCast {n : Nat} (h : n ≤ 2 ^ 63) : Fits (-(n : Int)) := by
  unfold Fits
  omega

theorem fit_ok {op n} (h : Fits n) : fit op n = .ok n := if_pos h

theorem fit_eq {op n m} (h : n = m) (hm : Fits m) : fit op n = .ok m := by
  rw [h, fit_ok hm]

variable {a b : Int}

theorem add_ok (h : Fits (a + b)) : add a b = .ok (a + b) := fit_ok h

theorem sub_ok (h : Fits (a - b)) : sub a b = .ok (a - b) := fit_ok h

theorem mul_ok (h : Fits (a * b)) : mul a b = .ok (a * b) := fit_ok h

theorem neg_ok (h : Fits (-a)) : neg a = .ok (-a) := if_pos h

/-- A nonnegative dividend and a positive divisor: the quotient rounds down. -/
theorem div_ok (ha : 0 ≤ a) (hb : 0 < b) (h : Fits a) : div a b = .ok (a / b) := by
  rw [div, if_neg (by omega), Int.tdiv_eq_ediv_of_nonneg ha]
  apply fit_ok
  have hle : a / b ≤ a := Int.ediv_le_self b ha
  have hnonneg : 0 ≤ a / b := Int.ediv_nonneg ha (by omega)
  unfold Fits at *
  omega

theorem mod_ok (ha : 0 ≤ a) (hb : b ≠ 0) : mod a b = .ok (a % b) := by
  rw [mod, if_neg hb, Int.tmod_eq_emod_of_nonneg ha]

section

variable {β : Type} {a b : Int} {f : Int → Run β}

theorem add_bind (h : Fits (a + b)) : (add a b >>= f) = f (a + b) := by rw [add_ok h, ok_bind]

theorem sub_bind (h : Fits (a - b)) : (sub a b >>= f) = f (a - b) := by rw [sub_ok h, ok_bind]

theorem mul_bind (h : Fits (a * b)) : (mul a b >>= f) = f (a * b) := by rw [mul_ok h, ok_bind]

theorem div_bind (ha : 0 ≤ a) (hb : 0 < b) (h : Fits a) : (div a b >>= f) = f (a / b) := by
  rw [div_ok ha hb h, ok_bind]

theorem mod_bind (ha : 0 ≤ a) (hb : b ≠ 0) : (mod a b >>= f) = f (a % b) := by
  rw [mod_ok ha hb, ok_bind]

end

end ChezziLang.Stdlib
