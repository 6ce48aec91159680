/-
  The VM's values and its operators on numbers: `vm/arith.rs`, `vm/compare.rs` and the
  numeric arms of `vm/equality.rs`.

  An int is inline in the value word when it lies within 62 bits and boxed otherwise,
  never both.  An operator decides a numeric pair itself; on any other pair it answers
  `none` here and goes on to the heap: hooks, concatenation, sequences, type errors.

  Proved:
  * `intVal_inj`: an int has one representation.
  * `cmpIntF64_eq`: comparing an int with a float compares the numbers they stand for.
-/
import ChezziLang.Ast.ConstEval
import ChezziLang.Lib.F64

namespace ChezziLang.Vm

open Lib

/-! ## Values -/

/-- `INT_MIN_INLINE..=INT_MAX_INLINE`. -/
def Inline (n : Int64) : Prop := -2 ^ 62 ≤ n.toInt ∧ n.toInt ≤ 2 ^ 62 - 1

instance : DecidablePred Inline := fun _ => inferInstanceAs (Decidable (_ ∧ _))

/-- A value: boxed ints and floats stand for the number in their box, any other object
    is its handle. -/
inductive Val (O : Type) where
  | int (n : Int64) (inline : Inline n)
  | bigInt (n : Int64) (wide : ¬ Inline n)
  | float (bits : BitVec 64)
  | bool (b : Bool)
  | nil
  | obj (h : O)

variable {O : Type}

/-- `make_int`: inline or boxed, the only way to an int value. -/
def makeInt (n : Int64) : Val O := if h : Inline n then .int n h else .bigInt n h

def Val.asIntInline : Val O → Option Int64
  | .int n _ => some n
  | _ => none

def Val.asBool : Val O → Option Bool
  | .bool b => some b
  | _ => none

/-- `int_val`. -/
def intVal : Val O → Option Int64
  | .int n _ => some n
  | .bigInt n _ => some n
  | _ => none

/-- `as_f64`. -/
def asF64 (fl : FloatOps) : Val O → Option (BitVec 64)
  | .float w => some w
  | v => (intVal v).map fl.ofInt

@[simp] theorem intVal_makeInt (n) : intVal (makeInt n : Val O) = some n := by
  unfold makeInt
  split <;> rfl

/-- An int has one representation. -/
theorem intVal_inj {l : Val O} {n} : intVal l = some n ↔ l = makeInt n := by
  constructor
  · intro h
    cases l with
    | int m hm =>
      cases h
      rw [makeInt, dif_pos hm]
    | bigInt m hm =>
      cases h
      rw [makeInt, dif_neg hm]
    | _ => cases h
  · rintro rfl
    exact intVal_makeInt n

theorem intVal_of_asIntInline {l : Val O} {n} (h : l.asIntInline = some n) : intVal l = some n := by
  cases l with
  | int m hm => exact h
  | _ => cases h

/-! ## Operators -/

structure RuntimeError where
  message : String
  span : Span
  deriving DecidableEq, Repr

/-- How an operation stops without a value: a fault of the program, or a panic of the
    host. -/
inductive Stop where
  | fault (e : RuntimeError)
  | panic
  deriving DecidableEq, Repr

/-- `int_op`. -/
def intOp (op : BinaryOp) (a b : Int64) (span : Span) : Except Stop Int64 :=
  match intBinop op a b with
  | some (.ok n) => .ok n
  | some (.error f) => .error (.fault ⟨f.message, span⟩)
  | none => .error .panic

/-- The float arm of `arith`. -/
def floatOp (fl : FloatOps) (op : BinaryOp) (x y : BitVec 64) : Option (BitVec 64) :=
  match op with
  | .add => some (fl.add x y)
  | .sub => some (fl.sub x y)
  | .mul => some (fl.mul x y)
  | .div => some (fl.div x y)
  | .mod => some (fl.rem x y)
  | _ => none

/-- `arith` on a numeric pair. -/
def arithNum (fl : FloatOps) (op : BinaryOp) (l r : Val O) (span : Span) :
    Option (Except Stop (Val O)) :=
  match intVal l, intVal r with
  | some a, some b => some ((intOp op a b span).map makeInt)
  | _, _ =>
    match asF64 fl l, asF64 fl r with
    | some x, some y =>
      match floatOp fl op x y with
      | some f => some (.ok (.float f))
      | none => some (.error .panic)
    | _, _ => none

/-- `bitwise` on two ints. -/
def bitwiseNum (op : BinaryOp) (l r : Val O) (span : Span) : Option (Except Stop (Val O)) :=
  match intVal l, intVal r with
  | some a, some b => some ((intOp op a b span).map makeInt)
  | _, _ => none

/-- `2 ^ 63` and its negation, as words. -/
def twoPow63 : BitVec 64 := 0x43e0000000000000

def negTwoPow63 : BitVec 64 := 0xc3e0000000000000

/-- `cmp_int_f64`.  The two tests keep the cast from saturating. -/
def cmpIntF64 (v : Int64) (w : BitVec 64) : Option Ordering :=
  if F64.isNan w then none
  else if F64.key twoPow63 ≤ F64.key w then some .lt
  else if F64.key w < F64.key negTwoPow63 then some .gt
  else
    let fl := F64.floor w
    let fi := Int64.ofIntClamp fl
    match compare v.toInt fi.toInt with
    | .eq => if F64.units w > fl * F64.one then some .lt else some .eq
    | other => some other

/-- `compare` on a numeric pair. -/
def compareNum (l r : Val O) : Option (Option Ordering) :=
  match intVal l, intVal r, l, r with
  | some a, some b, _, _ => some (some (compare a.toInt b.toInt))
  | some a, none, _, .float w => some (cmpIntF64 a w)
  | none, some b, .float w, _ => some ((cmpIntF64 b w).map Ordering.swap)
  | none, none, .float x, .float y => some (F64.partialCmp x y)
  | _, _, _, _ => none

/-- What an ordered comparison makes of an ordering. -/
def orderedBool (op : BinaryOp) (o : Ordering) : Option Bool :=
  match op with
  | .lt => some o.isLT
  | .ltEq => some o.isLE
  | .gt => some o.isGT
  | .gtEq => some o.isGE
  | _ => none

/-- `compare_op` on a numeric pair: a NaN makes every comparison false. -/
def compareOpNum (op : BinaryOp) (l r : Val O) : Option (Except Stop (Val O)) :=
  match compareNum l r with
  | none => none
  | some none => some (.ok (.bool false))
  | some (some o) =>
    match orderedBool op o with
    | some b => some (.ok (.bool b))
    | none => some (.error .panic)

/-- `values_equal_guarded` on a numeric pair. -/
def equalNum (l r : Val O) : Option Bool :=
  match intVal l, intVal r, l, r with
  | some a, some b, _, _ => some (a == b)
  | some a, none, _, .float w => some (cmpIntF64 a w == some .eq)
  | none, some b, .float w, _ => some (cmpIntF64 b w == some .eq)
  | none, none, .float x, .float y => some (F64.partialCmp x y == some .eq)
  | _, _, _, _ => none

/-- `neg_value` on a number. -/
def negNum (fl : FloatOps) (v : Val O) (span : Span) : Option (Except Stop (Val O)) :=
  match intVal v, v with
  | some n, _ =>
    match intNeg n with
    | .ok m => some (.ok (makeInt m))
    | .error f => some (.error (.fault ⟨f.message, span⟩))
  | none, .float w => some (.ok (.float (fl.neg w)))
  | none, _ => none

/-! ## An int against a float -/

theorem toNat_mask (w) : (w &&& 0x7fffffffffffffff).toNat = Lib.F64.magnitude w := by
  rw [BitVec.toNat_and]
  exact Nat.and_two_pow_sub_one_eq_mod w.toNat 63

/-- The test by mask and the test by magnitude. -/
theorem isNan_eq (w) : Lib.F64.isNan w = F64.isNan w := by
  rw [Lib.F64.isNan, F64.isNan, toNat_mask]

theorem units_twoPow63 : F64.units twoPow63 = 2 ^ 63 * F64.one := by decide +kernel

theorem units_negTwoPow63 : F64.units negTwoPow63 = -2 ^ 63 * F64.one := by decide +kernel

/-- The floor of a word between the two bounds is an `i64`. -/
theorem floor_fits {w} (hhi : F64.key w < F64.key twoPow63)
    (hlo : F64.key negTwoPow63 ≤ F64.key w) : I64.Fits (F64.floor w) := by
  have hup : F64.units w < 2 ^ 63 * F64.one := by
    rw [← units_twoPow63]
    exact F64.units_lt_iff.mpr hhi
  have hdown : -2 ^ 63 * F64.one ≤ F64.units w := by
    rw [← units_negTwoPow63]
    exact Int.not_lt.mp fun h => absurd (F64.units_lt_iff.mp h) (Int.not_lt.mpr hlo)
  exact ⟨Int.le_ediv_of_mul_le F64.one_pos hdown, Int.ediv_lt_of_lt_mul F64.one_pos hup⟩

/-- Comparing an int with the floor, and with the fraction on a tie, compares the int
    with the number. -/
theorem compare_floor {n u one : Int} (h1 : 0 < one) : compare (n * one) u =
      match compare n (u / one) with
      | .eq => if u > u / one * one then .lt else .eq
      | o => o := by
  have hle : u / one * one ≤ u := Int.ediv_mul_le u (Int.ne_of_gt h1)
  have hlt : u < (u / one + 1) * one := Int.lt_ediv_add_one_mul_self u h1
  rcases Int.lt_trichotomy n (u / one) with h | h | h
  · have : n * one < u := Int.lt_of_lt_of_le (Int.mul_lt_mul_of_pos_right h h1) hle
    rw [compare_lt_iff_lt.mpr h, compare_lt_iff_lt.mpr this]
  · rw [compare_eq_iff_eq.mpr h]
    subst h
    simp only
    split
    · next hfrac => rw [compare_lt_iff_lt.mpr hfrac]
    · next hfrac => rw [compare_eq_iff_eq.mpr (by omega)]
  · have : u < n * one :=
      Int.lt_of_lt_of_le hlt (Int.mul_le_mul_of_nonneg_right (by omega) (Int.le_of_lt h1))
    rw [compare_gt_iff_gt.mpr h, compare_gt_iff_gt.mpr this]

/-- **An int and a float compare as the numbers they stand for.** -/
theorem cmpIntF64_eq (v w) : cmpIntF64 v w =
      if F64.isNan w then none else some (compare (v.toInt * F64.one) (F64.units w)) := by
  unfold cmpIntF64
  split
  · rfl
  have hv := I64.fits_toInt v
  split
  · next hge =>
    have hw : 2 ^ 63 * F64.one ≤ F64.units w := by
      rw [← units_twoPow63]
      exact Int.not_lt.mp fun h => absurd (F64.units_lt_iff.mp h) (Int.not_lt.mpr hge)
    have : v.toInt * F64.one < F64.units w :=
      Int.lt_of_lt_of_le (Int.mul_lt_mul_of_pos_right hv.2 F64.one_pos) hw
    rw [compare_lt_iff_lt.mpr this]
  next hlt =>
  split
  · next hlow =>
    have hw : F64.units w < -2 ^ 63 * F64.one := by
      rw [← units_negTwoPow63]
      exact F64.units_lt_iff.mpr hlow
    have : F64.units w < v.toInt * F64.one := Int.lt_of_lt_of_le hw
        (Int.mul_le_mul_of_nonneg_right hv.1 (Int.le_of_lt F64.one_pos))
    rw [compare_gt_iff_gt.mpr this]
  · next hge =>
    have hfit := floor_fits (Int.not_le.mp hlt) (Int.not_lt.mp hge)
    have hcast : (Int64.ofIntClamp (F64.floor w)).toInt = F64.floor w := by
      rw [I64.toInt_ofIntClamp]
      have := hfit.1
      have := hfit.2
      omega
    rw [compare_floor F64.one_pos]
    simp only [hcast]
    unfold F64.floor
    split
    · split <;> rfl
    · rfl

end ChezziLang.Vm
