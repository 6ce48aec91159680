/-
  64-bit signed integers against exact ones.

  `checked` is the one way from an exact integer to a machine one that can fail, and
  `Int64.ofIntClamp` the one that saturates; an operation is the exact one followed by
  either.  Bitwise operations and shifts are those of the infinite two's-complement
  expansion.

  Proved:
  * `checked_eq_some_iff`: `checked` answers exactly the integers that fit.
  * `shiftLeft_shiftRight_iff`: shifting left and back gives the operand exactly when
    the product by the power of two fits.
-/
import Mathlib.Data.Int.Bitwise
import Mathlib.Tactic.LinearCombination

namespace ChezziLang.Lib.I64

/-- The integers a 64-bit signed integer can hold. -/
def Fits (n : Int) : Prop := -2 ^ 63 ≤ n ∧ n < 2 ^ 63

instance (n : Int) : Decidable (Fits n) := inferInstanceAs (Decidable (_ ∧ _))

theorem fits_toInt (a : Int64) : Fits a.toInt := ⟨a.le_toInt, a.toInt_lt⟩

variable {b a : Int64}

/-- Below another int there is room for one more. -/
theorem fits_succ_of_lt (h : a.toInt < b.toInt) : Fits (a.toInt + 1) := by
  have ha := fits_toInt a
  have hb := fits_toInt b
  unfold Fits at *
  omega

/-- The machine integer of an exact one, if it fits. -/
def checked (n : Int) : Option Int64 := if Fits n then some (Int64.ofInt n) else none

theorem checked_eq_some_iff {n v} : checked n = some v ↔ v.toInt = n := by
  unfold checked
  constructor
  · intro h
    split at h
    · next hn =>
      rw [← Option.some.inj h]
      exact Int64.toInt_ofInt_of_le hn.1 hn.2
    · cases h
  · rintro rfl
    rw [if_pos (fits_toInt v), Int64.ofInt_toInt]

theorem checked_of_fits {n} (h : Fits n) : checked n = some (Int64.ofInt n) := if_pos h

theorem checked_eq_none_iff {n} : checked n = none ↔ ¬ Fits n := by
  unfold checked
  split
  · next h => simp [h]
  · next h => simp [h]

theorem toInt_ofInt_of_fits {n} (h : Fits n) : (Int64.ofInt n).toInt = n :=
  Int64.toInt_ofInt_of_le h.1 h.2

/-- Saturation, on the exact integer. -/
theorem toInt_ofIntClamp (n) : (Int64.ofIntClamp n).toInt = max (-2 ^ 63) (min n (2 ^ 63 - 1)) := by
  have hmin : Int64.minValue.toInt = -2 ^ 63 := by decide
  have hmax : Int64.maxValue.toInt = 2 ^ 63 - 1 := by decide
  unfold Int64.ofIntClamp
  split
  · split
    · rw [Int64.toInt_ofIntLE]
      omega
    · rw [hmax]
      omega
  · rw [hmin]
    omega

/-! ## Bits -/

/-- Two integers with the same bits are equal. -/
theorem eq_of_testBit_eq {m n : Int} (h : ∀ k, m.testBit k = n.testBit k) : m = n := by
  have hlarge : ∀ a b : Nat, ¬ ∀ k, a.testBit k = !b.testBit k := by
    intro a b hab
    have hk := hab (a + b)
    rw [Nat.testBit_lt_two_pow ((Nat.le_add_right a b).trans_lt Nat.lt_two_pow_self),
      Nat.testBit_lt_two_pow ((Nat.le_add_left b a).trans_lt Nat.lt_two_pow_self)] at hk
    cases hk
  cases m with
  | ofNat a =>
    cases n with
    | ofNat b => exact congrArg Int.ofNat (Nat.eq_of_testBit_eq h)
    | negSucc b => exact absurd h (hlarge a b)
  | negSucc a =>
    cases n with
    | ofNat b => exact absurd (fun k => (h k).symm) (hlarge b a)
    | negSucc b =>
      refine congrArg Int.negSucc (Nat.eq_of_testBit_eq fun k => ?_)
      exact Bool.not_inj (h k)

/-- The bits of a machine integer, with the sign repeated above them. -/
theorem testBit_toInt (a : Int64) (k) :
    a.toInt.testBit k = if k < 64 then a.toBitVec.getLsbD k else a.toBitVec.msb := by
  have hlt : a.toBitVec.toNat < 2 ^ 64 := a.toBitVec.isLt
  rw [← Int64.toInt_toBitVec, BitVec.toInt_eq_toNat_cond, BitVec.msb_eq_decide]
  split
  · next hpos =>
    change a.toBitVec.toNat.testBit k = _
    split
    · rfl
    · rw [Nat.testBit_lt_two_pow (hlt.trans_le (Nat.pow_le_pow_right (by omega) (by omega)))]
      simp; omega
  · next hneg =>
    have hval : ((a.toBitVec.toNat : Int) - ((2 ^ 64 : Nat) : Int)) =
        Int.negSucc (2 ^ 64 - (a.toBitVec.toNat + 1)) := by
      rw [Int.negSucc_eq]
      omega
    rw [hval, Int.testBit, Nat.testBit_two_pow_sub_succ hlt]
    split
    · next hk => simp [hk, BitVec.getLsbD]
    · next hk => simp [hk]; omega

theorem toInt_and (a b : Int64) : (a &&& b).toInt = a.toInt.land b.toInt := by
  refine eq_of_testBit_eq fun k => ?_
  simp only [Int.testBit_land, testBit_toInt, Int64.toBitVec_and, BitVec.getLsbD_and, BitVec.msb_and]
  split <;> rfl

theorem toInt_or (a b : Int64) : (a ||| b).toInt = a.toInt.lor b.toInt := by
  refine eq_of_testBit_eq fun k => ?_
  simp only [Int.testBit_lor, testBit_toInt, Int64.toBitVec_or, BitVec.getLsbD_or, BitVec.msb_or]
  split <;> rfl

theorem toInt_xor (a b : Int64) : (a ^^^ b).toInt = a.toInt.xor b.toInt := by
  refine eq_of_testBit_eq fun k => ?_
  simp only [Int.testBit_lxor, testBit_toInt, Int64.toBitVec_xor, BitVec.getLsbD_xor, BitVec.msb_xor]
  split <;> rfl

/-! ## Shifts by an amount in `0..64` -/

section

variable (h0 : 0 ≤ b.toInt)
include h0

theorem toNat_smod_of_lt (h : b.toInt < 64) :
    (b.toBitVec.smod 64).toNat = b.toInt.toNat := by
  have hval : (b.toBitVec.smod 64).toInt = b.toInt := by
    rw [BitVec.toInt_smod, Int64.toInt_toBitVec, show (64 : BitVec 64).toInt = 64 from rfl,
      Int.fmod_eq_of_lt h0 h]
  rw [BitVec.toInt_eq_toNat_cond] at hval
  split at hval <;> omega

theorem toInt_shiftRight (h : b.toInt < 64) :
    (a >>> b).toInt = a.toInt / 2 ^ b.toInt.toNat := by
  rw [← Int64.toInt_toBitVec, Int64.toBitVec_shiftRight, BitVec.sshiftRight', toNat_smod_of_lt h0 h,
    BitVec.toInt_sshiftRight, Int.shiftRight_eq_div_pow, Int64.toInt_toBitVec]
  simp

theorem toInt_shiftLeft (h : b.toInt < 64) :
    (a <<< b).toInt = (a.toInt * 2 ^ b.toInt.toNat).bmod (2 ^ 64) := by
  rw [← Int64.toInt_toBitVec (a <<< b), Int64.toBitVec_shiftLeft, BitVec.shiftLeft_eq',
    toNat_smod_of_lt h0 h, BitVec.toInt_shiftLeft, ← Int64.toInt_toBitVec a,
    BitVec.toInt_eq_toNat_bmod, Int.bmod_mul_bmod, Nat.shiftLeft_eq]
  push_cast
  rfl

/-- Shifting left and back loses nothing exactly when the product fits. -/
theorem shiftLeft_shiftRight_iff (h : b.toInt < 64) :
    (a <<< b) >>> b = a ↔ Fits (a.toInt * 2 ^ b.toInt.toNat) := by
  have hpos : (0 : Int) < 2 ^ b.toInt.toNat := Int.pow_pos (by decide)
  have hdvd : (2 : Int) ^ b.toInt.toNat ∣ 2 ^ 64 := pow_dvd_pow 2 (by omega)
  rw [← Int64.toInt_inj, toInt_shiftRight h0 h, toInt_shiftLeft h0 h]
  generalize (2 : Int) ^ b.toInt.toNat = p at hpos hdvd ⊢
  constructor
  · intro heq
    -- the wrapped product is still a multiple of the power
    have hmul : p ∣ (a.toInt * p).bmod (2 ^ 64) := by
      obtain ⟨q, hq⟩ := hdvd.trans (Int.dvd_bmod_sub_self (x := a.toInt * p) (m := 2 ^ 64))
      exact ⟨a.toInt + q, by linear_combination hq⟩
    have hprod : (a.toInt * p).bmod (2 ^ 64) = a.toInt * p := by
      rw [← Int.ediv_mul_cancel hmul, heq]
    have h1 := Int.le_bmod (x := a.toInt * p) (m := 2 ^ 64) (by decide)
    have h2 := Int.bmod_lt (x := a.toInt * p) (m := 2 ^ 64) (by decide)
    rw [hprod] at h1 h2
    unfold Fits
    omega
  · intro hfit
    unfold Fits at hfit
    rw [Int.bmod_eq_of_le (by omega) (by omega)]
    exact Int.mul_ediv_cancel _ (by omega)

theorem toInt_shiftLeft_of_fits (h : b.toInt < 64)
    (hfit : Fits (a.toInt * 2 ^ b.toInt.toNat)) :
    (a <<< b).toInt = a.toInt * 2 ^ b.toInt.toNat := by
  unfold Fits at hfit
  rw [toInt_shiftLeft h0 h, Int.bmod_eq_of_le (by omega) (by omega)]

end

/-! ## Division -/

/-- The one quotient that does not fit. -/
theorem fits_tdiv_iff (hb : b.toInt ≠ 0) :
    Fits (a.toInt.tdiv b.toInt) ↔ ¬ (a.toInt = -2 ^ 63 ∧ b.toInt = -1) := by
  have ha := fits_toInt a
  unfold Fits at ha ⊢
  constructor
  · rintro hfit ⟨h1, h2⟩
    rw [h1, h2] at hfit
    revert hfit
    decide
  intro hne
  have hle : (a.toInt.tdiv b.toInt).natAbs = a.toInt.natAbs / b.toInt.natAbs := Int.natAbs_tdiv ..
  rcases lt_trichotomy b.toInt.natAbs 1 with h | h | h
  · omega
  · rcases Int.natAbs_eq b.toInt with hb' | hb' <;> rw [h] at hb'
    · rw [hb', Int.natCast_one, Int.tdiv_one]
      exact ha
    · rw [hb', Int.natCast_one, Int.tdiv_neg, Int.tdiv_one]
      omega
  · have : a.toInt.natAbs / b.toInt.natAbs ≤ a.toInt.natAbs / 2 := Nat.div_le_div_left h (by omega)
    omega

end ChezziLang.Lib.I64
