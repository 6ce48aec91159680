/-
  binary64 words against exact numbers.

  A word that is not a NaN stands for a whole number of least subnormals `2 ^ -1074`:
  `units`.  An infinity takes the number one step past the largest finite one, which
  keeps the order.  `key` reads a word as sign and magnitude, without decoding it.

  Proved:
  * `units_lt_iff`, `units_inj`: keys are ordered as the numbers they stand for.
  * `eq_of_key_eq`: two words of one key are equal unless both are zeros.
-/
import Mathlib.Tactic.Ring

namespace ChezziLang.Lib.F64

/-- The word without its sign. -/
def magnitude (b : BitVec 64) : Nat := b.toNat % 2 ^ 63

def isNan (b : BitVec 64) : Bool := decide (0x7ff0000000000000 < magnitude b)

/-- The word as sign and magnitude. -/
def key (b : BitVec 64) : Int := if b.msb then -(magnitude b : Int) else magnitude b

/-- The number of units of a magnitude: exponent field zero is subnormal, any other has
    the hidden bit. -/
def unitsOf (m : Nat) : Nat :=
  if m < 2 ^ 52 then m else (2 ^ 52 + m % 2 ^ 52) * 2 ^ (m / 2 ^ 52 - 1)

def units (b : BitVec 64) : Int :=
  if b.msb then -(unitsOf (magnitude b) : Int) else unitsOf (magnitude b)

/-- How many units make one. -/
def one : Int := 2 ^ 1074

/-- `f64::partial_cmp`. -/
def partialCmp (a b : BitVec 64) : Option Ordering :=
  if isNan a || isNan b then none else some (compare (key a) (key b))

/-- `f64::total_cmp`: the words as signed integers, the negative ones flipped. -/
def totalCmp (a b : BitVec 64) : Ordering :=
  let flipped (w : BitVec 64) : Int := if w.msb then -(magnitude w : Int) - 1 else magnitude w
  compare (flipped a) (flipped b)

/-- `f64::floor`, as the integer it is. -/
def floor (b : BitVec 64) : Int := units b / one

theorem one_pos : 0 < one := Int.pow_pos (by decide)

/-! ## Order -/

theorem unitsOf_lt_succ (m) : unitsOf m < unitsOf (m + 1) := by
  unfold unitsOf
  by_cases hsub : m + 1 < 2 ^ 52
  · rw [if_pos (by omega), if_pos hsub]
    omega
  rw [if_neg hsub]
  by_cases hlast : m < 2 ^ 52
  · have hm : m + 1 = 2 ^ 52 := by omega
    rw [if_pos hlast, hm]
    omega
  rw [if_neg hlast]
  by_cases hcarry : m % 2 ^ 52 + 1 < 2 ^ 52
  · have hmod : (m + 1) % 2 ^ 52 = m % 2 ^ 52 + 1 := by omega
    have hdiv : (m + 1) / 2 ^ 52 = m / 2 ^ 52 := by omega
    rw [hmod, hdiv]
    exact Nat.mul_lt_mul_of_pos_right (by omega) (Nat.two_pow_pos _)
  -- the mantissa is full: the next number has the next exponent
  have hmod : (m + 1) % 2 ^ 52 = 0 := by omega
  have hdiv : (m + 1) / 2 ^ 52 - 1 = m / 2 ^ 52 - 1 + 1 := by omega
  have hfull : m % 2 ^ 52 = 2 ^ 52 - 1 := by omega
  have hpos := Nat.two_pow_pos (m / 2 ^ 52 - 1)
  rw [hmod, hdiv, hfull, @Nat.pow_succ 2 (m / 2 ^ 52 - 1)]
  generalize 2 ^ (m / 2 ^ 52 - 1) = p at hpos
  omega

theorem unitsOf_strictMono : StrictMono unitsOf := strictMono_nat_of_lt_succ unitsOf_lt_succ

theorem unitsOf_lt_iff {m n} : unitsOf m < unitsOf n ↔ m < n := unitsOf_strictMono.lt_iff_lt

theorem unitsOf_zero : unitsOf 0 = 0 := rfl

theorem unitsOf_pos {m} (h : 0 < m) : 0 < unitsOf m := by
  have := unitsOf_lt_iff.mpr h
  rwa [unitsOf_zero] at this

variable {a : BitVec 64}

/-- Keys are ordered as the numbers they stand for. -/
theorem units_lt_iff {b} : units a < units b ↔ key a < key b := by
  have hab := @unitsOf_lt_iff (magnitude a) (magnitude b)
  have hba := @unitsOf_lt_iff (magnitude b) (magnitude a)
  have ha := @unitsOf_pos (magnitude a)
  have hb := @unitsOf_pos (magnitude b)
  have hza : magnitude a = 0 → unitsOf (magnitude a) = 0 := fun h => by rw [h, unitsOf_zero]
  have hzb : magnitude b = 0 → unitsOf (magnitude b) = 0 := fun h => by rw [h, unitsOf_zero]
  unfold units key
  split <;> split <;> omega

theorem units_inj {b} : units a = units b ↔ key a = key b := by
  have hab := @units_lt_iff a b
  have hba := @units_lt_iff b a
  omega

theorem key_eq_zero_iff : key a = 0 ↔ magnitude a = 0 := by
  unfold key
  split <;> omega

theorem units_eq_zero_iff : units a = 0 ↔ key a = 0 := by
  have h0 : units 0 = 0 := by decide
  have hk : key 0 = 0 := by decide
  have hiff := @units_inj a 0
  rwa [h0, hk] at hiff

/-- Only the two zeros share a key. -/
theorem eq_of_key_eq {b} (h : key a = key b) (h0 : key a ≠ 0) : a = b := by
  apply BitVec.eq_of_toNat_eq
  have ha := a.isLt
  have hb := b.isLt
  unfold key magnitude at h h0
  rw [BitVec.msb_eq_decide, BitVec.msb_eq_decide] at h
  rw [BitVec.msb_eq_decide] at h0
  simp only [decide_eq_true_eq] at h h0
  split at h <;> split at h <;> split at h0 <;> omega

end ChezziLang.Lib.F64
