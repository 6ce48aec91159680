/-
  `std.math`: the native `gcd`, `lcm`, `comb` and `perm`.

  Magnitudes are natural numbers and the 128-bit accumulator an integer; that every product
  stays in its type is part of the result.

  Proved:
  * `guarded_eq`: a guarded loop that grows ends in its last term, or reports that it does not
    fit.
  * `number_theory_exact`: each function answers the exact value, precisely when the arguments
    are legal and it fits.
-/
import ChezziLang.Ast.ConstEval
import Mathlib.Data.Nat.Choose.Basic

namespace ChezziLang.Stdlib.Math

open Lib.I64

/-- `i64::try_from`, with the error it is mapped to. -/
def tryFrom (v : Int) (message : String) : Except String Int64 :=
  match checked v with
  | some x => .ok x
  | none => .error message

/-- `gcd_u64`. -/
def gcdU64 (a b : Nat) : Nat :=
  if _h : b = 0 then a else gcdU64 b (a % b)
termination_by b
decreasing_by exact Nat.mod_lt _ (Nat.pos_of_ne_zero _h)

def gcd (a b : Int64) : Except String Int64 :=
  tryFrom (gcdU64 a.toInt.natAbs b.toInt.natAbs) (IntFault.overflow .gcd).message

/-- `lcm_i64`; the product is `checked_mul`. -/
def lcm (a b : Int64) : Except String Int64 :=
  if a = 0 ∨ b = 0 then .ok 0
  else
    let g := gcdU64 a.toInt.natAbs b.toInt.natAbs
    let l := a.toInt.natAbs / g * b.toInt.natAbs
    if l < 2 ^ 64 then tryFrom l (IntFault.overflow .lcm).message
    else .error (IntFault.overflow .lcm).message

/-- The loop of `comb_i64` and `perm_i64` after `i` rounds. -/
def guarded (message : String) (step : Nat → Int → Int) : Nat → Except String Int
  | 0 => .ok 1
  | i + 1 => do
    let acc := step i (← guarded message step i)
    if acc > 2 ^ 63 - 1 then .error message else .ok acc

/-- What `comb_i64` and `perm_i64` check first. -/
def legal (name : String) (n k : Int64) (count : Except String Int64) : Except String Int64 :=
  if n < 0 ∨ k < 0 then .error s!"{name}: n and k must be non-negative, got n={n} k={k}"
  else if k > n then .ok 0
  else count

/-- The smaller of `k` and `n - k`. -/
def combRounds (n k : Int64) : Nat := min k.toInt.toNat (n.toInt - k.toInt).toNat

def combStep (n : Int64) (i : Nat) (acc : Int) : Int := acc * (n.toInt - i) / (i + 1)

/-- `comb_i64`. -/
def comb (n k : Int64) : Except String Int64 :=
  legal "comb" n k do
    let m := combRounds n k
    let message := s!"comb: C({n},{m}) exceeds i64 range"
    tryFrom (← guarded message (combStep n) m) message

def permStep (n : Int64) (i : Nat) (acc : Int) : Int := acc * (n.toInt - i)

/-- `perm_i64`. -/
def perm (n k : Int64) : Except String Int64 :=
  legal "perm" n k do
    let message := s!"perm: P({n},{k}) exceeds i64 range"
    tryFrom (← guarded message (permStep n) k.toInt.toNat) message

/-- The exact value, precisely when the arguments are legal and it fits. -/
def Answers (r : Except String Int64) (legal : Prop) (v : Int) : Prop :=
  (legal ∧ Fits v → ∃ x, r = .ok x ∧ x.toInt = v) ∧ (¬ (legal ∧ Fits v) → ∃ e, r = .error e)

def FitsI128 (v : Int) : Prop := -2 ^ 127 ≤ v ∧ v < 2 ^ 127

variable {n k : Int64} {message : String} {step : Nat → Int → Int} {f : Nat → Nat} {v : Int} {m : Nat}

theorem tryFrom_answers (v message) : Answers (tryFrom v message) True v := by
  simp only [tryFrom, Answers, true_and]
  refine ⟨fun h => ?_, fun h => ?_⟩
  · rw [checked_of_fits h]
    exact ⟨_, rfl, toInt_ofInt_of_fits h⟩
  · rw [checked_eq_none_iff.mpr h]
    exact ⟨_, rfl⟩

theorem zero_answers {p : Prop} (hp : p) : Answers (.ok 0) p 0 :=
  ⟨fun _ => ⟨0, rfl, rfl⟩, fun h => absurd ⟨hp, by decide⟩ h⟩

theorem error_answers {p : Prop} (h : ¬ (p ∧ Fits v)) (e) : Answers (.error e) p v :=
  ⟨fun hv => absurd hv h, fun _ => ⟨e, rfl⟩⟩

theorem fits_natCast_iff {v : Nat} : Fits v ↔ v < 2 ^ 63 := by
  unfold Fits
  omega

theorem gcdU64_eq (a b) : gcdU64 a b = Nat.gcd a b := by
  fun_induction gcdU64 a b with
  | case1 a => rw [Nat.gcd_zero_right]
  | case2 a b h ih => rw [ih, Nat.gcd_comm a b, Nat.gcd_rec b a, Nat.gcd_comm]

theorem lcm_answers (a b : Int64) : Answers (lcm a b) True (Int.lcm a.toInt b.toInt) := by
  unfold lcm Int.lcm
  split
  · next h =>
    have hzero : a.toInt.natAbs.lcm b.toInt.natAbs = 0 := by
      rcases h with rfl | rfl
      · exact Nat.lcm_zero_left _
      · exact Nat.lcm_zero_right _
    rw [hzero]
    exact zero_answers trivial
  · dsimp only
    rw [gcdU64_eq, Nat.div_mul_right_comm (Nat.gcd_dvd_left _ _), ← Nat.lcm_eq_mul_div]
    split
    · exact tryFrom_answers _ _
    · exact error_answers (fun h => by have := fits_natCast_iff.mp h.2; omega) _

/-- The loop goes through the terms of `f`, which grow. -/
structure Terms (step : Nat → Int → Int) (f : Nat → Nat) (m : Nat) : Prop where
  zero : f 0 = 1
  step : ∀ i < m, step i (f i) = f (i + 1)
  mono : ∀ i < m, f i ≤ f (i + 1)

theorem Terms.le (h : Terms step f m) {i} (hi : i ≤ m) : Terms step f i where
  zero := h.zero
  step j hj := h.step j (by omega)
  mono j hj := h.mono j (by omega)

/-- The first term that does not fit is no earlier than the last one that is asked for. -/
theorem guarded_eq (h : Terms step f m) :
    guarded message step m = if Fits (f m) then .ok (f m : Int) else .error message := by
  simp only [fits_natCast_iff]
  induction m with
  | zero => rw [h.zero]; rfl
  | succ m ih =>
    have hle := h.mono m m.lt_succ_self
    rw [guarded, ih (h.le m.le_succ)]
    split
    · change (if step m (f m) > 2 ^ 63 - 1 then _ else _) = _
      rw [h.step m m.lt_succ_self]
      split
      · rw [if_neg (by omega)]
      · rw [if_pos (by omega)]
    · rw [if_neg (by omega)]
      rfl

theorem guarded_ok (h : Terms step f m) {acc} (hg : guarded message step m = .ok acc) :
    acc = f m ∧ f m < 2 ^ 63 := by
  rw [guarded_eq h] at hg
  split at hg
  · next hlt =>
    cases hg
    exact ⟨rfl, fits_natCast_iff.mp hlt⟩
  · cases hg

theorem tryFrom_guard_answers (v message) :
    Answers ((if Fits v then .ok v else .error message) >>= (tryFrom · message)) True v := by
  split
  · exact tryFrom_answers v message
  · next h => exact error_answers (fun hv => h hv.2) _

theorem guarded_answers (h : Terms step f m) :
    Answers (do tryFrom (← guarded message step m) message) True (f m) := by
  rw [guarded_eq h]
  exact tryFrom_guard_answers _ _

theorem Answers.legal {name count} (hzero : n.toInt.toNat < k.toInt.toNat → v = 0)
    (h : 0 ≤ k.toInt → k.toInt ≤ n.toInt → Answers count True v) :
    Answers (legal name n k count) (0 ≤ n.toInt ∧ 0 ≤ k.toInt) v := by
  have h0 : (0 : Int64).toInt = 0 := rfl
  simp only [Math.legal, GT.gt, Int64.lt_iff_toInt_lt, h0]
  split
  · exact error_answers (fun h => by omega) _
  split
  · rw [hzero (by omega)]
    exact zero_answers (by omega)
  · have hcount := h (by omega) (by omega)
    exact ⟨fun h => hcount.1 ⟨trivial, h.2⟩, fun h => hcount.2 fun hv => h ⟨⟨by omega, by omega⟩, hv.2⟩⟩

/-! ## The terms of the two loops -/

theorem sub_natCast {i} (hi : i < n.toInt.toNat) : n.toInt - i = (n.toInt.toNat - i : Nat) := by
  omega

theorem choose_mul_eq {i} (hi : i < n.toInt.toNat) :
    n.toInt.toNat.choose i * (n.toInt - i) = n.toInt.toNat.choose (i + 1) * ((i : Int) + 1) := by
  rw [sub_natCast hi]
  exact_mod_cast (Nat.choose_succ_right_eq _ _).symm

theorem two_combRounds_le (hk : 0 ≤ k.toInt) (hkn : k.toInt ≤ n.toInt) :
    2 * combRounds n k ≤ n.toInt.toNat := by
  unfold combRounds
  omega

theorem comb_terms (hk : 0 ≤ k.toInt) (hkn : k.toInt ≤ n.toInt) :
    Terms (combStep n) n.toInt.toNat.choose (combRounds n k) where
  zero := Nat.choose_zero_right _
  step i hi := by
    have hhalf := two_combRounds_le hk hkn
    rw [combStep, choose_mul_eq (by omega), Int.mul_ediv_cancel _ (by omega)]
  mono i hi := by
    have hhalf := two_combRounds_le hk hkn
    exact Nat.choose_le_succ_of_lt_half_left (by omega)

theorem perm_terms (hkn : k.toInt ≤ n.toInt) :
    Terms (permStep n) n.toInt.toNat.descFactorial k.toInt.toNat where
  zero := Nat.descFactorial_zero _
  step i hi := by
    rw [permStep, sub_natCast (by omega), Nat.descFactorial_succ, Nat.mul_comm, Int.natCast_mul]
  mono i hi := by
    rw [Nat.descFactorial_succ]
    exact Nat.le_mul_of_pos_left _ (by omega)

theorem choose_combRounds (hk : 0 ≤ k.toInt) (hkn : k.toInt ≤ n.toInt) :
    n.toInt.toNat.choose (combRounds n k) = n.toInt.toNat.choose k.toInt.toNat := by
  unfold combRounds
  rcases Nat.le_total k.toInt.toNat (n.toInt - k.toInt).toNat with hle | hle
  · rw [Nat.min_eq_left hle]
  · rw [Nat.min_eq_right hle]
    exact Nat.choose_symm_of_eq_add (by omega)

theorem fitsI128_mul {i acc} (hi : i < n.toInt.toNat) (h : acc = (f i : Int) ∧ f i < 2 ^ 63) :
    FitsI128 (acc * (n.toInt - i)) := by
  have hn := fits_toInt n
  unfold Fits at hn
  have hprod : f i * (n.toInt.toNat - i) ≤ 2 ^ 63 * 2 ^ 63 :=
    Nat.mul_le_mul (Nat.le_of_lt h.2) (by omega)
  rw [h.1, sub_natCast hi, ← Int.natCast_mul]
  exact ⟨by omega, by omega⟩

/-- **`gcd`, `lcm`, `comb` and `perm` are exact**: the mathematical value, precisely when the
    arguments are legal and it fits; the products of the loops stay in 128 bits and the division
    of `comb` leaves no remainder. -/
theorem number_theory_exact (a b : Int64) :
    Answers (gcd a b) True (Int.gcd a.toInt b.toInt) ∧
    Answers (lcm a b) True (Int.lcm a.toInt b.toInt) ∧
    Answers (comb a b) (0 ≤ a.toInt ∧ 0 ≤ b.toInt) (a.toInt.toNat.choose b.toInt.toNat) ∧
    Answers (perm a b) (0 ≤ a.toInt ∧ 0 ≤ b.toInt)
      (a.toInt.toNat.descFactorial b.toInt.toNat) ∧
    (0 ≤ b.toInt → b.toInt ≤ a.toInt → ∀ message i acc,
      (i < combRounds a b → guarded message (combStep a) i = .ok acc →
        FitsI128 (acc * (a.toInt - i)) ∧ (i : Int) + 1 ∣ acc * (a.toInt - i)) ∧
      (i < b.toInt.toNat → guarded message (permStep a) i = .ok acc →
        FitsI128 (acc * (a.toInt - i)))) := by
  refine ⟨?_, lcm_answers a b, ?_, ?_, fun hb hba message i acc => ⟨fun hi h => ?_, fun hi h => ?_⟩⟩
  · unfold gcd
    rw [gcdU64_eq]
    exact tryFrom_answers _ _
  · refine .legal (fun h => congrArg _ (Nat.choose_eq_zero_of_lt h)) fun hb hba => ?_
    rw [← choose_combRounds hb hba]
    exact guarded_answers (comb_terms hb hba)
  · exact .legal (fun h => congrArg _ (Nat.descFactorial_of_lt h))
      fun hb hba => guarded_answers (perm_terms hba)
  · have hhalf := two_combRounds_le hb hba
    have hacc := guarded_ok ((comb_terms hb hba).le hi.le) h
    refine ⟨fitsI128_mul (by omega) hacc, ?_⟩
    rw [hacc.1, choose_mul_eq (by omega)]
    exact Int.dvd_mul_left _ _
  · exact fitsI128_mul (by omega) (guarded_ok ((perm_terms hba).le hi.le) h)

end ChezziLang.Stdlib.Math
