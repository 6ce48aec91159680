/-
  `Range` values: the struct of `prelude.chz`, on 64-bit `int`s that fault on overflow.

  `iter` is a generator; `resume` is its body from one `yield` to the next.  `Inside`
  and `values` are the exact sequence: start, start + step, ... while inside the end
  bound.

  Proved:
    * `hasNext_eq`: `_has_next` answers exactly, except for the two pairs of operands
      whose difference is one more than the largest int;
    * `contains_eq`: `contains` is exact and never faults;
    * `range_correct_iff`: for which ranges iterating, `len` and `contains` agree with
      the exact sequence.
-/
import ChezziLang.Lib.Generator
import ChezziLang.Stdlib.Int
import Mathlib.Tactic.Linarith
import Mathlib.Tactic.Ring

namespace ChezziLang.Stdlib

open Lib.I64 Lib.Generator List

/-! ## The code -/

structure Range where
  start : Option Int
  stop : Option Int
  step : Int := 1
  inclusive : Bool := false
  deriving DecidableEq, Repr

namespace Range

/-- `_in`. -/
def inBound (r : Range) (cur e : Int) : Bool :=
  if r.inclusive ∧ cur = e then true
  else if r.step > 0 then cur < e
  else cur > e

/-- `_has_next`. -/
def hasNext (r : Range) (cur e : Int) : Run Bool :=
  if r.step > 0 then
    if cur < 0 ∧ e > 0 then do pure (r.inBound (← add cur r.step) e)
    else do
      let gap ← sub e cur
      if (← sub gap r.step) > 0 then pure true
      else if r.inclusive then do pure ((← sub gap r.step) == 0)
      else pure false
  else
    if cur > 0 ∧ e < 0 then do pure (r.inBound (← add cur r.step) e)
    else do
      let gap ← sub cur e
      if (← add gap r.step) > 0 then pure true
      else if r.inclusive then do pure ((← add gap r.step) == 0)
      else pure false

/-- Where the body of `iter` is suspended: before its first line, after one of its
    `yield`s with `cur` in hand, or at its end. -/
inductive Point where
  | enter
  | inclusiveLoop (cur e : Int)
  | exclusiveLoop (cur e : Int)
  | stepLoop (cur e : Int)
  | openLoop (cur : Int)
  | finished
  deriving DecidableEq, Repr

/-- `iter`, from one `yield` to the next. -/
def resume (r : Range) : Point → Run (Option Int × Point)
  | .enter =>
    if r.step = 0 then .error (.panic "Range() step cannot be zero")
    else
      match r.start with
      | none => .error (.panic "a range with no start cannot be iterated")
      | some cur =>
        match r.stop with
        | some e =>
          if r.step = 1 then
            if r.inclusive then
              if cur ≤ e then .ok (some cur, .inclusiveLoop cur e) else .ok (none, .finished)
            else if cur < e then .ok (some cur, .exclusiveLoop cur e)
            else .ok (none, .finished)
          else if r.inBound cur e then .ok (some cur, .stepLoop cur e)
          else .ok (none, .finished)
        | none => .ok (some cur, .openLoop cur)
  | .inclusiveLoop cur e =>
    if cur < e then do
      let cur ← add cur 1
      pure (some cur, .inclusiveLoop cur e)
    else .ok (none, .finished)
  | .exclusiveLoop cur e => do
    let cur ← add cur 1
    if cur < e then pure (some cur, .exclusiveLoop cur e) else pure (none, .finished)
  | .stepLoop cur e => do
    if ← r.hasNext cur e then
      let cur ← add cur r.step
      pure (some cur, .stepLoop cur e)
    else pure (none, .finished)
  | .openLoop cur => do
    let cur ← add cur r.step
    pure (some cur, .openLoop cur)
  | .finished => .ok (none, .finished)

/-- `len`. -/
def len (r : Range) : Run Int :=
  match r.stop, r.start with
  | some e, some s =>
    if r.step = 0 then .error (.panic "Range() step cannot be zero")
    else if r.inBound s e then do
      let span ← sub e s
      let span ← (if r.step < 0 then sub s e else pure span : Run Int)
      let mag ← (if r.step < 0 then sub 0 r.step else pure r.step : Run Int)
      let n ← div span mag
      let rest ← mod span mag
      if rest ≠ 0 ∨ r.inclusive then add n 1 else pure n
    else pure 0
  | _, _ => .error (.panic "len() needs a range with a start and an end")

/-- `_aligned`. -/
def aligned (r : Range) (item s : Int) : Run Bool :=
  if r.step = 1 ∨ r.step = -1 then pure true
  else do
    let a ← mod item r.step
    let b ← mod s r.step
    if a = b then pure true
    else if a > 0 ∧ b < 0 then
      if r.step > 0 then do pure (a == (← add b r.step))
      else do pure ((← add a r.step) == b)
    else if a < 0 ∧ b > 0 then
      if r.step > 0 then do pure (b == (← add a r.step))
      else do pure ((← add b r.step) == a)
    else pure false

/-- `contains`. -/
def contains (r : Range) (item : Int) : Run Bool :=
  if r.step = 0 then .error (.panic "Range() step cannot be zero")
  else
    let up := decide (r.step > 0)
    if (r.start.any fun s => (up && item < s) || (!up && item > s)) then pure false
    else if (r.stop.any fun e => !r.inBound item e) then pure false
    else
      match r.start with
      | some s => r.aligned item s
      | none => pure true

/-! ## The exact sequence -/

/-- The value is inside the end bound. -/
def Inside (step : Int) (inclusive : Bool) (e v : Int) : Prop :=
  (0 < step ∧ v < e) ∨ (step < 0 ∧ e < v) ∨ (inclusive = true ∧ v = e)

instance (step : Int) (inclusive : Bool) (e v : Int) : Decidable (Inside step inclusive e v) :=
  inferInstanceAs (Decidable (_ ∨ _))

/-- The first `n` values of the sequence. -/
def values (s step : Int) (n : Nat) : List Int := (range n).map fun k : Nat => s + k * step

/-- How many values are inside the bound. -/
def count (s e step : Int) (inclusive : Bool) : Nat :=
  if Inside step inclusive e s then
    (e - s).natAbs / step.natAbs +
      if (e - s).natAbs % step.natAbs ≠ 0 ∨ inclusive = true then 1 else 0
  else 0

theorem inBound_iff {r : Range} (hs : r.step ≠ 0) (cur e) :
    r.inBound cur e = true ↔ Inside r.step r.inclusive e cur := by
  rw [inBound, Inside, ← or_assoc]
  split
  · next h => simp [h]
  · next h =>
    rw [or_iff_left h]
    split <;> rw [decide_eq_true_iff] <;> omega

/-- Steps of length `p` inside a distance `d`. -/
theorem lt_steps_iff {d p} (hp : 0 < p) (inclusive k) :
    (k < d / p + if d % p ≠ 0 ∨ inclusive = true then 1 else 0) ↔
      k * p < d ∨ inclusive = true ∧ k * p = d := by
  have hdiv := Nat.div_add_mod d p
  have hle : k ≤ d / p ↔ k * p ≤ d := Nat.le_div_iff_mul_le hp
  split
  · next h =>
    rw [Nat.lt_succ_iff, hle]
    constructor
    · intro hk
      rcases Nat.lt_or_eq_of_le hk with hk | hk
      · exact .inl hk
      rcases h with h | h
      · rw [← hk, Nat.mul_mod_left] at h
        exact absurd rfl h
      · exact .inr ⟨h, hk⟩
    · rintro (hk | ⟨-, hk⟩) <;> omega
  · next h =>
    obtain ⟨hmod, hinc⟩ := not_or.mp h
    rw [Nat.add_zero, Nat.lt_div_iff_mul_lt_of_dvd (by omega)
      (Nat.dvd_of_mod_eq_zero (not_not.mp hmod))]
    simp [hinc]

/-- The sequence is inside the bound exactly for its first `count` values. -/
theorem lt_count_iff {s e step inclusive} (hs : step ≠ 0) (k) :
    k < count s e step inclusive ↔ Inside step inclusive e (s + k * step) := by
  obtain ⟨p, hp⟩ : ∃ p, p = step.natAbs := ⟨_, rfl⟩
  obtain ⟨d, hd⟩ : ∃ d, d = (e - s).natAbs := ⟨_, rfl⟩
  have hks : (0 < step ∧ ((k * p : Nat) : Int) = k * step) ∨
      (step < 0 ∧ ((k * p : Nat) : Int) = -(k * step)) := by
    rw [Nat.cast_mul, hp]
    rcases Int.lt_or_lt_of_ne hs with h | h
    · exact .inr ⟨h, by rw [Int.ofNat_natAbs_of_nonpos h.le, Int.mul_neg]⟩
    · exact .inl ⟨h, by rw [Int.natAbs_of_nonneg h.le]⟩
  unfold count
  rw [← hp, ← hd]
  have hsteps := @lt_steps_iff d p (by omega) inclusive k
  by_cases hin : Inside step inclusive e s
  all_goals
    simp only [hin, if_true, if_false, hsteps]
    unfold Inside at hin ⊢
    generalize (k : Int) * step = ks at *
    generalize k * p = kp at *
    cases inclusive <;> simp at hin ⊢ <;> omega

/-- The steps go one way. -/
theorem steps_side {step : Int} (hs : step ≠ 0) (k : Nat) :
    0 < step ∧ 0 ≤ k * step ∨ step < 0 ∧ k * step ≤ 0 := by
  rcases Int.lt_or_lt_of_ne hs with h | h
  · exact .inr ⟨h, Int.mul_nonpos_of_nonneg_of_nonpos (by omega) h.le⟩
  · exact .inl ⟨h, Int.mul_nonneg (by omega) h.le⟩

/-! ## The next value -/

/-- The two pairs of a value and an end whose difference is `2 ^ 63`. -/
def Overflows (step cur e : Int) : Prop :=
  (0 < step ∧ cur = -2 ^ 63 ∧ e = 0) ∨ (step < 0 ∧ cur = 0 ∧ e = -2 ^ 63)

instance (step cur e : Int) : Decidable (Overflows step cur e) :=
  inferInstanceAs (Decidable (_ ∨ _))

theorem pure_eq_decide {b P} [Decidable P] (h : b = true ↔ P) :
    (pure b : Run Bool) = .ok (decide P) := by
  rw [← Bool.decide_coe b, decide_eq_decide.mpr h]
  rfl

/-- **`_has_next` answers exactly**, except for two pairs of operands. -/
theorem hasNext_eq {s stop step inclusive cur e} (hs : step ≠ 0) (hstep : Fits step)
    (hcur : Fits cur) (he : Fits e) (hin : Inside step inclusive e cur) :
    hasNext ⟨s, stop, step, inclusive⟩ cur e =
      if Overflows step cur e then .error (.int (.overflow (.bin .sub)))
      else .ok (decide (Inside step inclusive e (cur + step))) := by
  unfold Fits at hstep hcur he
  -- what is left of the gap after one more step
  have hgap : ∀ {f : Run Int} {gap : Int}, f = .ok gap → (gap > 0 ↔ 0 < step ∧ cur + step < e ∨
      step < 0 ∧ e < cur + step) → (gap = 0 ↔ cur + step = e) →
      (do if (← f) > 0 then pure true
          else if inclusive then do pure ((← f) == 0) else pure false : Run Bool) =
        .ok (decide (Inside step inclusive e (cur + step))) := by
    rintro f gap rfl hpos hzero
    rw [ok_bind]
    unfold Inside
    split
    · next h => exact pure_eq_decide (by simp; omega)
    · cases inclusive with
      | true | false => exact pure_eq_decide (by simp; omega)
  unfold hasNext
  dsimp only
  by_cases hov : Overflows step cur e
  · rw [if_pos hov]
    obtain ⟨hup, rfl, rfl⟩ | ⟨hdown, rfl, rfl⟩ := hov
    · rw [if_pos hup, if_neg (by omega), sub, fit, if_neg (by decide)]
      rfl
    · rw [if_neg (by omega), if_neg (by omega), sub, fit, if_neg (by decide)]
      rfl
  · rw [if_neg hov]
    unfold Overflows at hov
    have hside := hin
    unfold Inside at hside
    by_cases hup : 0 < step
    · rw [if_pos hup]
      split
      · rw [add_bind (by unfold Fits; omega)]
        exact pure_eq_decide (inBound_iff hs _ _)
      · rw [sub_bind (by unfold Fits; omega)]
        exact hgap (sub_ok (by unfold Fits; omega)) (by omega) (by omega)
    · rw [if_neg hup]
      split
      · rw [add_bind (by unfold Fits; omega)]
        exact pure_eq_decide (inBound_iff hs _ _)
      · rw [sub_bind (by unfold Fits; omega)]
        exact hgap (add_ok (by unfold Fits; omega)) (by omega) (by omega)

/-! ## Iterating -/

section
variable {s e step : Int} {inclusive : Bool} {r : Range}

/-- A value of the sequence is between the start and the end. -/
theorem fits_of_inside (hfs : Fits s) (hfe : Fits e) (hs : step ≠ 0) {k : Nat}
    (hin : Inside step inclusive e (s + k * step)) : Fits (s + k * step) := by
  unfold Fits at *
  unfold Inside at hin
  have hk := steps_side hs k
  omega

/-- The loop that `iter` enters. -/
def loopOf (r : Range) (e cur : Int) : Point :=
  if r.step = 1 then if r.inclusive then .inclusiveLoop cur e else .exclusiveLoop cur e
  else .stepLoop cur e

/-- Where the loop of `iter` faults. -/
def Bad (r : Range) (e cur : Int) : Prop := r.step ≠ 1 ∧ Overflows r.step cur e

theorem inside_one_inclusive (v) : Inside 1 true e v ↔ v ≤ e := by
  unfold Inside
  simp only [true_and]
  omega

theorem inside_one_exclusive (v) : Inside 1 false e v ↔ v < e := by
  unfold Inside
  simp

variable (hstart : r.start = some s) (hstop : r.stop = some e) (hs : r.step ≠ 0)

include hstart hstop hs in
theorem resume_enter : r.resume .enter =
      if Inside r.step r.inclusive e s then .ok (some s, loopOf r e s)
      else .ok (none, .finished) := by
  rw [resume, if_neg hs, hstart, hstop]
  simp only [inBound_iff hs]
  unfold loopOf
  by_cases h1 : r.step = 1
  · rw [if_pos h1, if_pos h1, h1]
    cases r.inclusive with
    | true => simp only [if_true, inside_one_inclusive]
    | false => simp only [Bool.false_eq_true, if_false, inside_one_exclusive]
  · rw [if_neg h1, if_neg h1]

include hs in
/-- The loop yields the next value while it is inside the bound. -/
theorem resume_loopOf (hstep : Fits r.step) (he : Fits e) {cur} (hcur : Fits cur)
    (hin : Inside r.step r.inclusive e cur) (hbad : ¬ Bad r e cur)
    (hnextFits : Inside r.step r.inclusive e (cur + r.step) → Fits (cur + r.step)) :
    r.resume (loopOf r e cur) = if Inside r.step r.inclusive e (cur + r.step) then
        .ok (some (cur + r.step), loopOf r e (cur + r.step))
      else .ok (none, .finished) := by
  unfold loopOf
  by_cases h1 : r.step = 1
  · simp only [if_pos h1]
    unfold Fits at hcur he
    rw [h1] at hin ⊢
    cases hi : r.inclusive with
    | true =>
      rw [hi, inside_one_inclusive] at hin
      simp only [if_true, inside_one_inclusive, resume]
      split
      · next h =>
        rw [add_bind (by unfold Fits; omega), if_pos (by omega)]
        rfl
      · next h => rw [if_neg (by omega)]
    | false =>
      rw [hi, inside_one_exclusive] at hin
      simp only [Bool.false_eq_true, if_false, inside_one_exclusive, resume]
      rw [add_bind (by unfold Fits; omega)]
      split
      · rfl
      · rfl
  · have hno : ¬ Overflows r.step cur e := fun h => hbad ⟨h1, h⟩
    simp only [if_neg h1]
    rw [resume, hasNext_eq hs hstep hcur he hin, if_neg hno, ok_bind]
    by_cases hnext : Inside r.step r.inclusive e (cur + r.step)
    · rw [decide_eq_true hnext, if_pos rfl, if_pos hnext, add_bind (hnextFits hnext)]
      rfl
    · rw [decide_eq_false hnext, if_neg Bool.false_ne_true, if_neg hnext]
      rfl

/-- Where `iter` is suspended before it yields value `k`. -/
def pointOf (r : Range) (s e : Int) : Nat → Point
  | 0 => .enter
  | k + 1 => loopOf r e (s + k * r.step)

variable (hfits : Fits s ∧ Fits e ∧ Fits r.step)

include hstart hstop hs hfits in
/-- The values in turn, and then the end. -/
theorem resume_pointOf {k} (hk : k ≤ count s e r.step r.inclusive)
    (hbad : ∀ j : Nat, j < k → ¬ Bad r e (s + j * r.step)) : r.resume (pointOf r s e k) =
      if k < count s e r.step r.inclusive then
        .ok (some (s + k * r.step), pointOf r s e (k + 1))
      else .ok (none, .finished) := by
  simp only [lt_count_iff hs]
  cases k with
  | zero => simpa [pointOf] using resume_enter hstart hstop hs
  | succ k =>
    have hnow := (lt_count_iff hs k).mp hk
    have hcur := fits_of_inside hfits.1 hfits.2.1 hs hnow
    have heq : s + k * r.step + r.step = s + ((k + 1 : Nat) : Int) * r.step := by
      push_cast
      ring
    have hloop := resume_loopOf hs hfits.2.2 hfits.2.1 hcur hnow (hbad k (by omega))
    rw [heq] at hloop
    exact hloop (fits_of_inside hfits.1 hfits.2.1 hs)

include hstart hstop hs hfits in
/-- The list that iterating gives, when no value of the sequence is bad. -/
theorem collect_enter
    (hbad : ∀ k : Nat, k < count s e r.step r.inclusive → ¬ Bad r e (s + k * r.step)) :
    ∃ fuel, collect r.resume fuel .enter =
      some (.ok (values s r.step (count s e r.step r.inclusive))) := by
  have hlast := resume_pointOf hstart hstop hs hfits le_rfl hbad
  rw [if_neg (Nat.lt_irrefl _)] at hlast
  refine ⟨count s e r.step r.inclusive + 1, ?_⟩
  have hrun := @collect_yields _ _ _ r.resume 1 (pointOf r s e) (fun k => s + k * r.step) _
    fun k hk => by
      rw [resume_pointOf hstart hstop hs hfits hk.le
        fun j hj => hbad j (hj.trans hk), if_pos hk]
  rw [collect_end hlast] at hrun
  rw [← pointOf, hrun]
  simp [Except.map, values]

include hstart hstop hs hfits in
/-- The first bad value of the sequence stops the iteration. -/
theorem collect_enter_fault {k} (hk : k < count s e r.step r.inclusive)
    (hbad : Bad r e (s + k * r.step)) (hfirst : ∀ j : Nat, j < k → ¬ Bad r e (s + j * r.step)) :
    ∃ fuel, collect r.resume fuel .enter = some (.error (.int (.overflow (.bin .sub)))) := by
  have hnow := (lt_count_iff hs k).mp hk
  have hfault : r.resume (pointOf r s e (k + 1)) = .error (.int (.overflow (.bin .sub))) := by
    rw [pointOf, loopOf, if_neg hbad.1, resume, hasNext_eq hs hfits.2.2
      (fits_of_inside hfits.1 hfits.2.1 hs hnow) hfits.2.1 hnow, if_pos hbad.2]
    rfl
  refine ⟨k + 1 + 1, ?_⟩
  have hrun := @collect_yields _ _ _ r.resume 1 (pointOf r s e) (fun k => s + k * r.step) (k + 1)
    fun i hi => by
      rw [resume_pointOf hstart hstop hs hfits (by omega) fun j hj => hfirst j (by omega),
        if_pos (by omega)]
  rw [collect_error hfault] at hrun
  rw [← pointOf, hrun]
  rfl

/-- The ranges with a bad value: up from the smallest int to 0, or down to the smallest
    int through 0. -/
def IterOverflows (s e step : Int) : Prop :=
  (1 < step ∧ s = -2 ^ 63 ∧ e = 0) ∨ (step < 0 ∧ e = -2 ^ 63 ∧ 0 ≤ s ∧ step ∣ s)

instance (s e step : Int) : Decidable (IterOverflows s e step) :=
  inferInstanceAs (Decidable (_ ∨ _))

theorem exists_bad_iff (hs : r.step ≠ 0) (hfs : Fits s) :
    (∃ k : Nat, k < count s e r.step r.inclusive ∧ Bad r e (s + k * r.step)) ↔
      IterOverflows s e r.step := by
  unfold Fits at hfs
  constructor
  · rintro ⟨k, -, h1, hov⟩
    have hk := steps_side hs k
    rcases hov with ⟨hup, hcur, he⟩ | ⟨hdown, hcur, he⟩
    · exact .inl ⟨by omega, by omega, he⟩
    have hsk : s = r.step * -(k : Int) := by
      rw [Int.mul_neg, Int.mul_comm]
      omega
    exact .inr ⟨hdown, he, by omega, ⟨_, hsk⟩⟩
  · rintro (⟨hup, rfl, rfl⟩ | ⟨hdown, rfl, hpos, c, rfl⟩)
    · refine ⟨0, ?_, by omega, ?_⟩
      · rw [lt_count_iff hs]
        unfold Inside
        omega
      · unfold Overflows
        omega
    · have hc : c ≤ 0 := by
        by_contra hc
        have := Int.mul_neg_of_neg_of_pos hdown (by omega : 0 < c)
        omega
      have hzero : r.step * c + ((-c).toNat : Int) * r.step = 0 := by
        rw [Int.toNat_of_nonneg (by omega)]
        ring
      refine ⟨(-c).toNat, ?_, by omega, ?_⟩
      · rw [lt_count_iff hs, hzero]
        unfold Inside
        omega
      · unfold Overflows
        omega

/-! ## `len` -/

/-- What `len` computes with: the distance and the size of the step. -/
def LenFits (s e step : Int) : Prop := (e - s).natAbs < 2 ^ 63 ∧ step ≠ -2 ^ 63

instance (s e step : Int) : Decidable (LenFits s e step) := inferInstanceAs (Decidable (_ ∧ _))

/-- The distance in steps. -/
theorem divide_ok (hs : step ≠ 0) (hin : Inside step inclusive e s) (hfit : LenFits s e step)
    (hcount : Fits (count s e step inclusive)) :
    (do
      let n ← div (e - s).natAbs step.natAbs
      let rest ← mod (e - s).natAbs step.natAbs
      if rest ≠ 0 ∨ inclusive then add n 1 else pure n) =
      .ok (count s e step inclusive : Int) := by
  rw [div_bind (by omega) (by omega) (by unfold Fits; have := hfit.1; omega),
    mod_bind (by omega) (by omega)]
  rw [count, if_pos hin] at hcount ⊢
  have hrest : ((e - s).natAbs : Int) % (step.natAbs : Int) ≠ 0 ↔
      (e - s).natAbs % step.natAbs ≠ 0 := by
    rw [← Int.natCast_emod]
    omega
  simp only [hrest]
  rw [← Int.natCast_ediv]
  split
  · next h =>
    rw [if_pos h] at hcount
    exact add_ok hcount
  · rfl

include hstart hstop hs in
/-- **`len` counts exactly** when its intermediate values fit, and faults when they do not. -/
theorem len_eq (hfstep : Fits r.step) (hcount : Fits (count s e r.step r.inclusive)) :
    r.len = if Inside r.step r.inclusive e s → LenFits s e r.step then
        .ok (count s e r.step r.inclusive : Int)
      else .error (.int (.overflow (.bin .sub))) := by
  rw [len, hstart, hstop]
  simp only [inBound_iff hs, if_neg hs]
  by_cases hin : Inside r.step r.inclusive e s
  swap
  · rw [if_neg hin, if_pos (absurd · hin), count, if_neg hin]
    rfl
  simp only [hin, if_true, forall_const]
  by_cases hfit : LenFits s e r.step
  · rw [if_pos hfit, ← divide_ok hs hin hfit hcount]
    unfold LenFits at hfit
    unfold Inside at hin
    unfold Fits at hfstep
    rw [sub_bind (by unfold Fits; omega)]
    rcases Int.lt_or_lt_of_ne hs with h | h
    · have hd : ((e - s).natAbs : Int) = s - e := by omega
      have hp : (r.step.natAbs : Int) = 0 - r.step := by omega
      rw [if_pos h, if_pos h, sub_bind (by unfold Fits; omega), sub_bind (by unfold Fits; omega),
        hd, hp]
    have hneg : ¬ r.step < 0 := by omega
    have hd : ((e - s).natAbs : Int) = e - s := by omega
    have hp : (r.step.natAbs : Int) = r.step := by omega
    rw [if_neg hneg, if_neg hneg, hd, hp]
    rfl
  · rw [if_neg hfit]
    unfold LenFits at hfit
    unfold Inside at hin
    by_cases hspan : Fits (e - s)
    · rw [sub_bind hspan]
      unfold Fits at hspan
      -- The distance fits as `e - s` only: the range goes down.
      have hdown : r.step < 0 := by omega
      rw [if_pos hdown, if_pos hdown]
      by_cases hspan' : Fits (s - e)
      · rw [sub_bind hspan']
        unfold Fits at hspan'
        rw [sub, fit, if_neg (by unfold Fits; omega)]
        rfl
      · rw [sub, fit, if_neg hspan']
        rfl
    · rw [sub, fit, if_neg hspan]
      rfl

/-! ## `contains` -/

/-- A number less than two steps away from 0 is a whole number of steps only at 0 and one
    step away. -/
theorem dvd_iff_of_lt {p c} (h : c.natAbs < 2 * p.natAbs) : p ∣ c ↔ c = 0 ∨ c = p ∨ c = -p := by
  constructor
  · rintro ⟨q, rfl⟩
    have hq : q.natAbs < 2 := by
      rw [Int.natAbs_mul, Nat.mul_comm] at h
      exact Nat.lt_of_mul_lt_mul_right h
    obtain rfl | rfl | rfl : q = 0 ∨ q = 1 ∨ q = -1 := by omega
    · simp
    · simp
    · simp
  · rintro (rfl | rfl | rfl)
    · exact Int.dvd_zero p
    · exact Int.dvd_refl c
    · exact Int.dvd_neg.mpr (Int.dvd_refl p)

/-- A remainder is smaller than the step and has the sign of its operand. -/
theorem tmod_bounds (v) {p : Int} (hp : p ≠ 0) :
    (v.tmod p).natAbs < p.natAbs ∧ p ∣ v - v.tmod p := by
  refine ⟨?_, v.tdiv p, ?_⟩
  · rw [Int.natAbs_tmod]
    exact Nat.mod_lt _ (by omega)
  · have := Int.mul_tdiv_add_tmod v p
    omega

/-- **`_aligned` is exact**: the two remainders decide whether the difference is a whole
    number of steps. -/
theorem aligned_eq (hs : r.step ≠ 0) (hfstep : Fits r.step) (item) :
    r.aligned item s = .ok (decide (r.step ∣ item - s)) := by
  unfold aligned
  split
  · next h =>
    apply pure_eq_decide
    rcases h with h | h <;> simp [h]
  obtain ⟨ha, hda⟩ := tmod_bounds item hs
  obtain ⟨hb, hdb⟩ := tmod_bounds s hs
  rw [mod, if_neg hs, ok_bind, mod, if_neg hs, ok_bind]
  generalize item.tmod r.step = a at *
  generalize s.tmod r.step = b at *
  have hdvd : r.step ∣ item - s ↔ a - b = 0 ∨ a - b = r.step ∨ a - b = -r.step := by
    rw [← dvd_iff_of_lt (by omega)]
    have heq : item - s = (a - b) + ((item - a) - (s - b)) := by ring
    rw [heq]
    exact Int.dvd_add_left (Int.dvd_sub hda hdb)
  unfold Fits at hfstep
  split
  · exact pure_eq_decide (by simp; omega)
  split
  · split
    · rw [add_bind (by unfold Fits; omega)]
      exact pure_eq_decide (by simp; omega)
    · rw [add_bind (by unfold Fits; omega)]
      exact pure_eq_decide (by simp; omega)
  · split
    · split
      · rw [add_bind (by unfold Fits; omega)]
        exact pure_eq_decide (by simp; omega)
      · rw [add_bind (by unfold Fits; omega)]
        exact pure_eq_decide (by simp; omega)
    · exact pure_eq_decide (by simp; omega)

/-- A value of the sequence: on the start's side, inside the bound, whole steps away. -/
theorem mem_values_iff (hs : step ≠ 0) (item) : item ∈ values s step (count s e step inclusive) ↔
      ¬ ((0 < step ∧ item < s) ∨ (step < 0 ∧ item > s)) ∧
        Inside step inclusive e item ∧ step ∣ item - s := by
  unfold values
  rw [mem_map]
  constructor
  · rintro ⟨k, hk, rfl⟩
    rw [mem_range, lt_count_iff hs] at hk
    refine ⟨?_, hk, k, by ring⟩
    have := steps_side hs k
    omega
  · rintro ⟨hside, hin, c, hc⟩
    have hpos : 0 ≤ c := by
      by_contra hneg
      rcases Int.lt_or_lt_of_ne hs with h | h
      · have := Int.mul_pos_of_neg_of_neg h (by omega : c < 0)
        omega
      · have := Int.mul_neg_of_pos_of_neg h (by omega : c < 0)
        omega
    have hitem : item = s + (c.toNat : Int) * step := by
      rw [Int.toNat_of_nonneg hpos, Int.mul_comm]
      omega
    refine ⟨c.toNat, ?_, hitem.symm⟩
    rw [mem_range, lt_count_iff hs, ← hitem]
    exact hin

include hstart hstop hs in
/-- **`contains` is exact and never faults.** -/
theorem contains_eq (hfstep : Fits r.step) (item) : r.contains item =
      .ok (decide (item ∈ values s r.step (count s e r.step r.inclusive))) := by
  have hiff := @mem_values_iff s e r.step r.inclusive hs item
  have hin : r.inBound item e = true ↔ Inside r.step r.inclusive e item := inBound_iff hs item e
  have hfalse : item ∉ values s r.step (count s e r.step r.inclusive) → (pure false : Run Bool) =
      .ok (decide (item ∈ values s r.step (count s e r.step r.inclusive))) := by
    intro h
    rw [decide_eq_false h]
    rfl
  rw [contains, if_neg hs, hstart, hstop]
  simp only [Option.any_some]
  split
  · next h =>
    apply hfalse
    rw [hiff]
    simp at h
    omega
  · next h =>
    have hside : ¬ ((0 < r.step ∧ item < s) ∨ (r.step < 0 ∧ item > s)) := by
      simp at h
      omega
    split
    · next hout =>
      apply hfalse
      rw [hiff, ← hin]
      simp at hout
      simp [hout]
    · next hnotout =>
      have hinside : Inside r.step r.inclusive e item := hin.mp (by simpa using hnotout)
      rw [aligned_eq hs hfstep]
      congr 1
      rw [decide_eq_decide, hiff]
      constructor
      · intro hdvd
        exact ⟨hside, hinside, hdvd⟩
      · intro hmem
        exact hmem.2.2

end

/-! ## The whole range -/

/-- What a range from `s` to `e` should do: for the number `n` of values inside the bound,
    iterating ends and yields the first `n` values, `len` returns `n` if it is an int, and
    `contains` finds exactly the yielded values. -/
def Correct (s e step : Int64) (inclusive : Bool) : Prop :=
  let r : Range := ⟨some s.toInt, some e.toInt, step.toInt, inclusive⟩
  ∃ n : Nat,
    (∀ k : Nat, k < n ↔ Inside step.toInt inclusive e.toInt (s.toInt + k * step.toInt)) ∧
    (∃ fuel, collect r.resume fuel .enter = some (.ok (values s.toInt step.toInt n))) ∧
    (Fits n → r.len = .ok (n : Int)) ∧
    ∀ x : Int64, r.contains x.toInt = .ok (decide (x.toInt ∈ values s.toInt step.toInt n))

/-- **For which ranges this holds.**  Iterating fails where `_has_next` subtracts the
    smallest int from 0, and `len` where the distance or the size of the step does not
    fit although the count does. -/
theorem range_correct_iff (s e step : Int64) (inclusive : Bool) (hs : step ≠ 0) :
    Correct s e step inclusive ↔
      ¬ IterOverflows s.toInt e.toInt step.toInt ∧
        (Inside step.toInt inclusive e.toInt s.toInt →
          Fits (count s.toInt e.toInt step.toInt inclusive) →
            LenFits s.toInt e.toInt step.toInt) := by
  have hstep : step.toInt ≠ 0 := fun h => hs (toInt_eq_zero_iff.mp h)
  have hfits : Fits s.toInt ∧ Fits e.toInt ∧ Fits step.toInt :=
    ⟨fits_toInt s, fits_toInt e, fits_toInt step⟩
  let r : Range := ⟨some s.toInt, some e.toInt, step.toInt, inclusive⟩
  have hcount := fun k : Nat => @lt_count_iff s.toInt e.toInt step.toInt inclusive hstep k
  have hbad := @exists_bad_iff s.toInt e.toInt r hstep hfits.1
  constructor
  · rintro ⟨n, hn, ⟨fuel, hiter⟩, hlen, -⟩
    have hncount : n = count s.toInt e.toInt step.toInt inclusive := by
      have hlt : ∀ k, k < n ↔ k < count s.toInt e.toInt step.toInt inclusive := by
        intro k
        rw [hn, hcount]
      have h₁ := hlt n
      have h2 := hlt (count s.toInt e.toInt step.toInt inclusive)
      omega
    subst hncount
    refine ⟨fun hov => ?_, fun hin hfitcount => ?_⟩
    · have hex := hbad.mpr hov
      classical
      obtain ⟨hk, hbadk⟩ := Nat.find_spec hex
      obtain ⟨fuel', hfault⟩ := @collect_enter_fault s.toInt e.toInt r rfl rfl hstep hfits _ hk hbadk
        fun j hj hb => Nat.find_min hex hj ⟨by omega, hb⟩
      have := collect_unique hiter hfault
      cases this
    · by_contra hl
      have hok := hlen hfitcount
      rw [@len_eq s.toInt e.toInt r rfl rfl hstep hfits.2.2 hfitcount, if_neg fun h => hl (h hin)] at hok
      cases hok
  · rintro ⟨hiter, hlen⟩
    refine ⟨_, hcount, ?_, fun hfitcount => ?_, fun x => ?_⟩
    · apply @collect_enter s.toInt e.toInt r rfl rfl hstep hfits
      intro k hk hb
      exact hiter (hbad.mp ⟨k, hk, hb⟩)
    · rw [@len_eq s.toInt e.toInt r rfl rfl hstep hfits.2.2 hfitcount,
        if_pos fun hin => hlen hin hfitcount]
    · exact @contains_eq s.toInt e.toInt r rfl rfl hstep hfits.2.2 x.toInt

theorem range_correct_down : Correct 7 (-5) (-3) true :=
  (range_correct_iff 7 (-5) (-3) true (by decide)).mpr (by decide)

/-- From the smallest int up to 0, the step to the second value subtracts the smallest int
    from 0; from the smallest to the largest int by 4, the count is `2 ^ 62` and `len`
    faults on the distance. -/
theorem range_not_correct :
    (resume ⟨some (-2 ^ 63), some 0, 2, false⟩ .enter = .ok (some (-2 ^ 63), .stepLoop (-2 ^ 63) 0) ∧
      resume ⟨some (-2 ^ 63), some 0, 2, false⟩ (.stepLoop (-2 ^ 63) 0) =
        .error (.int (.overflow (.bin .sub)))) ∧
    (count (-2 ^ 63) (2 ^ 63 - 1) 4 false = 2 ^ 62 ∧
      len ⟨some (-2 ^ 63), some (2 ^ 63 - 1), 4, false⟩ = .error (.int (.overflow (.bin .sub)))) ∧
    ¬ Correct (-2 ^ 63) 0 2 false := by
  refine ⟨⟨by decide, by decide⟩, ⟨by decide, by decide⟩, ?_⟩
  rintro ⟨n, -, ⟨fuel, hiter⟩, -⟩
  have hfault : collect (resume ⟨some (-2 ^ 63 : Int64).toInt, some (0 : Int64).toInt,
      (2 : Int64).toInt, false⟩) 2 .enter = some (.error (.int (.overflow (.bin .sub)))) := by
    decide +kernel
  have := collect_unique hiter hfault
  cases this

end Range

end ChezziLang.Stdlib
