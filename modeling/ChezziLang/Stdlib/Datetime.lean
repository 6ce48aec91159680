/-
  `std.datetime`: the civil calendar of `datetime.chz`.

  The first part is the code, on 64-bit `int`s that fault on overflow.  The second is
  the proleptic Gregorian calendar itself: a date carries its validity, `Date.next` is
  the day after it, and `day z` is the date `z` days from 1970-01-01.

  Proved:
    * `civilFromDays_eq`: the code's date of a day is the calendar's, or it overflows
      in its first sum or its one large product;
    * `daysFromCivil_eq`: the code's number of a date is the calendar's;
    * `epoch_calendar`: every epoch is split into a valid date and time and put
      together again; numbering a date and dating the number gives the date; days one
      apart are dates one apart.
-/
import ChezziLang.Stdlib.Int
import Mathlib.Tactic.IntervalCases
import Mathlib.Tactic.Linarith

namespace ChezziLang.Stdlib.Datetime

open Lib.I64

/-! ## The code -/

/-- `fdiv`. -/
def fdiv (a b : Int) : Run Int := do
  let q ← div a b
  if (← mod a b) ≠ 0 ∧ decide (a < 0) ≠ decide (b < 0) then sub q 1 else pure q

/-- `fmod`. -/
def fmod (a b : Int) : Run Int := do
  if b = 0 then div a b
  else
    let r ← mod a b
    if r ≠ 0 ∧ decide (r < 0) ≠ decide (b < 0) then add r b else pure r

structure DateTime where
  year : Int
  month : Int
  day : Int
  hour : Int
  minute : Int
  second : Int
  weekday : Int
  milli : Int
  deriving DecidableEq, Repr

/-- `is_leap_year`: a remainder by a constant cannot fault. -/
def isLeapYear (y : Int) : Bool :=
  y.tmod 4 == 0 && (y.tmod 100 != 0 || y.tmod 400 == 0)

/-- `days_in_month`. -/
def daysInMonth (y m : Int) : Run Int :=
  if m < 1 ∨ m > 12 then
    .error (.panic ("days_in_month: month out of range: " ++ toString m))
  else if m = 2 then
    if isLeapYear y then pure 29 else pure 28
  else if m = 4 ∨ m = 6 ∨ m = 9 ∨ m = 11 then pure 30
  else pure 31

/-- `days_from_civil`. -/
def daysFromCivil (y m d : Int) : Run Int := do
  if m < 1 ∨ m > 12 then
    .error (.panic ("days_from_civil: month out of range: " ++ toString m))
  else
    -- `or` reads the month's length only for a positive day
    let outside ← (if d < 1 then pure true else do pure (d > (← daysInMonth y m)) : Run Bool)
    if outside then .error (.panic ("days_from_civil: day out of range: " ++ toString d))
    else
    let yy ← (if m ≤ 2 then sub y 1 else pure y : Run Int)
    let era ← fdiv yy 400
    let yoe ← sub yy (← mul era 400)
    let mp ← (if m ≤ 2 then add m 9 else sub m 3 : Run Int)
    let doy ← sub (← add (← div (← add (← mul 153 mp) 2) 5) d) 1
    let doe ← add (← sub (← add (← mul yoe 365) (← div yoe 4)) (← div yoe 100)) doy
    sub (← add (← mul era 146097) doe) 719468

/-- `civil_from_days`. -/
def civilFromDays (z : Int) : Run (Int × Int × Int) := do
  let zz ← add z 719468
  let era ← fdiv zz 146097
  let doe ← sub zz (← mul era 146097)
  let yoe ← div (← sub (← add (← sub doe (← div doe 1460)) (← div doe 36524))
    (← div doe 146096)) 365
  let y ← add yoe (← mul era 400)
  let doy ← sub doe (← sub (← add (← mul 365 yoe) (← div yoe 4)) (← div yoe 100))
  let mp ← div (← add (← mul 5 doy) 2) 153
  let d ← add (← sub doy (← div (← add (← mul 153 mp) 2) 5)) 1
  let m ← (if mp ≥ 10 then sub mp 9 else add mp 3 : Run Int)
  let yr ← (if m ≤ 2 then add y 1 else pure y : Run Int)
  pure (yr, m, d)

/-- `weekday_from_days`: Sunday is 0. -/
def weekdayFromDays (z : Int) : Run Int := do fmod (← add z 4) 7

/-- `from_epoch`. -/
def fromEpoch (epoch : Int) : Run DateTime := do
  let days ← fdiv epoch 86400
  let tod ← fmod epoch 86400
  let (y, m, d) ← civilFromDays days
  let hh ← div tod 3600
  let mm ← div (← mod tod 3600) 60
  let ss ← mod tod 60
  let wd ← weekdayFromDays days
  pure ⟨y, m, d, hh, mm, ss, wd, 0⟩

/-- `to_epoch`. -/
def toEpoch (dt : DateTime) : Run Int := do
  let days ← daysFromCivil dt.year dt.month dt.day
  let secs ← add (← add (← mul dt.hour 3600) (← mul dt.minute 60)) dt.second
  if days < 0 then add (← mul (← add days 1) 86400) (← sub secs 86400)
  else add (← mul days 86400) secs

/-! ## The calendar -/

/-- The proleptic Gregorian leap years. -/
def Leap (y : Int) : Prop := 4 ∣ y ∧ (¬ 100 ∣ y ∨ 400 ∣ y)

instance (y : Int) : Decidable (Leap y) := inferInstanceAs (Decidable (_ ∧ _))

/-- The length of a month, January being 1. -/
def monthDays (y m : Int) : Int :=
  if m = 2 then if Leap y then 29 else 28
  else if m = 4 ∨ m = 6 ∨ m = 9 ∨ m = 11 then 30
  else 31

structure ValidDate (y m d : Int) : Prop where
  month_pos : 1 ≤ m
  month_le : m ≤ 12
  day_pos : 1 ≤ d
  day_le : d ≤ monthDays y m

/-- A date of the calendar. -/
@[ext]
structure Date where
  year : Int
  month : Int
  day : Int
  valid : ValidDate year month day

theorem monthDays_bounds (y m) : 28 ≤ monthDays y m ∧ monthDays y m ≤ 31 := by
  unfold monthDays
  split
  · split <;> omega
  · split <;> omega

namespace Date

def epoch : Date := ⟨1970, 1, 1, by decide, by decide, by decide, by decide⟩

/-- The day after. -/
def next (t : Date) : Date :=
  if h : t.day < monthDays t.year t.month then
    ⟨t.year, t.month, t.day + 1,
      { t.valid with
        day_pos := Int.le_add_one t.valid.day_pos
        day_le := h }⟩
  else if hm : t.month < 12 then
    ⟨t.year, t.month + 1, 1,
      { month_pos := Int.le_add_one t.valid.month_pos
        month_le := hm
        day_pos := Int.le_refl 1
        day_le := by have := monthDays_bounds t.year (t.month + 1); omega }⟩
  else
    ⟨t.year + 1, 1, 1,
      { month_pos := by decide
        month_le := by decide
        day_pos := by decide
        day_le := by have := monthDays_bounds (t.year + 1) 1; omega }⟩

/-- The day before. -/
def prev (t : Date) : Date :=
  if h : 1 < t.day then
    ⟨t.year, t.month, t.day - 1,
      { t.valid with
        day_pos := by omega
        day_le := by have := t.valid.day_le; omega }⟩
  else if hm : 1 < t.month then
    ⟨t.year, t.month - 1, monthDays t.year (t.month - 1),
      { month_pos := by omega
        month_le := by have := t.valid.month_le; omega
        day_pos := by have := monthDays_bounds t.year (t.month - 1); omega
        day_le := Int.le_refl _ }⟩
  else
    ⟨t.year - 1, 12, 31,
      { month_pos := by decide
        month_le := by decide
        day_pos := by decide
        day_le := by simp [monthDays] }⟩

/-- The day after the day before. -/
theorem next_prev (t : Date) : t.prev.next = t := by
  obtain ⟨hm1, hm2, hd1, hd2⟩ := t.valid
  unfold prev
  split
  · next h =>
    rw [next, dif_pos (by dsimp only; omega)]
    ext <;> simp
  next h =>
  split
  · next hm =>
    rw [next, dif_neg (by dsimp only; omega), dif_pos (by dsimp only; omega)]
    ext
    · rfl
    · simp
    · dsimp only; omega
  · next hm =>
    rw [next, dif_neg (by simp [monthDays]), dif_neg (by simp)]
    ext
    · simp
    · dsimp only; omega
    · dsimp only; omega

end Date

/-- The date `z` days from 1970-01-01. -/
def day : Int → Date
  | .ofNat n => Date.next^[n] Date.epoch
  | .negSucc n => Date.prev^[n + 1] Date.epoch

/-- The weekday `z` days from 1970-01-01, which is a Thursday. -/
def weekday (z : Int) : Int := (4 + z) % 7

theorem day_succ (z : Int) : day (z + 1) = (day z).next := by
  cases z with
  | ofNat n => exact Function.iterate_succ_apply' Date.next n Date.epoch
  | negSucc n =>
    cases n with
    | zero => exact (Date.next_prev Date.epoch).symm
    | succ n =>
      have hz : Int.negSucc (n + 1) + 1 = Int.negSucc n := by omega
      rw [hz, day, day, Function.iterate_succ_apply' Date.prev (n + 1), Date.next_prev]

/-! ## Days counted -/

/-- Days before 1 March of the year `yy`, from 1 March of the year 0. -/
def yearDays (yy : Int) : Int := 365 * yy + yy / 4 - yy / 100 + yy / 400

/-- The number of a date, counted from 1970-01-01 over years that begin in March. -/
def number (y m d : Int) : Int :=
  yearDays (if m ≤ 2 then y - 1 else y) +
    (153 * (if m ≤ 2 then m + 9 else m - 3) + 2) / 5 + d - 1 - 719468

def Date.number (t : Date) : Int := Datetime.number t.year t.month t.day

theorem Date.number_epoch : Date.epoch.number = 0 := by decide

/-- A year that begins in March has its leap day at its end. -/
theorem yearDays_succ (yy) :
    yearDays (yy + 1) = yearDays yy + if Leap (yy + 1) then 366 else 365 := by
  unfold yearDays
  by_cases h : Leap (yy + 1)
  · rw [if_pos h]
    unfold Leap at h
    omega
  · rw [if_neg h]
    unfold Leap at h
    omega

/-- An era of 400 years has 146097 days. -/
theorem yearDays_era (yy) :
    yearDays yy = yy / 400 * 146097 + (yy % 400 * 365 + yy % 400 / 4 - yy % 400 / 100) := by
  unfold yearDays
  have hfour : yy / 4 = 100 * (yy / 400) + yy % 400 / 4 := by omega
  have hcentury : yy / 100 = 4 * (yy / 400) + yy % 400 / 100 := by omega
  omega

/-- The day after has the next number. -/
theorem Date.number_next (t : Date) : t.next.number = t.number + 1 := by
  obtain ⟨y, m, d, hm1, hm2, hd1, hd2⟩ := t
  unfold next
  split
  · next h =>
    dsimp only [Date.number, Datetime.number] at h ⊢
    omega
  next h =>
  dsimp only at h hd1 hd2 hm1 hm2
  split
  · next hm =>
    have hlast : d = monthDays y m := by omega
    dsimp only [Date.number, Datetime.number]
    by_cases hfeb : m = 2
    · -- 1 March opens the next counted year
      have hyear := yearDays_succ (y - 1)
      rw [show y - 1 + 1 = y by omega] at hyear
      simp only [monthDays, if_true] at hlast
      norm_num
      split at hyear <;> simp_all <;> omega
    · unfold monthDays at hlast
      rw [if_neg hfeb] at hlast
      interval_cases m <;> simp at hlast hfeb ⊢ <;> omega
  · next hm =>
    dsimp only at hm
    have hdec : m = 12 := by omega
    subst hdec
    have hlast : d = 31 := by
      have : monthDays y 12 = 31 := by simp [monthDays]
      omega
    dsimp only [Date.number, Datetime.number]
    norm_num
    omega

theorem number_day (z : Int) : (day z).number = z := by
  induction z using Int.induction_on with
  | zero => exact Date.number_epoch
  | succ n ih => rw [day_succ, Date.number_next, ih]
  | pred n ih =>
    have h := Date.number_next (day (-n - 1))
    rw [← day_succ, show (-n - 1 + 1 : Int) = -n by omega, ih] at h
    omega

/-! ## Dates recovered -/

/-- The year of the era, from the day of the era: `c` centuries, `q` groups of four
    years and `r` years are passed, and `doy` days of the year. -/
theorem year_of_era (c q r doy : Int) (hc : 0 ≤ c ∧ c ≤ 3) (hq : 0 ≤ q ∧ q ≤ 24)
    (hr : 0 ≤ r ∧ r ≤ 3) (hd : 0 ≤ doy ∧ doy ≤ 365) (hl : doy = 365 → r = 3 ∧ (q ≤ 23 ∨ c = 3))
    {doe} (hdoe : doe = 36524 * c + 1461 * q + 365 * r + doy) :
    (doe - doe / 1460 + doe / 36524 - doe / 146096) / 365 = 100 * c + 4 * q + r := by
  have hcentury : doe / 36524 = c ∨ doe / 36524 = 4 ∧ c = 3 := by omega
  have hlast : doe / 146096 = if doe = 146096 then 1 else 0 := by split <;> omega
  have hfour : doe / 1460 = 25 * c + q ∨ doe / 1460 = 25 * c + q + 1 := by omega
  split at hlast <;> omega

/-- The quantities the code computes for a date: its era of 400 years that begin in
    March, the year of the era, the day of the era, the month and the day of the year. -/
structure Parts (y m d era yoe doe mp doy : Int) : Prop where
  year : (if m ≤ 2 then y - 1 else y) = era * 400 + yoe
  month : (if m ≤ 2 then m + 9 else m - 3) = mp
  day : doy = (153 * mp + 2) / 5 + d - 1
  doe_eq : doe = yoe * 365 + yoe / 4 - yoe / 100 + doy
  yoe_range : 0 ≤ yoe ∧ yoe ≤ 399
  mp_range : 0 ≤ mp ∧ mp ≤ 11
  doy_range : 0 ≤ doy ∧ doy ≤ 365
  doe_range : 0 ≤ doe ∧ doe ≤ 146096
  number_eq : number y m d + 719468 = era * 146097 + doe
  yoe_eq : (doe - doe / 1460 + doe / 36524 - doe / 146096) / 365 = yoe
  mp_eq : (5 * doy + 2) / 153 = mp

/-- The day of a year that begins in March: only its last can be the 366th. -/
theorem day_of_year {y m d mp doy} (h : ValidDate y m d)
    (hmp : (if m ≤ 2 then m + 9 else m - 3) = mp) (hdoy : doy = (153 * mp + 2) / 5 + d - 1) :
    0 ≤ doy ∧ doy ≤ 365 ∧ (5 * doy + 2) / 153 = mp ∧ (doy = 365 → m = 2 ∧ Leap y) := by
  obtain ⟨hm1, hm2, hd1, hd2⟩ := h
  unfold monthDays at hd2
  have hfeb : m = 2 → d = 29 → Leap y := by
    intro hm hd
    by_contra hleap
    rw [if_pos hm, if_neg hleap] at hd2
    omega
  have hd3 : d ≤ if m = 2 then 29 else if m = 4 ∨ m = 6 ∨ m = 9 ∨ m = 11 then 30 else 31 := by
    split_ifs at hd2 ⊢ <;> omega
  have hday : 0 ≤ doy ∧ doy ≤ 365 ∧ (5 * doy + 2) / 153 = mp ∧ (doy = 365 → m = 2 ∧ d = 29) := by
    interval_cases m <;> norm_num at hmp hd3 <;> subst hmp <;> omega
  refine ⟨hday.1, hday.2.1, hday.2.2.1, fun h365 => ?_⟩
  obtain ⟨hm, hd⟩ := hday.2.2.2 h365
  exact ⟨hm, hfeb hm hd⟩

theorem parts_of_valid {y m d} (h : ValidDate y m d) :
    ∃ era yoe doe mp doy, Parts y m d era yoe doe mp doy := by
  have hm1 := h.month_pos
  have hm2 := h.month_le
  obtain ⟨yy, hyy⟩ : ∃ yy, (if m ≤ 2 then y - 1 else y) = yy := ⟨_, rfl⟩
  obtain ⟨mp, hmp⟩ : ∃ mp, (if m ≤ 2 then m + 9 else m - 3) = mp := ⟨_, rfl⟩
  obtain ⟨doy, hdoy⟩ : ∃ doy, doy = (153 * mp + 2) / 5 + d - 1 := ⟨_, rfl⟩
  obtain ⟨hdoy0, hdoy1, hmpeq, hlast⟩ := day_of_year h hmp hdoy
  obtain ⟨yoe, hyoe⟩ : ∃ yoe, yoe = yy % 400 := ⟨_, rfl⟩
  obtain ⟨doe, hdoe⟩ : ∃ doe, doe = yoe * 365 + yoe / 4 - yoe / 100 + doy := ⟨_, rfl⟩
  -- the leap day ends the year before a leap year
  have hleap : doy = 365 → yoe % 100 % 4 = 3 ∧ (yoe % 100 / 4 ≤ 23 ∨ yoe / 100 = 3) := by
    intro h365
    obtain ⟨hm, hy⟩ := hlast h365
    rw [if_pos (by omega)] at hyy
    unfold Leap at hy
    omega
  have hsplit : doe = 36524 * (yoe / 100) + 1461 * (yoe % 100 / 4) + 365 * (yoe % 100 % 4) + doy := by
    omega
  have hyear := year_of_era (yoe / 100) (yoe % 100 / 4) (yoe % 100 % 4) doy (by omega) (by omega)
    (by omega) ⟨hdoy0, hdoy1⟩ hleap hsplit
  refine ⟨yy / 400, yoe, doe, mp, doy, ?_⟩
  constructor
  · rw [hyy]; omega
  · exact hmp
  · exact hdoy
  · exact hdoe
  · omega
  · split at hmp <;> omega
  · exact ⟨hdoy0, hdoy1⟩
  · omega
  · rw [number, hyy, hmp, yearDays_era, ← hyoe, hdoe, hdoy]
    omega
  · rw [hyear]; omega
  · exact hmpeq

/-! ## The code computes the calendar -/

theorem fdiv_ok {a b} (hb : 0 < b) (ha : Fits a) : fdiv a b = .ok (a / b) := by
  have hsize := Int.natAbs_ediv_le_natAbs a b
  have hsign : a < 0 → a / b < 0 := fun h => Int.ediv_neg_of_neg_of_pos h hb
  have hquot := Int.tdiv_eq_ediv (a := a) (b := b)
  have hrem := Int.tmod_eq_emod (a := a) (b := b)
  have hdvd : b ∣ a ↔ a % b = 0 := Int.dvd_iff_emod_eq_zero
  have hnonneg := Int.emod_nonneg a (show b ≠ 0 by omega)
  have hlt := Int.emod_lt_of_pos a hb
  have hfit : ∀ n, (n = a / b ∨ n = a / b + 1 ∧ a < 0) → Fits n := by
    unfold Fits at ha ⊢
    omega
  rw [Int.sign_eq_one_of_pos hb] at hquot
  unfold fdiv div mod
  rw [if_neg (by omega), if_neg (by omega)]
  by_cases h : 0 ≤ a ∨ b ∣ a
  · rw [if_pos h] at hquot hrem
    rw [hquot, hrem, fit_ok (hfit _ (.inl (by omega))), ok_bind, ok_bind, if_neg]
    · simp [pure, Except.pure]
    rintro ⟨hr, hs⟩
    rcases h with h | h
    · simp [Int.not_lt.mpr h, Int.not_lt.mpr (Int.le_of_lt hb)] at hs
    · simp [hdvd.mp h] at hr
  · obtain ⟨hneg, hnd⟩ := not_or.mp h
    have hne : a % b ≠ 0 := fun h0 => hnd (hdvd.mpr h0)
    rw [if_neg h] at hquot hrem
    rw [hquot, hrem, fit_ok (hfit _ (.inr (by omega))), ok_bind, ok_bind, if_pos,
      sub_ok (hfit _ (.inl (by omega)))]
    · congr 1; omega
    · refine ⟨by omega, ?_⟩
      simp [show a < 0 by omega, Int.not_lt.mpr (Int.le_of_lt hb)]

theorem fmod_ok {a b} (hb : 0 < b) (hfit : Fits b) : fmod a b = .ok (a % b) := by
  have hrem := Int.tmod_eq_emod (a := a) (b := b)
  have hdvd : b ∣ a ↔ a % b = 0 := Int.dvd_iff_emod_eq_zero
  have hnonneg := Int.emod_nonneg a (show b ≠ 0 by omega)
  have hlt := Int.emod_lt_of_pos a hb
  unfold fmod mod
  rw [if_neg (by omega), if_neg (by omega), ok_bind]
  by_cases h : 0 ≤ a ∨ b ∣ a
  · rw [if_pos h] at hrem
    rw [if_neg]
    · rw [hrem]
      simp [pure, Except.pure]
    · rintro ⟨-, hs⟩
      simp [Int.not_lt.mpr (Int.le_of_lt hb), hrem, Int.not_lt.mpr hnonneg] at hs
  · rw [if_neg h] at hrem
    have hne : a % b ≠ 0 := fun h0 => h (.inr (hdvd.mpr h0))
    rw [if_pos, add_ok]
    · congr 1; omega
    · unfold Fits at *; omega
    · refine ⟨by omega, ?_⟩
      simp [show a.tmod b < 0 by omega, Int.not_lt.mpr (Int.le_of_lt hb)]

theorem isLeapYear_iff (y) : isLeapYear y = true ↔ Leap y := by
  simp only [isLeapYear, Leap, Bool.and_eq_true, Bool.or_eq_true, beq_iff_eq, bne_iff_ne,
    ne_eq, ← Int.dvd_iff_tmod_eq_zero]

theorem daysInMonth_ok {y m} (h1 : 1 ≤ m) (h2 : m ≤ 12) :
    daysInMonth y m = .ok (monthDays y m) := by
  unfold daysInMonth monthDays
  rw [if_neg (by omega)]
  split
  · simp only [isLeapYear_iff]
    split <;> rfl
  · split <;> rfl

/-- Numbers far from the ends of the 64-bit range. -/
theorem fits_of_small {n} (h : -9000000000000000000 ≤ n ∧ n ≤ 9000000000000000000) : Fits n := by
  unfold Fits
  omega

/-- **The code's date of a day is the calendar's**, where its first sum and its one
    large product fit. -/
theorem civilFromDays_eq (t : Date) (hsum : Fits (t.number + 719468))
    (hera : Fits ((t.number + 719468) / 146097 * 146097)) :
    civilFromDays t.number = .ok (t.year, t.month, t.day) := by
  obtain ⟨era, yoe, doe, mp, doy, hp⟩ := parts_of_valid t.valid
  obtain ⟨hyear, hmonth, hday, hdoe, hyoe, hmp, hdoy, hdoer, hnum, hyoeeq, hmpeq⟩ := hp
  have hzz : t.number + 719468 = era * 146097 + doe := hnum
  have hquot : (t.number + 719468) / 146097 = era := by omega
  rw [hquot] at hera
  have hrest : t.number + 719468 - era * 146097 = doe := by omega
  have hsmall : -64000000000000 ≤ era ∧ era ≤ 64000000000000 := by
    unfold Fits at hera
    omega
  have hofYear : doe - (365 * yoe + yoe / 4 - yoe / 100) = doy := by omega
  unfold civilFromDays
  rw [add_bind hsum, fdiv_ok (by decide) hsum, ok_bind, hquot, mul_bind hera,
    sub_bind (by rw [hrest]; exact fits_of_small (by omega)), hrest]
  simp (disch := first | omega | (refine fits_of_small ?_; omega)) only [↓add_bind, ↓sub_bind,
    ↓mul_bind, ↓div_bind, hyoeeq, hofYear, hmpeq]
  -- January and February are the last two months of the year counted
  have hm1 := t.valid.month_pos
  have hm2 := t.valid.month_le
  by_cases hlate : mp ≥ 10
  · have hm : t.month ≤ 2 := by split at hmonth <;> omega
    rw [if_pos hm] at hyear hmonth
    rw [if_pos hlate, sub_bind (fits_of_small (by omega)), if_pos (by omega),
      add_bind (fits_of_small (by omega))]
    simp only [pure, Except.pure, Except.ok.injEq, Prod.mk.injEq]
    omega
  · have hm : ¬ t.month ≤ 2 := by split at hmonth <;> omega
    rw [if_neg hm] at hyear hmonth
    rw [if_neg hlate, add_bind (fits_of_small (by omega)), if_neg (by omega)]
    simp only [pure, Except.pure, bind, Except.bind, Except.ok.injEq, Prod.mk.injEq]
    omega

/-- **The code's number of a date is the calendar's.** -/
theorem daysFromCivil_eq (t : Date)
    (hsmall : -200000000000000 ≤ t.number ∧ t.number ≤ 200000000000000) :
    daysFromCivil t.year t.month t.day = .ok t.number := by
  obtain ⟨hm1, hm2, hd1, hd2⟩ := t.valid
  obtain ⟨era, yoe, doe, mp, doy, hp⟩ := parts_of_valid t.valid
  obtain ⟨hyear, hmonth, hday, hdoe, hyoe, hmp, hdoy, hdoer, hnum, -, -⟩ := hp
  have hzz : t.number + 719468 = era * 146097 + doe := hnum
  have hera : -2000000000 ≤ era ∧ era ≤ 2000000000 := by omega
  have hyy : (if t.month ≤ 2 then sub t.year 1 else pure t.year) = .ok (era * 400 + yoe) := by
    split at hyear
    · next h => rw [if_pos h, sub_ok (fits_of_small (by omega)), hyear]
    · next h => rw [if_neg h, hyear]; rfl
  have hmp' : (if t.month ≤ 2 then add t.month 9 else sub t.month 3) = .ok mp := by
    split at hmonth
    · next h => rw [if_pos h, add_ok (fits_of_small (by omega)), hmonth]
    · next h => rw [if_neg h, sub_ok (fits_of_small (by omega)), hmonth]
  unfold daysFromCivil
  rw [if_neg (by omega), if_neg (by omega), daysInMonth_ok hm1 hm2, ok_bind,
    decide_eq_false (by omega)]
  simp only [pure, Except.pure] at hyy ⊢
  rw [ok_bind, if_neg Bool.false_ne_true, hyy, ok_bind,
    fdiv_ok (by decide) (fits_of_small (by omega)), ok_bind,
    show (era * 400 + yoe) / 400 = era by omega, mul_bind (fits_of_small (by omega)),
    sub_bind (fits_of_small (by omega)), show era * 400 + yoe - era * 400 = yoe by omega, hmp',
    ok_bind]
  simp (disch := first | omega | (refine fits_of_small ?_; omega)) only [↓add_bind, ↓sub_bind,
    ↓mul_bind, ↓div_bind, ← hday, ← hdoe, sub_ok]
  congr 1
  omega

/-! ## Epochs -/

/-- A time of day in range. -/
structure ValidTime (h m s : Int) : Prop where
  hour : 0 ≤ h ∧ h < 24
  minute : 0 ≤ m ∧ m < 60
  second : 0 ≤ s ∧ s < 60

/-- The days that some epoch falls on. -/
theorem day_bounds {z tod} (htod : 0 ≤ tod ∧ tod < 86400) (h : Fits (z * 86400 + tod)) :
    -106751991167301 ≤ z ∧ z ≤ 106751991167300 := by
  unfold Fits at h
  omega

theorem civilFromDays_day {z} (h : -106751991167301 ≤ z ∧ z ≤ 106751991167300) :
    civilFromDays z = .ok ((day z).year, (day z).month, (day z).day) := by
  have hcivil := civilFromDays_eq (day z)
  rw [number_day] at hcivil
  exact hcivil (fits_of_small (by omega)) (fits_of_small (by omega))

theorem daysFromCivil_day {z} (h : -106751991167301 ≤ z ∧ z ≤ 106751991167300) :
    daysFromCivil (day z).year (day z).month (day z).day = .ok z := by
  have hdays := daysFromCivil_eq (day z)
  rw [number_day] at hdays
  exact hdays (by omega)

theorem number_inj {t u : Date} (h : t.number = u.number) : t = u := by
  obtain ⟨era, yoe, doe, mp, doy, hy, hm, hday, hdoe, -, -, -, hrange, hnum, hyoe, hmp⟩ :=
    parts_of_valid t.valid
  obtain ⟨era', yoe', doe', mp', doy', hy', hm', hday', hdoe', -, -, -, hrange', hnum', hyoe', hmp'⟩ :=
    parts_of_valid u.valid
  rw [show number t.year t.month t.day = number u.year u.month u.day from h] at hnum
  obtain rfl : doe = doe' := by omega
  obtain rfl : yoe = yoe' := hyoe.symm.trans hyoe'
  obtain rfl : doy = doy' := by omega
  obtain ⟨hm1, hm2, -, -⟩ := t.valid
  obtain ⟨hn1, hn2, -, -⟩ := u.valid
  have hmonth : t.month = u.month := by
    split at hm <;> split at hm' <;> omega
  ext
  · rw [hmonth] at hy
    split at hy <;> omega
  · exact hmonth
  · omega

/-- Every date is the date of its number. -/
theorem day_number (t) : day t.number = t := number_inj (number_day t.number)

/-- Where the code dates a day at all, it dates it as the calendar does. -/
theorem civilFromDays_ok {z r} (h : civilFromDays z = .ok r) :
    r = ((day z).year, (day z).month, (day z).day) := by
  have hcivil := civilFromDays_eq (day z)
  rw [number_day] at hcivil
  by_cases hsum : Fits (z + 719468)
  · by_cases hera : Fits ((z + 719468) / 146097 * 146097)
    · rw [hcivil hsum hera] at h
      exact (Except.ok.inj h).symm
    · unfold civilFromDays at h
      rw [add_bind hsum, fdiv_ok (by decide) hsum, ok_bind, mul, fit, if_neg hera] at h
      cases h
  · unfold civilFromDays at h
    rw [add, fit, if_neg hsum] at h
    cases h

theorem fromEpoch_eq {z tod} (htod : 0 ≤ tod ∧ tod < 86400) (h : Fits (z * 86400 + tod)) :
    fromEpoch (z * 86400 + tod) =
      .ok ⟨(day z).year, (day z).month, (day z).day, tod / 3600, tod % 3600 / 60, tod % 60,
        weekday z, 0⟩ := by
  have hz := day_bounds htod h
  unfold fromEpoch weekdayFromDays
  rw [fdiv_ok (by decide) h, ok_bind, fmod_ok (by decide) (by decide), ok_bind,
    show (z * 86400 + tod) / 86400 = z by omega, show (z * 86400 + tod) % 86400 = tod by omega,
    civilFromDays_day hz, ok_bind]
  dsimp only
  rw [div_bind htod.1 (by decide) (fits_of_small (by omega)), mod_bind htod.1 (by decide),
    div_bind (by omega) (by decide) (fits_of_small (by omega)), mod_bind htod.1 (by decide),
    add_bind (fits_of_small (by omega)), fmod_ok (by decide) (by decide), ok_bind, weekday, Int.add_comm z 4]
  rfl

theorem toEpoch_eq {z tod} (wd) (htod : 0 ≤ tod ∧ tod < 86400) (h : Fits (z * 86400 + tod)) :
    toEpoch ⟨(day z).year, (day z).month, (day z).day, tod / 3600, tod % 3600 / 60, tod % 60,
      wd, 0⟩ = .ok (z * 86400 + tod) := by
  have hz := day_bounds htod h
  have hsecs : tod / 3600 * 3600 + tod % 3600 / 60 * 60 + tod % 60 = tod := by omega
  unfold toEpoch
  dsimp only
  rw [daysFromCivil_day hz, ok_bind, mul_bind (fits_of_small (by omega)),
    mul_bind (fits_of_small (by omega)), add_bind (fits_of_small (by omega)),
    add_bind (fits_of_small (by omega)), hsecs]
  unfold Fits at h
  split
  · next hneg =>
    rw [add_bind (fits_of_small (by omega)), mul_bind (by unfold Fits; omega),
      sub_bind (fits_of_small (by omega)), add_ok (by unfold Fits; omega)]
    congr 1
    omega
  · next hpos =>
    rw [mul_bind (by unfold Fits; omega), add_ok (by unfold Fits; omega)]

/-- **Epochs, dates and day numbers.**  Every epoch is split without a fault into a
    valid date and time with the right weekday, and put together again; a date some
    epoch falls on is numbered and dated back; days one apart are dates one apart. -/
theorem epoch_calendar :
    (∀ e : Int64, ∃ dt, fromEpoch e.toInt = .ok dt ∧ ValidDate dt.year dt.month dt.day ∧
      ValidTime dt.hour dt.minute dt.second ∧
      (∃ z, (dt.year, dt.month, dt.day) = ((day z).year, (day z).month, (day z).day) ∧
        dt.weekday = weekday z) ∧
      toEpoch dt = .ok e.toInt) ∧
    (∀ t : Date, ∃ z, day z = t ∧ ∀ tod, 0 ≤ tod ∧ tod < 86400 → Fits (z * 86400 + tod) →
      (daysFromCivil t.year t.month t.day >>= civilFromDays) = .ok (t.year, t.month, t.day)) ∧
    ∀ (z : Int) (r r' : Int × Int × Int), civilFromDays z = .ok r → civilFromDays (z + 1) = .ok r' →
      ∃ t : Date, r = (t.year, t.month, t.day) ∧
        r' = (t.next.year, t.next.month, t.next.day) := by
  refine ⟨?_, ?_, ?_⟩
  · intro e
    have htod : 0 ≤ e.toInt % 86400 ∧ e.toInt % 86400 < 86400 := by omega
    have he : e.toInt / 86400 * 86400 + e.toInt % 86400 = e.toInt := by omega
    have hfit : Fits (e.toInt / 86400 * 86400 + e.toInt % 86400) := by
      rw [he]
      exact fits_toInt e
    have hfrom := fromEpoch_eq htod hfit
    have hto := toEpoch_eq (weekday (e.toInt / 86400)) htod hfit
    rw [he] at hfrom hto
    refine ⟨_, hfrom, (day (e.toInt / 86400)).valid, ?_, ?_, hto⟩
    · constructor <;> dsimp only <;> omega
    · exact ⟨e.toInt / 86400, rfl, rfl⟩
  · intro t
    refine ⟨t.number, day_number t, fun tod htod hfit => ?_⟩
    have hz := day_bounds htod hfit
    have hcivil := civilFromDays_day hz
    rw [day_number] at hcivil
    rw [daysFromCivil_eq t (by omega), ok_bind, hcivil]
  · intro z r r' hr hr'
    have hnext := civilFromDays_ok hr'
    rw [day_succ] at hnext
    exact ⟨day z, civilFromDays_ok hr, hnext⟩

/-- The first second of 1970, and its day. -/
theorem epoch_calendar_1970 :
    (∃ dt, fromEpoch 0 = .ok dt ∧ dt.year = 1970 ∧ dt.weekday = 4 ∧ toEpoch dt = .ok 0) ∧
      (daysFromCivil 1970 1 1 >>= civilFromDays) = .ok (1970, 1, 1) ∧
      ∃ t : Date, (1970, 1, 1) = (t.year, t.month, t.day) ∧
        (1970, 1, 2) = (t.next.year, t.next.month, t.next.day) := by
  obtain ⟨hsplit, hback, hnext⟩ := epoch_calendar
  refine ⟨?_, ?_, hnext 0 _ _ (by decide) (by decide)⟩
  · obtain ⟨dt, hdt, -, -, -, hto⟩ := hsplit 0
    refine ⟨dt, hdt, ?_, ?_, hto⟩
    all_goals rw [show fromEpoch (0 : Int64).toInt = .ok ⟨1970, 1, 1, 0, 0, 0, 4, 0⟩ by decide] at hdt
    · rw [← Except.ok.inj hdt]
    · rw [← Except.ok.inj hdt]
  · obtain ⟨z, hz, h⟩ := hback Date.epoch
    have hzero : z = 0 := by
      rw [← number_day z, hz]
      exact Date.number_epoch
    subst hzero
    exact h 0 (by decide) (by decide)

end ChezziLang.Stdlib.Datetime
