/-
  `std.datetime`: ISO 8601 text of a `DateTime`, written and read.

  Reading goes in stages: the date and the time are cut apart, the time loses its zone and its
  fraction, every field is read from digits, and the calendar of `std.datetime` puts them
  together.

  Proved:
  * `parseIso8601_total`: no text makes `parse_iso8601` fault.
  * `parse_toIso8601`: the text of a `DateTime` of an epoch is read back.
  * `iso8601`: both.
-/
import ChezziLang.Stdlib.Csv
import ChezziLang.Stdlib.Datetime
import ChezziLang.Stdlib.Text

namespace ChezziLang.Stdlib.Datetime

open List

open Lib.I64

/-! ## Writing -/

/-- `pad_year`. -/
def padYear (y : Int) : Run Text := do
  if y < 0 then
    return '-' :: padLeft (showInt (← neg y)) 4 '0'
  else
    return padLeft (showInt y) 4 '0'

/-- `to_date_string`. -/
def toDateString (dt : DateTime) : Run Text := do
  let yr ← padYear dt.year
  let mo := padLeft (showInt dt.month) 2 '0'
  let dy := padLeft (showInt dt.day) 2 '0'
  return yr ++ ['-'] ++ mo ++ ['-'] ++ dy

/-- `to_time_string`. -/
def toTimeString (dt : DateTime) : Text :=
  let hh := padLeft (showInt dt.hour) 2 '0'
  let mm := padLeft (showInt dt.minute) 2 '0'
  let ss := padLeft (showInt dt.second) 2 '0'
  hh ++ [':'] ++ mm ++ [':'] ++ ss

/-- `to_iso8601`. -/
def toIso8601 (dt : DateTime) : Run Text := do
  let frac := if dt.milli ≠ 0 then '.' :: padLeft (showInt dt.milli) 3 '0' else []
  return (← toDateString dt) ++ ['T'] ++ toTimeString dt ++ frac ++ ['Z']

/-! ## Reading -/

/-- `field2`. -/
def field2 (x : Text) : Fallible Int :=
  if x.length ≠ 2 ∨ !allDigits x then throw (quoted "invalid 2-digit field '" x "'") else toUint x

/-- Step 1: the date, and the time if there is one. -/
def splitTime (input : Text) : Fallible (Text × Option Text) :=
  let parts := input.splitOn 'T'
  let parts := if parts.length = 1 then input.splitOn ' ' else parts
  match parts with
  | [date, time] => return (date, some time)
  | [_] => return (input, none)
  | _ => throw (quoted "malformed date/time separator in '" input "'")

/-- `dc`: the three fields of a date. -/
def dateParts (datePart dp : Text) : Fallible (Text × Text × Text) :=
  match dp.splitOn '-' with
  | [y, m, d] => return (y, m, d)
  | [_] =>
    if dp.length = 8 ∧ allDigits dp then return (slice dp 0 4, slice dp 4 6, slice dp 6 8)
    else throw (quoted "date must be YYYY-MM-DD or YYYYMMDD, got '" datePart "'")
  | _ => throw (quoted "date must be YYYY-MM-DD or YYYYMMDD, got '" datePart "'")

/-- The year from its digits. -/
def yearOf (negative : Bool) (x : Text) : Fallible Int := do
  if !allDigits x then throw (quoted "invalid year '" x "'")
  else if x.length < 4 then throw (quoted "year must be 4+ digits, got '" x "'")
  else if x.length > 9 then throw (quoted "year out of range '" x "'")
  else do
    let y ← toUint x
    if negative then neg y else pure y

/-- Step 2: year, month and day. -/
def dateFields (datePart : Text) : Fallible (Int × Int × Int) := do
  let negative := datePart.head? = some '-'
  let dp := if negative then datePart.drop 1 else datePart
  let (y, m, d) ← dateParts datePart dp
  let y ← yearOf negative y
  let m ← field2 m
  let d ← field2 d
  return (y, m, d)

/-- `oc`: the two fields of an offset. -/
def offsetParts (otxt : Text) : Fallible (Text × Text) :=
  match otxt.splitOn ':' with
  | [h, m] => return (h, m)
  | [_] =>
    if otxt.length = 4 ∧ allDigits otxt then return (slice otxt 0 2, slice otxt 2 4)
    else throw "offset must be +HH:MM / +HHMM (or the '-' forms)"
  | _ => throw "offset must be +HH:MM / +HHMM (or the '-' forms)"

/-- The offset in seconds. -/
def offset (sign : Int) (otxt : Text) : Fallible Int := do
  let (h, m) ← offsetParts otxt
  let oh ← field2 h
  let om ← field2 m
  if oh > 23 ∨ om > 59 then throw "offset field out of range"
  else mul sign (← add (← mul oh 3600) (← mul om 60))

/-- Step 3a: the time without its zone, and the offset. -/
def zone (tp : Text) : Fallible (Text × Int) := do
  if tp.getLast? = some 'Z' then
    return (slice tp 0 (tp.length - 1), 0)
  else
    let plus := Csv.indexOf tp ['+']
    let pi := if plus < 0 then Csv.indexOf tp ['-'] else plus
    let sign := if plus < 0 then -1 else 1
    if pi ≥ 0 then
      let off ← offset sign (tp.drop (pi + 1).toNat)
      return (slice tp 0 pi.toNat, off)
    else
      return (tp, 0)

/-- Step 3b: the time without its fraction, and the milliseconds. -/
def fraction (tp : Text) : Fallible (Text × Int) :=
  match tp.splitOn '.' with
  | [t, f] =>
    if !allDigits f then throw "invalid fractional seconds"
    else do
      let milli ← toUint (slice (f ++ ['0', '0']) 0 3)
      return (t, milli)
  | [_] => return (tp, 0)
  | _ => throw "malformed fractional seconds"

/-- `tc`: the three fields of a time. -/
def clockParts (timePart tp : Text) : Fallible (Text × Text × Text) :=
  match tp.splitOn ':' with
  | [_] =>
    if tp.length = 6 ∧ allDigits tp then return (slice tp 0 2, slice tp 2 4, slice tp 4 6)
    else if tp.length = 4 ∧ allDigits tp then return (slice tp 0 2, slice tp 2 4, ['0', '0'])
    else throw (quoted "time must be HH:MM[:SS] or HHMM[SS], got '" timePart "'")
  | [h, m] => return (h, m, ['0', '0'])
  | [h, m, s] => return (h, m, s)
  | _ => throw (quoted "time must be HH:MM[:SS] or HHMM[SS], got '" timePart "'")

/-- A time of day with its milliseconds and offset. -/
structure Clock where
  hh : Int
  mm : Int
  ss : Int
  milli : Int
  off : Int

/-- Step 3. -/
def timeFields : Option Text → Fallible Clock
  | none => return ⟨0, 0, 0, 0, 0⟩
  | some timePart => do
    let (tp, off) ← zone timePart
    let (tp, milli) ← fraction tp
    let (h, m, s) ← clockParts timePart tp
    let hh ← field2 h
    let mm ← field2 m
    let ss ← field2 s
    return ⟨hh, mm, ss, milli, off⟩

/-- The message of a number out of its range. -/
def outside (name : String) (n : Int) : String := name ++ " out of range: " ++ toString n

/-- Step 5: the moment, in UTC. -/
def assemble (y m d : Int) (c : Clock) : Fallible DateTime := do
  let epoch ← sub (← toEpoch ⟨y, m, d, c.hh, c.mm, c.ss, 0, 0⟩) c.off
  let out ← (fromEpoch epoch : Run DateTime)
  return { out with milli := c.milli }

/-- Steps 4 and 5. -/
def validate (y m d : Int) (c : Clock) : Fallible DateTime := do
  if m < 1 ∨ m > 12 then throw (outside "month" m)
  else if d < 1 then throw (outside "day" d)
  else do
    let days ← daysInMonth y m
    if d > days then throw (outside "day" d)
    else if c.hh > 23 then throw (outside "hour" c.hh)
    else if c.mm > 59 then throw (outside "minute" c.mm)
    else if c.ss > 59 then throw (outside "second" c.ss)
    else assemble y m d c

def parseIso8601 (input : Text) : Fallible DateTime := do
  let (datePart, timePart) ← splitTime input
  let (y, m, d) ← dateFields datePart
  let c ← timeFields timePart
  validate y m d c

/-! ## The moment -/

theorem number_bounds {y m d} (hdate : ValidDate y m d) (hyear : -1000000000 < y ∧ y < 1000000000) :
    -400000000000 ≤ number y m d ∧ number y m d ≤ 400000000000 := by
  obtain ⟨_, _, _, hday⟩ := hdate
  have := (monthDays_bounds y m).2
  unfold number yearDays
  omega

theorem toEpoch_valid {y m d hh mm ss} (hdate : ValidDate y m d)
    (hyear : -1000000000 < y ∧ y < 1000000000) (htime : ValidTime hh mm ss) :
    toEpoch ⟨y, m, d, hh, mm, ss, 0, 0⟩ =
      .ok (number y m d * 86400 + (hh * 3600 + mm * 60 + ss)) := by
  obtain ⟨hh1, hm1, hs1⟩ := htime
  have hbound := number_bounds hdate hyear
  have hepoch := @toEpoch_eq (number y m d) (hh * 3600 + mm * 60 + ss) 0 (by omega)
    (by unfold Fits; omega)
  have hday : day (number y m d) = ⟨y, m, d, hdate⟩ := day_number ⟨y, m, d, hdate⟩
  rw [hday, show (hh * 3600 + mm * 60 + ss) / 3600 = hh by omega,
    show (hh * 3600 + mm * 60 + ss) % 3600 / 60 = mm by omega,
    show (hh * 3600 + mm * 60 + ss) % 60 = ss by omega] at hepoch
  exact hepoch

theorem fromEpoch_total {e} (he : Fits e) : ∃ dt, fromEpoch e = .ok dt := by
  have hsplit : e / 86400 * 86400 + e % 86400 = e := by omega
  have hdate := @fromEpoch_eq (e / 86400) (e % 86400) (by omega) (by rw [hsplit]; exact he)
  rw [hsplit] at hdate
  exact ⟨_, hdate⟩

/-! ## No text makes `parse_iso8601` fault -/

theorem toUint_digits {x} (hx : allDigits x = true) (hlen : x.length ≤ 9) :
    ∃ n : Nat, toUint x = .ok (n : Int) ∧ n < 10 ^ x.length := by
  have hdigits := (allDigits_iff.mp hx).2
  have hvalue := value_lt hdigits
  have hpow : 10 ^ x.length ≤ 10 ^ 9 := Nat.pow_le_pow_right (by decide) hlen
  exact ⟨value x, toUint_eq hdigits (by omega), hvalue⟩

/-- A check that ends with an error. -/
theorem Meets.guard {α P c e} [Decidable c] {r : Fallible α} (h : ¬ c → Meets r P) :
    Meets (if c then throw e else r) P :=
  Meets.ite (fun _ => Meets.throw e) h

theorem field2_meets (x) : Meets (field2 x) fun n => 0 ≤ n ∧ n ≤ 99 := by
  refine Meets.guard fun h => ?_
  obtain ⟨hlen, hdigits⟩ : x.length = 2 ∧ allDigits x = true := by simpa using h
  obtain ⟨n, hread, hn⟩ := toUint_digits hdigits (by omega)
  rw [hlen] at hn
  exact Meets.lift hread (by omega)

theorem splitTime_meets (input) : Meets (splitTime input) fun _ => True := by
  unfold splitTime
  dsimp only
  split
  · exact Meets.pure trivial
  · exact Meets.pure trivial
  · exact Meets.throw _

theorem dateParts_meets (datePart dp) : Meets (dateParts datePart dp) fun _ => True := by
  unfold dateParts
  split
  · exact Meets.pure trivial
  · exact Meets.ite (fun _ => Meets.pure trivial) fun _ => Meets.throw _
  · exact Meets.throw _

theorem yearOf_meets (negative x) :
    Meets (yearOf negative x) fun y => -1000000000 < y ∧ y < 1000000000 := by
  refine Meets.guard fun hdigits => ?_
  refine Meets.guard fun _ => ?_
  refine Meets.guard fun hlen => ?_
  obtain ⟨n, hread, hn⟩ := @toUint_digits x (by simpa using hdigits) (by omega)
  have hpow : 10 ^ x.length ≤ 10 ^ 9 := Nat.pow_le_pow_right (by decide) (by omega)
  rw [hread, lift_ok_bind]
  refine Meets.ite (fun _ => ?_) fun _ => Meets.pure (by omega)
  exact Meets.lift (neg_ok (fits_neg_natCast (by omega))) (by omega)

theorem dateFields_meets (datePart) :
    Meets (dateFields datePart) fun r => -1000000000 < r.1 ∧ r.1 < 1000000000 := by
  apply (dateParts_meets _ _).bind
  intro ⟨y, m, d⟩ _
  apply (yearOf_meets _ y).bind
  intro y hy
  apply (field2_meets m).bind
  intro m _
  apply (field2_meets d).bind
  intro d _
  exact Meets.pure hy

theorem offsetParts_meets (otxt) : Meets (offsetParts otxt) fun _ => True := by
  unfold offsetParts
  split
  · exact Meets.pure trivial
  · exact Meets.ite (fun _ => Meets.pure trivial) fun _ => Meets.throw _
  · exact Meets.throw _

theorem offset_meets {sign} (hsign : sign = 1 ∨ sign = -1) (otxt) :
    Meets (offset sign otxt) fun off => -86400 ≤ off ∧ off ≤ 86400 := by
  apply (offsetParts_meets otxt).bind
  intro ⟨h, m⟩ _
  apply (field2_meets h).bind
  intro oh hoh
  apply (field2_meets m).bind
  intro om hom
  refine Meets.guard fun hrange => ?_
  rw [mul_ok (by unfold Fits; omega), lift_ok_bind, mul_ok (by unfold Fits; omega),
    lift_ok_bind, add_ok (by unfold Fits; omega), lift_ok_bind]
  rcases hsign with rfl | rfl
  all_goals exact Meets.lift (mul_ok (by unfold Fits; omega)) (by omega)

theorem zone_meets (tp) : Meets (zone tp) fun r => -86400 ≤ r.2 ∧ r.2 ≤ 86400 := by
  have hzero : -86400 ≤ (0 : Int) ∧ (0 : Int) ≤ 86400 := by decide
  refine Meets.ite (fun _ => Meets.pure hzero) fun _ => ?_
  refine Meets.ite (fun _ => ?_) fun _ => Meets.pure hzero
  apply (offset_meets (by split <;> simp) _).bind
  intro off hoff
  exact Meets.pure hoff

theorem fraction_meets (tp) : Meets (fraction tp) fun _ => True := by
  unfold fraction
  split
  · next t f _ =>
    refine Meets.guard fun hf => ?_
    have hdigits : Digits (slice (f ++ ['0', '0']) 0 3) := by
      have hf : Digits f := (allDigits_iff.mp (by simpa using hf)).2
      have hall : Digits (f ++ ['0', '0']) := forall_mem_append.mpr
        ⟨hf, forall_mem_cons.mpr ⟨by decide, forall_mem_singleton.mpr (by decide)⟩⟩
      exact fun c hc => hall c (mem_of_mem_take (mem_of_mem_drop hc))
    have hlen : (slice (f ++ ['0', '0']) 0 3).length ≤ 3 := length_take_le 3 _
    have hpow : 10 ^ (slice (f ++ ['0', '0']) 0 3).length ≤ 10 ^ 3 :=
      Nat.pow_le_pow_right (by decide) hlen
    have hvalue := value_lt hdigits
    rw [toUint_eq hdigits (by omega), lift_ok_bind]
    exact Meets.pure trivial
  · exact Meets.pure trivial
  · exact Meets.throw _

theorem clockParts_meets (timePart tp) : Meets (clockParts timePart tp) fun _ => True := by
  unfold clockParts
  split
  · refine Meets.ite (fun _ => Meets.pure trivial) fun _ => ?_
    exact Meets.ite (fun _ => Meets.pure trivial) fun _ => Meets.throw _
  · exact Meets.pure trivial
  · exact Meets.pure trivial
  · exact Meets.throw _

/-- What the fields of a time can be. -/
structure Clock.Read (c : Clock) : Prop where
  hour : 0 ≤ c.hh
  minute : 0 ≤ c.mm
  second : 0 ≤ c.ss
  offset : -86400 ≤ c.off ∧ c.off ≤ 86400

theorem timeFields_meets (timePart) : Meets (timeFields timePart) Clock.Read := by
  cases timePart with
  | none => exact Meets.pure ⟨by decide, by decide, by decide, by decide⟩
  | some timePart =>
    apply (zone_meets timePart).bind
    intro ⟨tp, off⟩ hoff
    apply (fraction_meets tp).bind
    intro ⟨tp, milli⟩ _
    apply (clockParts_meets timePart tp).bind
    intro ⟨h, m, s⟩ _
    apply (field2_meets h).bind
    intro hh hhh
    apply (field2_meets m).bind
    intro mm hmm
    apply (field2_meets s).bind
    intro ss hss
    exact Meets.pure ⟨hhh.1, hmm.1, hss.1, hoff⟩

theorem validate_meets {y} (hy : -1000000000 < y ∧ y < 1000000000) (m d) {c} (hc : c.Read) :
    Meets (validate y m d c) fun _ => True := by
  refine Meets.guard fun hm => ?_
  refine Meets.guard fun hd => ?_
  rw [daysInMonth_ok (by omega) (by omega), lift_ok_bind]
  refine Meets.guard fun hdays => ?_
  refine Meets.guard fun hhh => ?_
  refine Meets.guard fun hmm => ?_
  refine Meets.guard fun hss => ?_
  obtain ⟨hhour, hminute, hsecond, hoff⟩ := hc
  have hdate : ValidDate y m d := ⟨by omega, by omega, by omega, by omega⟩
  have htime : ValidTime c.hh c.mm c.ss := ⟨by omega, by omega, by omega⟩
  have hbound := number_bounds hdate hy
  have hfits : Fits (number y m d * 86400 + (c.hh * 3600 + c.mm * 60 + c.ss) - c.off) := by
    unfold Fits
    omega
  obtain ⟨dt, hdt⟩ := fromEpoch_total hfits
  rw [assemble, toEpoch_valid hdate hy htime, lift_ok_bind, sub_ok hfits, lift_ok_bind, hdt,
    lift_ok_bind]
  exact Meets.pure trivial

theorem parseIso8601_total (input) : ∃ r, (parseIso8601 input).run = .ok r := by
  suffices h : Meets (parseIso8601 input) fun _ => True from h.total
  apply (splitTime_meets input).bind
  intro ⟨datePart, timePart⟩ _
  apply (dateFields_meets datePart).bind
  intro ⟨y, m, d⟩ hy
  apply (timeFields_meets timePart).bind
  intro c hc
  exact validate_meets hy m d hc

/-! ## The text is read back -/

variable {c : Char}

theorem not_mem_padded {n width} (hc : c.isDigit = false) : c ∉ padded n width := by
  intro hmem
  rw [padded_digits n width c hmem] at hc
  cases hc

theorem splitOn_two {a b : Text} (ha : c ∉ a) (hb : c ∉ b) : (a ++ c :: b).splitOn c = [a, b] := by
  rw [splitOn_append_cons_self_of_not_mem ha, splitOn_eq_singleton hb]

theorem splitOn_three {a b d : Text} (ha : c ∉ a) (hb : c ∉ b) (hd : c ∉ d) :
    (a ++ c :: (b ++ c :: d)).splitOn c = [a, b, d] := by
  rw [splitOn_append_cons_self_of_not_mem ha, splitOn_two hb hd]

/-- A padded number is read back. -/
theorem toUint_padded {n} (hn : n < 1000000000) (width) :
    allDigits (padded n width) = true ∧ toUint (padded n width) = .ok (n : Int) := by
  refine ⟨allDigits_iff.mpr ⟨padded_ne_nil n width, padded_digits n width⟩, ?_⟩
  rw [toUint_eq (padded_digits n width) (by rw [value_padded]; omega), value_padded]

theorem field2_padded {n} (hn : n < 100) : field2 (padded n 2) = pure (n : Int) := by
  have hlen := @length_padded n 2 2 (by decide) hn (Nat.le_refl 2)
  obtain ⟨hdigits, hread⟩ := @toUint_padded n (by omega) 2
  rw [field2, if_neg (by rw [hdigits]; simp; omega), hread]
  rfl

/-- The year as `pad_year` writes it. -/
def yearText (negative : Bool) (y : Nat) : Text :=
  if negative then '-' :: padded y 4 else padded y 4

/-- The year it stands for. -/
def signedYear (negative : Bool) (y : Nat) : Int := if negative then -(y : Int) else y

variable {negative : Bool} {y milli : Nat}

theorem padYear_signed (hy : y < 1000000000) (hneg : negative = true → 0 < y) :
    padYear (signedYear negative y) = .ok (yearText negative y) := by
  unfold padYear signedYear yearText
  cases negative with
  | true =>
    have := hneg rfl
    rw [if_pos rfl, if_pos rfl, if_pos (by omega),
      neg_ok (by rw [Int.neg_neg]; exact fits_natCast (by omega)), Int.neg_neg]
    rfl
  | false =>
    have hpos : ¬ (y : Int) < 0 := by omega
    exact if_neg hpos

theorem yearOf_padded (hy : y < 1000000000) :
    yearOf negative (padded y 4) = pure (signedYear negative y) := by
  have hlen := @length_padded y 4 9 (by decide) hy (by decide)
  obtain ⟨hdigits, hread⟩ := toUint_padded hy 4
  rw [yearOf, if_neg (by simp [hdigits]), if_neg (by omega), if_neg (by omega), hread, lift_ok_bind]
  unfold signedYear
  cases negative with
  | true =>
    rw [if_pos rfl, if_pos rfl, neg_ok (fits_neg_natCast (by omega))]
    rfl
  | false => rfl

theorem dateFields_text {m d} (hy : y < 1000000000) (hm : m < 100) (hd : d < 100) :
    dateFields (yearText negative y ++ '-' :: (padded m 2 ++ '-' :: padded d 2)) =
      pure (signedYear negative y, (m : Int), (d : Int)) := by
  have hsplit : (padded y 4 ++ '-' :: (padded m 2 ++ '-' :: padded d 2)).splitOn '-' =
      [padded y 4, padded m 2, padded d 2] :=
    splitOn_three (not_mem_padded rfl) (not_mem_padded rfl) (not_mem_padded rfl)
  have hparts : ∀ datePart, dateParts datePart
      (padded y 4 ++ '-' :: (padded m 2 ++ '-' :: padded d 2)) =
        pure (padded y 4, padded m 2, padded d 2) := by
    intro datePart
    rw [dateParts, hsplit]
  unfold dateFields yearText
  cases negative with
  | true =>
    simp only [if_true, cons_append, head?_cons, decide_true, drop_one,
      tail_cons, hparts, pure_bind, yearOf_padded hy, field2_padded hm, field2_padded hd]
  | false =>
    have hhead : (padded y 4 ++ '-' :: (padded m 2 ++ '-' :: padded d 2)).head? ≠ some '-' := by
      obtain ⟨c, x, hx⟩ := exists_cons_of_ne_nil (padded_ne_nil y 4)
      have hc : ('-' : Char) ∉ padded y 4 := not_mem_padded rfl
      rw [hx] at hc ⊢
      intro h
      rw [cons_append, head?_cons] at h
      exact hc (by rw [Option.some.inj h]; exact mem_cons_self)
    simp only [Bool.false_eq_true, if_false, hhead, decide_false, hparts, pure_bind,
      yearOf_padded hy, field2_padded hm, field2_padded hd]

/-- The time as `to_time_string` writes it. -/
def clockText (hh mm ss : Nat) : Text := padded hh 2 ++ ':' :: (padded mm 2 ++ ':' :: padded ss 2)

/-- The fraction as `to_iso8601` writes it. -/
def fractionText (milli : Nat) : Text := if milli ≠ 0 then '.' :: padded milli 3 else []

theorem not_mem_clockText {hh mm ss} (hc : c.isDigit = false) (hcolon : c ≠ ':') :
    c ∉ clockText hh mm ss := by
  simp only [clockText, mem_append, mem_cons, not_or]
  exact ⟨not_mem_padded hc, hcolon, not_mem_padded hc, hcolon, not_mem_padded hc⟩

theorem not_mem_fractionText (hc : c.isDigit = false) (hdot : c ≠ '.') :
    c ∉ fractionText milli := by
  unfold fractionText
  split
  · exact not_mem_cons_of_ne_of_not_mem hdot (not_mem_padded hc)
  · exact not_mem_nil

theorem fraction_text {tp} (htp : '.' ∉ tp) (hmilli : milli < 1000) :
    fraction (tp ++ fractionText milli) = pure (tp, (milli : Int)) := by
  unfold fraction fractionText
  split_ifs with hzero
  · have hlen := @length_padded milli 3 3 (by decide) hmilli (Nat.le_refl 3)
    obtain ⟨hdigits, hread⟩ := @toUint_padded milli (by omega) 3
    have hslice : slice (padded milli 3 ++ ['0', '0']) 0 3 = padded milli 3 := by
      rw [slice, drop_zero, take_append_of_le_length (by omega), take_of_length_le hlen.2]
    rw [splitOn_two htp (not_mem_padded rfl)]
    dsimp only
    rw [if_neg (by simp [hdigits]), hslice, hread, lift_ok_bind]
  · have hzero : milli = 0 := by omega
    subst hzero
    rw [append_nil, splitOn_eq_singleton htp]
    rfl

theorem timeFields_text {hh mm ss} (hhh : hh < 100) (hmm : mm < 100) (hss : ss < 100)
    (hmilli : milli < 1000) :
    timeFields (some (clockText hh mm ss ++ fractionText milli ++ ['Z'])) =
      pure ⟨hh, mm, ss, milli, 0⟩ := by
  have hzone : zone (clockText hh mm ss ++ fractionText milli ++ ['Z']) =
      pure (clockText hh mm ss ++ fractionText milli, 0) := by
    rw [zone, if_pos (getLast?_concat), slice, drop_zero, length_append,
      length_singleton, Nat.add_sub_cancel, take_left]
  have hclock : ∀ timePart, clockParts timePart (clockText hh mm ss) =
      pure (padded hh 2, padded mm 2, padded ss 2) := by
    intro timePart
    rw [clockParts, clockText,
      splitOn_three (not_mem_padded rfl) (not_mem_padded rfl) (not_mem_padded rfl)]
  rw [timeFields, hzone, pure_bind]
  dsimp only
  rw [fraction_text (not_mem_clockText rfl (by decide)) hmilli, pure_bind]
  rw [hclock, pure_bind]
  dsimp only
  rw [field2_padded hhh, pure_bind, field2_padded hmm, pure_bind, field2_padded hss, pure_bind]

/-- A moment is put together from its own fields. -/
theorem validate_epoch {z tod milli} (htod : 0 ≤ tod ∧ tod < 86400)
    (hfits : Fits (z * 86400 + tod)) : validate (day z).year (day z).month (day z).day
        ⟨tod / 3600, tod % 3600 / 60, tod % 60, milli, 0⟩ =
      pure ⟨(day z).year, (day z).month, (day z).day, tod / 3600, tod % 3600 / 60, tod % 60,
        weekday z, milli⟩ := by
  obtain ⟨hm1, hm2, hd1, hd2⟩ := (day z).valid
  rw [validate, if_neg (by omega), if_neg (by omega), daysInMonth_ok hm1 hm2, lift_ok_bind,
    if_neg (by omega)]
  dsimp only
  rw [if_neg (by omega), if_neg (by omega), if_neg (by omega), assemble]
  rw [toEpoch_eq 0 htod hfits, lift_ok_bind, sub_ok (by rw [Int.sub_zero]; exact hfits),
    Int.sub_zero, lift_ok_bind, fromEpoch_eq htod hfits, lift_ok_bind]

/-- The text of a moment. -/
def isoText (negative : Bool) (y m d hh mm ss milli : Nat) : Text :=
  yearText negative y ++ '-' :: (padded m 2 ++ '-' :: padded d 2) ++
    'T' :: (clockText hh mm ss ++ fractionText milli ++ ['Z'])

theorem toIso8601_eq (hy : y < 1000000000) (hneg : negative = true → 0 < y)
    (m d hh mm ss milli : Nat) (weekday) :
    toIso8601 ⟨signedYear negative y, m, d, hh, mm, ss, weekday, milli⟩ =
      .ok (isoText negative y m d hh mm ss milli) := by
  rw [toIso8601, toDateString]
  rw [padYear_signed hy hneg, ok_bind]
  have hmilli : ((milli : Int) ≠ 0) = (milli ≠ 0) := by simp
  simp only [isoText, toTimeString, clockText, fractionText, padded, pure_bind, hmilli,
    append_assoc, cons_append, nil_append]
  rfl

theorem parse_isoText {m d hh mm ss} (hy : y < 1000000000) (hm : m < 100) (hd : d < 100)
    (hhh : hh < 100) (hmm : mm < 100) (hss : ss < 100) (hmilli : milli < 1000) :
    parseIso8601 (isoText negative y m d hh mm ss milli) =
      validate (signedYear negative y) m d ⟨hh, mm, ss, milli, 0⟩ := by
  have hdate : 'T' ∉ yearText negative y ++ '-' :: (padded m 2 ++ '-' :: padded d 2) := by
    have hyear : 'T' ∉ yearText negative y := by
      unfold yearText
      split
      · exact not_mem_cons_of_ne_of_not_mem (by decide) (not_mem_padded rfl)
      · exact not_mem_padded rfl
    simp only [mem_append, mem_cons, not_or]
    exact ⟨hyear, by decide, not_mem_padded rfl, by decide, not_mem_padded rfl⟩
  have htime : 'T' ∉ clockText hh mm ss ++ fractionText milli ++ ['Z'] := by
    simp only [mem_append, mem_singleton, not_or]
    exact ⟨⟨not_mem_clockText rfl (by decide), not_mem_fractionText rfl (by decide)⟩, by decide⟩
  have hsplit : splitTime (isoText negative y m d hh mm ss milli) =
      pure (yearText negative y ++ '-' :: (padded m 2 ++ '-' :: padded d 2),
        some (clockText hh mm ss ++ fractionText milli ++ ['Z'])) := by
    rw [splitTime, isoText, splitOn_two hdate htime]
    rfl
  rw [parseIso8601, hsplit, pure_bind]
  dsimp only
  rw [dateFields_text hy hm hd, pure_bind]
  rw [timeFields_text hhh hmm hss hmilli, pure_bind]

theorem parse_toIso8601 {e} (he : Fits e) {dt} (hdt : fromEpoch e = .ok dt) {milli}
    (hmilli : 0 ≤ milli ∧ milli ≤ 999) (hyear : -1000000000 < dt.year ∧ dt.year < 1000000000) :
    ∃ t, toIso8601 { dt with milli } = .ok t ∧ parseIso8601 t = pure { dt with milli } := by
  have htod : 0 ≤ e % 86400 ∧ e % 86400 < 86400 := by omega
  have hsplit : e / 86400 * 86400 + e % 86400 = e := by omega
  rw [← hsplit] at he hdt
  generalize e / 86400 = z at he hdt
  generalize e % 86400 = tod at htod he hdt
  rw [fromEpoch_eq htod he] at hdt
  cases hdt
  dsimp only at hyear ⊢
  have hvalid := @validate_epoch z tod milli htod he
  obtain ⟨hm1, hm2, hd1, hd2⟩ := (day z).valid
  have hdays := (monthDays_bounds (day z).year (day z).month).2
  generalize (day z).year = year at *
  generalize (day z).month = month at *
  generalize (day z).day = d at *
  -- every field is the cast of a natural number, the year up to its sign
  obtain ⟨m, rfl⟩ := Int.eq_ofNat_of_zero_le (show 0 ≤ month by omega)
  obtain ⟨d, rfl⟩ := Int.eq_ofNat_of_zero_le (show 0 ≤ d by omega)
  obtain ⟨milli, rfl⟩ := Int.eq_ofNat_of_zero_le hmilli.1
  obtain ⟨tod, rfl⟩ := Int.eq_ofNat_of_zero_le htod.1
  obtain ⟨negative, y, rfl, hneg⟩ : ∃ (negative : Bool) (y : Nat), year = signedYear negative y ∧
      (negative = true → 0 < y) := by
    rcases lt_or_ge year 0 with hlt | hge
    · exact ⟨true, year.natAbs, by unfold signedYear; rw [if_pos rfl]; omega, fun _ => by omega⟩
    · exact ⟨false, year.natAbs, by unfold signedYear; rw [if_neg (by decide)]; omega, nofun⟩
  have hy : y < 1000000000 := by
    unfold signedYear at hyear
    split at hyear <;> omega
  refine ⟨_, toIso8601_eq hy hneg m d (tod / 3600) (tod % 3600 / 60) (tod % 60) milli _, ?_⟩
  rw [parse_isoText hy (by omega) (by omega) (by omega) (by omega) (by omega) (by omega)]
  exact hvalid

/-- **ISO 8601.**  Reading never faults, and reads the text of every moment back. -/
theorem iso8601 :
    (∀ input, ∃ r, (parseIso8601 input).run = .ok r) ∧
    ∀ (e : Int64) (dt : DateTime) (milli : Int), fromEpoch e.toInt = .ok dt →
      0 ≤ milli ∧ milli ≤ 999 → |dt.year| < 10 ^ 9 →
      ∃ t, toIso8601 { dt with milli } = .ok t ∧
        (parseIso8601 t).run = .ok (.ok { dt with milli }) := by
  refine ⟨parseIso8601_total, ?_⟩
  intro e dt milli hdt hmilli hyear
  obtain ⟨t, htext, hread⟩ := parse_toIso8601 (fits_toInt e) hdt hmilli (abs_lt.mp hyear)
  refine ⟨t, htext, ?_⟩
  rw [hread]
  rfl

/-- Half a second past a midnight before the year zero. -/
theorem iso8601_before_year_zero : ∃ t,
    toIso8601 ⟨-1, 12, 31, 0, 0, 0, 5, 500⟩ = .ok t ∧
      (parseIso8601 t).run = .ok (.ok ⟨-1, 12, 31, 0, 0, 0, 5, 500⟩) :=
  iso8601.2 (-62167305600) ⟨-1, 12, 31, 0, 0, 0, 5, 0⟩ 500 (by decide) (by decide) (by decide)

end ChezziLang.Stdlib.Datetime
