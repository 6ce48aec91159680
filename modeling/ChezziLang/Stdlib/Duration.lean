/-
  `std.duration`: durations in milliseconds, written as `1h30m0.5s` and read back.

  The first part is the code.  The second is the notation: a sign and groups of a decimal
  magnitude and a unit.  A group is worth a rational number of milliseconds, rounded toward zero;
  the code drops the digits of a fraction after the ninth before it multiplies.

  Proved:
  * `numMs_yields`: a magnitude is read as what is left of it after nine digits, or is reported
    out of range.
  * `parse_yields`: so is the sum over the groups.
  * `parse_total`: no text makes `parse` fault.
  * `parse_exact_iff`: the sum is the exact one unless a dropped digit was needed.
  * `parse_toString`: every duration written out is read back.
-/
import ChezziLang.Stdlib.Text
import Mathlib.Algebra.Order.Floor.Semifield
import Mathlib.Data.Rat.Floor

namespace ChezziLang.Stdlib.Duration

open List

open Lib.I64

/-! ## The code -/

def i64Min : Int := -9223372036854775807 - 1

def i64Max : Int := 9223372036854775807

/-- The loop of `_trim_trailing_zeros`. -/
def trimEnd (x : Text) : Nat → Nat
  | 0 => 0
  | 1 => 1
  | e + 2 => if slice x (e + 1) (e + 2) = ['0'] then trimEnd x (e + 1) else e + 2

/-- `_trim_trailing_zeros`. -/
def trimTrailingZeros (x : Text) : Text := slice x 0 (trimEnd x x.length)

/-- `out` in `_fmt_pos` before the seconds. -/
def hoursMinutes (h m : Int) : Text :=
  let out := if h > 0 then showInt h ++ ['h'] else []
  if h > 0 ∨ m > 0 then out ++ showInt m ++ ['m'] else out

/-- `_fmt_pos`. -/
def fmtPos (ms : Int) : Run Text := do
  if ms < 1000 then
    return showInt ms ++ ['m', 's']
  else
    let total ← div ms 1000
    let rem ← mod ms 1000
    let h ← div total 3600
    let m ← div (← mod total 3600) 60
    let sec ← mod total 60
    let out := hoursMinutes h m
    if rem = 0 then
      return out ++ showInt sec ++ ['s']
    else
      let frac := trimTrailingZeros (padLeft (showInt rem) 3 '0')
      return out ++ showInt sec ++ ['.'] ++ frac ++ ['s']

/-- `Duration.to_string`. -/
def toString (ms : Int) : Run Text := do
  if ms = 0 then
    return ['0', 's']
  else if ms = i64Min then
    return "-2562047788015h12m55.808s".toList
  else if ms < 0 then
    return '-' :: (← fmtPos (← neg ms))
  else
    fmtPos ms

def outOfRange (x : Text) : String := quoted "duration out of range '" x "'"

def malformed (x : Text) : String := quoted "malformed number '" x "'"

/-- `_to_neg_checked`. -/
def toNegChecked (x : Text) : Fallible Int :=
  x.foldlM (fun n c => do
    let d := (c.toNat : Int) - 48
    if n < -922337203685477580 ∨ (n = -922337203685477580 ∧ d > 8) then throw (outOfRange x)
    else sub (← mul n 10) d) 0

/-- `whole` in `_num_ms`. -/
def wholeMs (numstr intpart : Text) (unitMs : Int) : Fallible Int :=
  if intpart = [] then return 0
  else do
    let v ← toNegChecked intpart
    if v < (← div i64Min unitMs) then throw (outOfRange numstr) else mul v unitMs

/-- `denom` in `_num_ms`. -/
def denom (fd : Text) : Run Int := fd.foldlM (fun denom _ => mul denom 10) 1

section

variable (numstr : Text)

/-- `frac_ms` in `_num_ms`. -/
def fracMs (frac : Text) (unitMs : Int) : Fallible Int :=
  if frac = [] then return 0
  else if !allDigits frac then throw (malformed numstr)
  else do
    let fd := if frac.length > 9 then slice frac 0 9 else frac
    let denom ← denom fd
    div (← mul unitMs (← toUint fd)) denom

/-- The end of `_num_ms`: the magnitude from its two parts, with the sign. -/
def signedMs (whole frac : Int) (neg : Bool) : Fallible Int := do
  if whole < (← add i64Min frac) then throw (outOfRange numstr)
  else do
    let mag ← sub whole frac
    if neg then return mag
    else if mag = i64Min then throw (outOfRange numstr)
    else Stdlib.neg mag

/-- `_num_ms` from the `n` parts the number was split into. -/
def partsMs (n : Nat) (intpart frac : Text) (unitMs : Int) (neg : Bool) :
    Fallible Int :=
  if n ≠ 2 ∧ n ≠ 1 then throw (malformed numstr)
  else if intpart = [] ∧ frac = [] then throw (malformed numstr)
  else if n = 2 ∧ frac = [] then throw (malformed numstr)
  else if intpart ≠ [] ∧ !allDigits intpart then throw (malformed numstr)
  else do
    let whole ← wholeMs numstr intpart unitMs
    let frac ← fracMs numstr frac unitMs
    signedMs numstr whole frac neg

/-- `_num_ms`. -/
def numMs (unitMs : Int) (neg : Bool) : Fallible Int := do
  let parts := numstr.splitOn '.'
  let intpart ← (index parts 0 : Run Text)
  let frac := if parts.length = 2 then parts.getD 1 [] else []
  partsMs numstr parts.length intpart frac unitMs neg

end

/-- `(c >= "0" and c <= "9") or c == "."`. -/
def isMagnitude (c : Char) : Bool := ('0' ≤ c && c ≤ '9') || c == '.'

/-- `c >= "a" and c <= "z"`. -/
def isUnit (c : Char) : Bool := 'a' ≤ c && c ≤ 'z'

/-- One group of the text from a position on: the magnitude, the unit and what follows. -/
structure Lexed where
  numstr : Text
  unit : Text
  rest : Text

/-- The two inner loops of `parse`. -/
def lex (cs : Text) : Lexed :=
  let after := cs.dropWhile isMagnitude
  ⟨cs.takeWhile isMagnitude, after.takeWhile isUnit, after.dropWhile isUnit⟩

/-- `unit_ms`. -/
def unitMs (input unit : Text) : Fallible Int :=
  if unit = ['m', 's'] then return 1
  else if unit = ['s'] then return 1000
  else if unit = ['m'] then return 60000
  else if unit = ['h'] then return 3600000
  else if unit = [] then throw (quoted "missing unit in '" input "'")
  else throw (quoted "unknown unit '" unit (quoted "' in '" input "'"))

/-- `total + part`, checked on the side of the sign. -/
def addPart (input : Text) (neg : Bool) (total part : Int) : Fallible Int := do
  if neg then
    if part < (← sub i64Min total) then throw (outOfRange input) else add total part
  else
    if part > (← sub i64Max total) then throw (outOfRange input) else add total part

theorem lex_rest_lt {cs} (h : (lex cs).numstr ≠ []) : (lex cs).rest.length < cs.length := by
  have hmag := congrArg length (@takeWhile_append_dropWhile _ isMagnitude cs)
  have hrest := (dropWhile_sublist (l := cs.dropWhile isMagnitude) isUnit).length_le
  have hpos : 0 < (cs.takeWhile isMagnitude).length := length_pos_iff.mpr h
  rw [length_append] at hmag
  change ((cs.dropWhile isMagnitude).dropWhile isUnit).length < cs.length
  omega

/-- The loop of `parse` over what is left of the text. -/
def parseGroups (input : Text) (neg : Bool) (cs : Text) (total : Int) : Fallible Int :=
  if cs = [] then return total
  else if _h : (lex cs).numstr = [] then throw (quoted "expected a number in '" input "'")
  else if (lex cs).numstr.count '.' > 1 then throw (quoted "malformed number in '" input "'")
  else do
    let unit ← unitMs input (lex cs).unit
    let part ← numMs (lex cs).numstr unit neg
    let total ← addPart input neg total part
    parseGroups input neg (lex cs).rest total
termination_by cs.length
decreasing_by exact lex_rest_lt _h

def parse (input : Text) : Fallible Int :=
  if input.length = 0 then throw "empty duration string"
  else do
    let c ← (index input 0 : Run Char)
    let cs := if c = '-' ∨ c = '+' then input.drop 1 else input
    if cs = [] then throw (quoted "no digits in duration '" input "'")
    else if cs = ['0'] then return 0
    else parseGroups input (c = '-') cs 0

/-! ## Reading a magnitude -/

/-- `r` is `v` if `P` holds, and reports out of range if not. -/
structure Yields (r : Fallible Int) (P : Prop) (v : Int) : Prop where
  value : P → r = pure v
  error : ¬ P → ∃ x, r = throw (outOfRange x)

namespace Yields

variable {r : Fallible Int} {P Q : Prop} {v : Int}

theorem ok (h : P) : Yields (pure v) P v := ⟨fun _ => rfl, absurd h⟩

theorem fail {x} (h : ¬ P) : Yields (throw (outOfRange x)) P v :=
  ⟨fun hP => absurd hP h, fun _ => ⟨x, rfl⟩⟩

/-- A range check that reports only what is out of range. -/
theorem check {c x} [Decidable c] (hc : c → ¬ P) (hk : ¬ c → Yields r P v) :
    Yields (if c then throw (outOfRange x) else r) P v := by
  split
  case isTrue h => exact .fail (hc h)
  case isFalse h => exact hk h

/-- A part that is out of range leaves the whole out of range. -/
theorem bind {k w} (h : Yields r P v) (hpart : Q → P) (hk : P → Yields (k v) Q w) :
    Yields (r >>= k) Q w := by
  by_cases hP : P
  · rw [h.value hP, pure_bind]
    exact hk hP
  · obtain ⟨x, herr⟩ := h.error hP
    rw [herr, throw_bind]
    exact .fail fun hQ => hP (hpart hQ)

end Yields

variable {x w f rest : Text} {n : Nat} (input : Text) {c : Char}

theorem toNegChecked_yields (hx : Digits x) :
    Yields (toNegChecked x) (value x ≤ 2 ^ 63) (-(value x : Int)) := by
  -- the digits read so far are worth `n`, which is in range
  have hfold : ∀ (y : Text) (n : Nat), Digits y → n ≤ 2 ^ 63 → Yields (y.foldlM (fun n c => do
        let d := (c.toNat : Int) - 48
        if n < -922337203685477580 ∨ (n = -922337203685477580 ∧ d > 8) then throw (outOfRange x)
        else sub (← mul n 10) d) (-(n : Int))) (Nat.ofDigitChars 10 y n ≤ 2 ^ 63)
        (-(Nat.ofDigitChars 10 y n : Int)) := by
    intro y
    induction y with
    | nil => exact fun n _ hn => .ok hn
    | cons c y ih =>
      intro n hy hn
      obtain ⟨hc, hy⟩ := Digits.cons_iff.mp hy
      have hbounds := digit_bounds hc
      rw [Nat.ofDigitChars_cons, show '0'.toNat = 48 from rfl, foldlM_cons]
      have hle := le_ofDigitChars y (10 * n + (c.toNat - 48))
      refine Yields.bind (P := 10 * n + (c.toNat - 48) ≤ 2 ^ 63) ?_ hle.trans (ih _ hy)
      refine Yields.check (by omega) fun hcheck => ?_
      have hmul : mul (-(n : Int)) 10 = .ok (-(n : Int) * 10) := mul_ok (by unfold Fits; omega)
      have hsub : sub (-(n : Int) * 10) ((c.toNat : Int) - 48) =
          .ok (-((10 * n + (c.toNat - 48) : Nat) : Int)) :=
        fit_eq (by omega) (fits_neg_natCast (by omega))
      rw [hmul, lift_ok_bind, hsub]
      exact .ok (by omega)
  exact hfold x 0 hx (Nat.zero_le _)

theorem div_natCast {a b : Nat} (hb : 0 < b) (ha : a < 2 ^ 63) :
    div (a : Int) (b : Int) = .ok ((a / b : Nat) : Int) := by
  rw [div_ok (by omega) (by omega) (fits_natCast ha), Int.natCast_ediv]

theorem mod_natCast {a b : Nat} (hb : 0 < b) :
    mod (a : Int) (b : Int) = .ok ((a % b : Nat) : Int) := by
  rw [mod_ok (by omega) (by omega), Int.natCast_emod]

section

variable {u : Nat} (hu : 0 < u) (hsmall : u ≤ 3600000)

include hu

theorem div_i64Min : div i64Min u = .ok (-((2 ^ 63 / u : Nat) : Int)) := by
  have hmin : i64Min = -((2 ^ 63 : Nat) : Int) := by decide
  have hquot : i64Min.tdiv u = -((2 ^ 63 / u : Nat) : Int) := by
    rw [hmin, Int.neg_tdiv, Int.tdiv_eq_ediv_of_nonneg (by omega), Int.natCast_ediv]
  have hle := Nat.div_le_self (2 ^ 63) u
  rw [div, if_neg (by omega)]
  exact fit_eq hquot (fits_neg_natCast hle)

theorem wholeMs_yields (numstr) (hx : Digits x) :
    Yields (wholeMs numstr x u) (u * value x ≤ 2 ^ 63) (-((u * value x : Nat) : Int)) := by
  rw [wholeMs]
  by_cases hnil : x = []
  · rw [if_pos hnil, hnil]
    exact .ok (Nat.zero_le _)
  rw [if_neg hnil]
  have hle : value x ≤ u * value x := Nat.le_mul_of_pos_left _ hu
  refine (toNegChecked_yields hx).bind hle.trans fun hbig => ?_
  have hdiv : 2 ^ 63 / u < value x ↔ 2 ^ 63 < u * value x := by
    rw [Nat.div_lt_iff_lt_mul hu, Nat.mul_comm]
  rw [div_i64Min hu, lift_ok_bind]
  refine Yields.check (by omega) fun hcheck => ?_
  have hfits : u * value x ≤ 2 ^ 63 := by omega
  have hprod : -(value x : Int) * u = -((u * value x : Nat) : Int) := by
    push_cast
    ring
  have hmul : mul (-(value x : Int)) u = .ok (-((u * value x : Nat) : Int)) :=
    fit_eq hprod (fits_neg_natCast hfits)
  rw [hmul]
  exact .ok hfits

omit hu in
theorem denom_eq (fd) (h : fd.length ≤ 9) : denom fd = .ok ((10 ^ fd.length : Nat) : Int) := by
  have hfold : ∀ (fd : Text) (k : Nat), k + fd.length ≤ 9 →
      fd.foldlM (fun denom _ => mul denom 10) ((10 ^ k : Nat) : Int) =
        (.ok ((10 ^ (k + fd.length) : Nat) : Int) : Run Int) := by
    intro fd
    induction fd with
    | nil => exact fun k _ => rfl
    | cons c fd ih =>
      intro k hk
      rw [length_cons] at hk ⊢
      have hpow : 10 ^ (k + 1) ≤ 10 ^ 9 := Nat.pow_le_pow_right (by decide) (by omega)
      have hmul : mul ((10 ^ k : Nat) : Int) 10 = .ok ((10 ^ (k + 1) : Nat) : Int) :=
        fit_eq (Int.natCast_mul _ 10).symm (fits_natCast (by omega))
      rw [foldlM_cons, hmul, ok_bind, ih (k + 1) (by omega), Nat.add_right_comm, Nat.add_assoc]
  have hone := hfold fd 0 (by omega)
  rw [Nat.zero_add] at hone
  exact hone

include hsmall in
omit hu in
theorem mul_value_take_lt {f} (hf : Digits f) : u * value (f.take 9) < 2 ^ 63 := by
  have hvalue : value (f.take 9) < 10 ^ (f.take 9).length :=
    value_lt fun c hc => hf c (mem_of_mem_take hc)
  have hpow : 10 ^ (f.take 9).length ≤ 10 ^ 9 :=
    Nat.pow_le_pow_right (by decide) (length_take_le 9 f)
  have hbound : value (f.take 9) ≤ 10 ^ 9 := by omega
  exact (Nat.mul_le_mul hsmall hbound).trans_lt (by norm_num)

include hsmall in
omit hu in
/-- A fraction is read as what is left of it after nine digits. -/
theorem fracMs_eq (numstr) (hf : Digits f) : fracMs numstr f u =
      pure ((u * value (f.take 9) / 10 ^ (f.take 9).length : Nat) : Int) := by
  rw [fracMs]
  by_cases hnil : f = []
  · rw [if_pos hnil, hnil, take_nil, value_nil, Nat.mul_zero, Nat.zero_div]
    rfl
  have hdigits : allDigits f = true := allDigits_iff.mpr ⟨hnil, hf⟩
  have hfd : (if f.length > 9 then slice f 0 9 else f) = f.take 9 := by
    split
    · rfl
    · rw [take_of_length_le (by omega)]
  have hlen : (f.take 9).length ≤ 9 := length_take_le 9 f
  have htake : Digits (f.take 9) := fun c hc => hf c (mem_of_mem_take hc)
  have hprod := mul_value_take_lt hsmall hf
  have hmul : mul (u : Int) (value (f.take 9) : Int) = .ok ((u * value (f.take 9) : Nat) : Int) :=
    fit_eq (Int.natCast_mul _ _).symm (fits_natCast hprod)
  have hdiv := div_natCast (Nat.pow_pos (n := (f.take 9).length) (by decide : 0 < 10)) hprod
  have hread : toUint (f.take 9) = .ok (value (f.take 9) : Int) := by
    have hone := @mul_value_take_lt 1 (by decide) f hf
    rw [Nat.one_mul] at hone
    exact toUint_eq htake hone
  rw [if_neg hnil, hdigits, Bool.not_true, if_neg Bool.false_ne_true, hfd]
  dsimp only
  rw [denom_eq _ hlen, lift_ok_bind, hread, lift_ok_bind, hmul, lift_ok_bind, hdiv]
  rfl

end

/-- A number of milliseconds with a sign. -/
def signed (neg : Bool) (n : Nat) : Int := if neg then -(n : Int) else n

theorem fits_signed_iff {neg} : Fits (signed neg n) ↔ if neg then n ≤ 2 ^ 63 else n < 2 ^ 63 := by
  cases neg <;> simp only [signed, Fits, if_true, if_false, Bool.false_eq_true] <;> omega

/-- A part of a number that fits fits. -/
theorem fits_signed_of_le {neg m} (hle : m ≤ n) (h : Fits (signed neg n)) :
    Fits (signed neg m) := by
  rw [fits_signed_iff] at h ⊢
  cases neg
  · exact hle.trans_lt h
  · exact hle.trans h

theorem signedMs_yields (numstr) {w f : Nat} (hf : f < 2 ^ 63) (neg) :
    Yields (signedMs numstr (-(w : Int)) f neg) (Fits (signed neg (w + f)))
      (signed neg (w + f)) := by
  have hadd : add i64Min f = .ok (i64Min + f) := add_ok (by unfold Fits i64Min; omega)
  rw [signedMs, hadd, lift_ok_bind, fits_signed_iff]
  refine Yields.check ?_ fun hcheck => ?_
  · intro hcheck
    unfold i64Min at hcheck
    cases neg <;> simp only [if_true, if_false, Bool.false_eq_true] <;> omega
  have hbig : w + f ≤ 2 ^ 63 := by unfold i64Min at hcheck; omega
  have hsub : sub (-(w : Int)) f = .ok (-((w + f : Nat) : Int)) :=
    fit_eq (by omega) (fits_neg_natCast hbig)
  rw [hsub, lift_ok_bind]
  cases neg with
  | true => exact .ok hbig
  | false =>
    rw [if_neg Bool.false_ne_true, if_neg Bool.false_ne_true]
    refine Yields.check (by unfold i64Min; omega) fun hmin => ?_
    have hlt : w + f < 2 ^ 63 := by unfold i64Min at hmin; omega
    have hneg : Stdlib.neg (-((w + f : Nat) : Int)) = .ok ((w + f : Nat) : Int) := by
      rw [Stdlib.neg, Int.neg_neg]
      exact if_pos (fits_natCast hlt)
    rw [hneg]
    exact .ok hlt

/-! ## The notation -/

/-- A magnitude as it is written; a fraction is preceded by a dot. -/
def magnitude (w f : Text) : Text := if f = [] then w else w ++ '.' :: f

/-- What is left of a magnitude in units of `u` when its fraction is cut after nine digits. -/
def truncated (u : Nat) (w f : Text) : Nat :=
  u * value w + u * value (f.take 9) / 10 ^ (f.take 9).length

theorem dot_not_mem (hx : Digits x) : '.' ∉ x := fun h => absurd (hx _ h) (by decide)

theorem numMs_yields {u : Nat} (hu : 0 < u) (hsmall : u ≤ 3600000) (hw : Digits w) (hf : Digits f)
    (hne : w ≠ [] ∨ f ≠ []) (neg) :
    Yields (numMs (magnitude w f) u neg) (Fits (signed neg (truncated u w f)))
      (signed neg (truncated u w f)) := by
  have htail : Yields (do
      let whole ← wholeMs (magnitude w f) w u
      let frac ← fracMs (magnitude w f) f u
      signedMs (magnitude w f) whole frac neg) (Fits (signed neg (truncated u w f)))
      (signed neg (truncated u w f)) := by
    refine (wholeMs_yields hu (magnitude w f) hw).bind ?_ fun _ => ?_
    · intro h
      have hpart := fits_signed_iff.mp (fits_signed_of_le (Nat.le_add_right _ _) h)
      cases neg
      · exact hpart.le
      · exact hpart
    · rw [fracMs_eq hsmall _ hf, pure_bind]
      apply signedMs_yields
      exact (Nat.div_le_self _ _).trans_lt (mul_value_take_lt hsmall hf)
  have hdigits : ¬ (w ≠ [] ∧ (!allDigits w) = true) := by
    intro h
    rw [allDigits_iff.mpr ⟨h.1, hw⟩] at h
    exact absurd h.2 (by decide)
  have hnotboth : ¬ (w = [] ∧ f = []) := fun h => hne.elim (fun hw => hw h.1) fun hf => hf h.2
  have hparts : numMs (magnitude w f) u neg =
      partsMs (magnitude w f) (if f = [] then 1 else 2) w f u neg := by
    rw [numMs]
    by_cases hnil : f = []
    · rw [magnitude, if_pos hnil, splitOn_eq_singleton (dot_not_mem hw), if_pos hnil, hnil]
      rfl
    · rw [magnitude, if_neg hnil, splitOn_append_cons_self_of_not_mem (dot_not_mem hw),
        splitOn_eq_singleton (dot_not_mem hf), if_neg hnil]
      rfl
  rw [hparts, partsMs, if_neg (by split <;> decide), if_neg hnotboth, if_neg, if_neg hdigits]
  · exact htail
  · rintro ⟨htwo, hnil⟩
    simp [hnil] at htwo

/-- The units of the notation. -/
inductive TimeUnit
  | h
  | m
  | s
  | ms

def TimeUnit.millis : TimeUnit → Nat
  | .h => 3600000
  | .m => 60000
  | .s => 1000
  | .ms => 1

def TimeUnit.text : TimeUnit → Text
  | .h => ['h']
  | .m => ['m']
  | .s => ['s']
  | .ms => ['m', 's']

theorem TimeUnit.millis_bounds (t : TimeUnit) : 0 < t.millis ∧ t.millis ≤ 3600000 := by
  cases t <;> decide

theorem unitMs_text (t : TimeUnit) : unitMs input t.text = pure (t.millis : Int) := by
  cases t <;> rfl

/-- A magnitude with a unit. -/
structure Group where
  whole : Text
  frac : Text
  unit : TimeUnit
  whole_digits : Digits whole
  frac_digits : Digits frac
  nonempty : whole ≠ [] ∨ frac ≠ []

namespace Group

def text (g : Group) : Text := magnitude g.whole g.frac ++ g.unit.text

/-- What the code makes of a group. -/
def truncated (g : Group) : Nat := Duration.truncated g.unit.millis g.whole g.frac

end Group

/-! ## Reading a group -/

theorem isMagnitude_eq (c) : isMagnitude c = (c.isDigit || c == '.') := rfl

theorem isMagnitude_of_isDigit (h : c.isDigit = true) : isMagnitude c = true := by
  rw [isMagnitude_eq, h, Bool.true_or]

theorem isDigit_of_isMagnitude (h : isMagnitude c = true) (hdot : c ≠ '.') : c.isDigit = true := by
  rw [isMagnitude_eq, Bool.or_eq_true, beq_iff_eq] at h
  exact h.resolve_right hdot

theorem isUnit_of_isMagnitude (h : isMagnitude c = true) : isUnit c = false := by
  rw [isMagnitude_eq, Bool.or_eq_true, beq_iff_eq] at h
  rcases h with h | rfl
  · have hbounds := digit_bounds h
    have hlow : ¬ 'a' ≤ c := by
      intro hle
      have : 97 ≤ c.toNat := hle
      omega
    rw [isUnit, decide_eq_false hlow, Bool.false_and]
  · decide

theorem magnitude_isMagnitude (hw : Digits w) (hf : Digits f) :
    ∀ c ∈ magnitude w f, isMagnitude c = true := by
  have hdigits : ∀ {w}, Digits w → ∀ c ∈ w, isMagnitude c = true :=
    fun hw c hc => isMagnitude_of_isDigit (hw c hc)
  rw [magnitude]
  split
  · exact hdigits hw
  · exact forall_mem_append.mpr ⟨hdigits hw, forall_mem_cons.mpr ⟨by decide, hdigits hf⟩⟩

theorem magnitude_ne_nil (h : w ≠ [] ∨ f ≠ []) : magnitude w f ≠ [] := by
  rw [magnitude]
  split
  · next hf => exact h.resolve_right fun h => h hf
  · simp

/-- What follows a unit does not go on with a letter. -/
def Stops (rest : Text) : Prop := rest.takeWhile isUnit = []

theorem dropWhile_of_stops (h : Stops rest) : rest.dropWhile isUnit = rest := by
  have happ := @takeWhile_append_dropWhile _ isUnit rest
  rwa [h] at happ

theorem lex_text (g : Group) (h : Stops rest) :
    lex (g.text ++ rest) = ⟨magnitude g.whole g.frac, g.unit.text, rest⟩ := by
  have hmag := magnitude_isMagnitude g.whole_digits g.frac_digits
  have htake : (g.unit.text ++ rest).takeWhile isMagnitude = [] := by cases g.unit <;> rfl
  have hdrop : (g.unit.text ++ rest).dropWhile isMagnitude = g.unit.text ++ rest := by
    cases g.unit <;> rfl
  have hunit : ∀ c ∈ g.unit.text, isUnit c = true := all_eq_true.mp (by cases g.unit <;> rfl)
  rw [lex, Group.text, append_assoc, takeWhile_append_of_pos hmag,
    dropWhile_append_of_pos hmag, htake, hdrop, takeWhile_append_of_pos hunit,
    dropWhile_append_of_pos hunit, h, dropWhile_of_stops h, append_nil, append_nil]

variable (gs : List Group) (d : Spelled)

theorem stops_texts : Stops (gs.flatMap Group.text) := by
  cases gs with
  | nil => rfl
  | cons g gs =>
    obtain ⟨c, x, hcons⟩ := exists_cons_of_ne_nil (magnitude_ne_nil g.nonempty)
    have hc := magnitude_isMagnitude g.whole_digits g.frac_digits c (hcons ▸ mem_cons_self)
    rw [flatMap_cons, Group.text, hcons, Stops, cons_append, cons_append, takeWhile_cons_of_neg]
    rw [isUnit_of_isMagnitude hc]
    exact Bool.false_ne_true

theorem addPart_yields (neg) {t} (ht : Fits (signed neg t)) (m) :
    Yields (addPart input neg (signed neg t) (signed neg m)) (Fits (signed neg (t + m)))
      (signed neg (t + m)) := by
  rw [fits_signed_iff] at ht ⊢
  have hsum : signed neg t + signed neg m = signed neg (t + m) := by
    cases neg <;> simp only [signed, if_true, if_false, Bool.false_eq_true] <;> omega
  have hadd : Fits (signed neg (t + m)) →
      add (signed neg t) (signed neg m) = .ok (signed neg (t + m)) := fit_eq hsum
  rw [fits_signed_iff] at hadd
  cases neg with
  | true =>
    have hsub : sub i64Min (signed true t) = .ok (i64Min + t) :=
      fit_eq (Int.sub_neg _ _) (by unfold Fits i64Min; simp only [if_true] at ht; omega)
    have hcheck : signed true m < i64Min + t ↔ ¬ t + m ≤ 2 ^ 63 := by
      unfold signed i64Min
      simp only [if_true]
      omega
    rw [addPart, if_pos rfl, hsub, lift_ok_bind]
    refine Yields.check hcheck.mp fun h => ?_
    rw [hcheck, not_not] at h
    rw [hadd h]
    exact .ok h
  | false =>
    have hsub : sub i64Max (signed false t) = .ok (i64Max - t) :=
      sub_ok (by unfold Fits i64Max signed; simp only [Bool.false_eq_true, if_false] at ht ⊢; omega)
    have hcheck : signed false m > i64Max - t ↔ ¬ t + m < 2 ^ 63 := by
      unfold signed i64Max
      simp only [Bool.false_eq_true, if_false]
      omega
    rw [addPart, if_neg Bool.false_ne_true, hsub, lift_ok_bind]
    refine Yields.check hcheck.mp fun h => ?_
    rw [hcheck, not_not] at h
    rw [hadd h]
    exact .ok h

theorem count_dot_magnitude (hw : Digits w) (hf : Digits f) : ¬ (magnitude w f).count '.' > 1 := by
  rw [magnitude]
  split
  · rw [count_eq_zero.mpr (dot_not_mem hw)]
    decide
  · rw [count_append, count_cons_self, count_eq_zero.mpr (dot_not_mem hw),
      count_eq_zero.mpr (dot_not_mem hf)]
    decide

/-- One round of the loop of `parse` at a group. -/
theorem parseGroups_group (neg) (g : Group) (h : Stops rest) (total) :
    parseGroups input neg (g.text ++ rest) total = (do
      let part ← numMs (magnitude g.whole g.frac) g.unit.millis neg
      let total ← addPart input neg total part
      parseGroups input neg rest total) := by
  have hlex := lex_text g h
  have hnum := magnitude_ne_nil g.nonempty
  have hne : g.text ++ rest ≠ [] := by
    intro hnil
    rw [hnil] at hlex
    exact hnum (congrArg Lexed.numstr hlex).symm
  rw [parseGroups.eq_def, if_neg hne, hlex, dif_neg hnum,
    if_neg (count_dot_magnitude g.whole_digits g.frac_digits), unitMs_text, pure_bind]

theorem parseGroups_yields (neg) (gs : List Group) : ∀ t : Nat, Fits (signed neg t) →
    Yields (parseGroups input neg (gs.flatMap Group.text) (signed neg t))
      (Fits (signed neg (t + (gs.map Group.truncated).sum)))
      (signed neg (t + (gs.map Group.truncated).sum)) := by
  induction gs with
  | nil =>
    intro t ht
    rw [flatMap_nil, parseGroups, if_pos rfl]
    exact .ok ht
  | cons g gs ih =>
    intro t ht
    obtain ⟨hpos, hsmall⟩ := g.unit.millis_bounds
    have hnum : Yields (numMs (magnitude g.whole g.frac) g.unit.millis neg)
        (Fits (signed neg g.truncated)) (signed neg g.truncated) :=
      numMs_yields hpos hsmall g.whole_digits g.frac_digits g.nonempty neg
    rw [flatMap_cons, parseGroups_group input neg g (stops_texts gs), map_cons,
      sum_cons, ← Nat.add_assoc]
    refine hnum.bind (fits_signed_of_le (by omega)) fun _ => ?_
    refine (addPart_yields input neg ht g.truncated).bind ?_ (ih _)
    exact fits_signed_of_le (Nat.le_add_right _ _)

/-! ## Reading a duration -/

inductive Sign
  | none
  | plus
  | minus
  deriving DecidableEq

def Sign.text : Sign → Text
  | .none => []
  | .plus => ['+']
  | .minus => ['-']

def Sign.neg (s : Sign) : Bool := s = .minus

/-- A duration as it may be written. -/
structure Spelled where
  sign : Sign
  groups : List Group
  nonempty : groups ≠ []

namespace Spelled

def text (d : Spelled) : Text := d.sign.text ++ d.groups.flatMap Group.text

/-- What the code makes of a duration. -/
def truncated (d : Spelled) : Int := signed d.sign.neg (d.groups.map Group.truncated).sum

end Spelled

/-- The text of groups is longer than the lone `0`, and does not start with a sign. -/
theorem texts_head {gs} (h : gs ≠ []) :
    ∃ c d rest, gs.flatMap Group.text = c :: d :: rest ∧ c ≠ '-' ∧ c ≠ '+' := by
  obtain ⟨g, gs, rfl⟩ := exists_cons_of_ne_nil h
  obtain ⟨c, x, hcons⟩ := exists_cons_of_ne_nil (magnitude_ne_nil g.nonempty)
  have hc := magnitude_isMagnitude g.whole_digits g.frac_digits c (hcons ▸ mem_cons_self)
  have htail : x ++ g.unit.text ++ gs.flatMap Group.text ≠ [] := by
    cases g.unit <;> simp [TimeUnit.text]
  obtain ⟨d, rest, hrest⟩ := exists_cons_of_ne_nil htail
  refine ⟨c, d, rest, ?_, ?_, ?_⟩
  · rw [flatMap_cons, Group.text, hcons, ← hrest]
    simp
  · rintro rfl
    exact absurd hc (by decide)
  · rintro rfl
    exact absurd hc (by decide)

theorem parse_cons (c) (rest cs : Text)
    (hcs : (if c = '-' ∨ c = '+' then rest else c :: rest) = cs) : parse (c :: rest) =
      if cs = [] then throw (quoted "no digits in duration '" (c :: rest) "'")
      else if cs = ['0'] then pure 0
      else parseGroups (c :: rest) (c = '-') cs 0 := by
  subst hcs
  rfl

theorem parse_text :
    parse d.text = parseGroups d.text d.sign.neg (d.groups.flatMap Group.text) 0 := by
  obtain ⟨sign, groups, hne⟩ := d
  obtain ⟨c, e, rest, htexts, hminus, hplus⟩ := texts_head hne
  have hnil : groups.flatMap Group.text ≠ [] := by
    rw [htexts]
    exact cons_ne_nil _ _
  have hzero : groups.flatMap Group.text ≠ ['0'] := by
    rw [htexts]
    simp
  simp only [Spelled.text]
  cases sign with
  | none =>
    simp only [Sign.text, nil_append, Sign.neg]
    rw [htexts] at hnil hzero ⊢
    have hnot : ¬ (c = '-' ∨ c = '+') := fun h => h.elim hminus hplus
    rw [parse_cons c _ _ (if_neg hnot), if_neg hnil, if_neg hzero, decide_eq_false hminus]
    rfl
  | plus => exact (parse_cons '+' _ _ rfl).trans ((if_neg hnil).trans (if_neg hzero))
  | minus => exact (parse_cons '-' _ _ rfl).trans ((if_neg hnil).trans (if_neg hzero))

/-- **A duration is read as what is left of it when each fraction is cut after nine digits.** -/
theorem parse_yields : Yields (parse d.text) (Fits d.truncated) d.truncated := by
  have hgroups := parseGroups_yields d.text d.sign.neg d.groups 0 (by cases d.sign.neg <;> decide)
  have hzero : signed d.sign.neg 0 = 0 := by cases d.sign.neg <;> rfl
  rw [Nat.zero_add, hzero] at hgroups
  rw [parse_text]
  exact hgroups

/-! ## No text makes `parse` fault -/

/-- What the first loop takes: a magnitude, or digits and a last dot. -/
theorem magnitude_shape (hx : ∀ c ∈ x, isMagnitude c = true) (hne : x ≠ [])
    (hdots : ¬ x.count '.' > 1) :
    (∃ w f, Digits w ∧ Digits f ∧ (w ≠ [] ∨ f ≠ []) ∧ x = magnitude w f) ∨
      ∃ w, Digits w ∧ x = w ++ ['.'] := by
  have hdigits : ∀ y : Text, y ⊆ x → '.' ∉ y → Digits y :=
    fun y hy hdot c hc => isDigit_of_isMagnitude (hx c (hy hc)) fun h => hdot (h ▸ hc)
  by_cases hdot : '.' ∈ x
  · obtain ⟨w, f, rfl, hw⟩ := eq_append_cons_of_mem hdot
    have hf : '.' ∉ f := by
      rw [count_append, count_cons_self] at hdots
      intro h
      have := count_pos_iff.mpr h
      omega
    have hdw := hdigits w (subset_append_left _ _) hw
    have hdf := hdigits f (fun c hc => by simp [hc]) hf
    by_cases hnil : f = []
    · exact .inr ⟨w, hdw, by rw [hnil]⟩
    · exact .inl ⟨w, f, hdw, hdf, .inr hnil, (if_neg hnil).symm⟩
  · exact .inl ⟨x, [], hdigits x (Subset.refl x) hdot, forall_mem_nil _, .inl hne, rfl⟩

/-- A number of that sign that fits. -/
def InRange (neg : Bool) (v : Int) : Prop := ∃ n, v = signed neg n ∧ Fits (signed neg n)

theorem Yields.meets {r neg} (h : Yields r (Fits (signed neg n)) (signed neg n)) :
    Meets r (InRange neg) := by
  by_cases hfits : Fits (signed neg n)
  · exact .inr ⟨_, h.value hfits, n, rfl, hfits⟩
  · obtain ⟨x, herr⟩ := h.error hfits
    exact .inl ⟨_, herr⟩

theorem numMs_meets (t : TimeUnit) (neg) (hx : ∀ c ∈ x, isMagnitude c = true) (hne : x ≠ [])
    (hdots : ¬ x.count '.' > 1) : 
    Meets (numMs x t.millis neg) (InRange neg) := by
  rcases magnitude_shape hx hne hdots with ⟨w, f, hw, hf, hwf, rfl⟩ | ⟨w, hw, rfl⟩
  · obtain ⟨hpos, hsmall⟩ := t.millis_bounds
    exact (numMs_yields hpos hsmall hw hf hwf neg).meets
  have hsplit : (w ++ ['.']).splitOn '.' = [w, []] :=
    splitOn_append_cons_self_of_not_mem (dot_not_mem hw) []
  refine .inl ⟨malformed (w ++ ['.']), ?_⟩
  have htwo : numMs (w ++ ['.']) t.millis neg = partsMs (w ++ ['.']) 2 w [] t.millis neg := by
    rw [numMs, hsplit]
    rfl
  rw [htwo, partsMs, if_neg (by decide)]
  by_cases hnil : w = []
  · rw [if_pos ⟨hnil, rfl⟩]
  · rw [if_neg fun h => hnil h.1, if_pos ⟨rfl, rfl⟩]

theorem unitMs_meets (input unit) :
    Meets (unitMs input unit) fun u => ∃ t : TimeUnit, u = (t.millis : Int) := by
  unfold unitMs
  split_ifs
  · exact Meets.pure ⟨.ms, rfl⟩
  · exact Meets.pure ⟨.s, rfl⟩
  · exact Meets.pure ⟨.m, rfl⟩
  · exact Meets.pure ⟨.h, rfl⟩
  · exact Meets.throw _
  · exact Meets.throw _

theorem parseGroups_meets (neg : Bool) (cs : Text) {total} (ht : InRange neg total) :
    Meets (parseGroups input neg cs total) (InRange neg) := by
  fun_induction parseGroups input neg cs total with
  | case1 => exact Meets.pure ht
  | case2 | case3 => exact Meets.throw _
  | case4 cs total _ hnum hdots ih =>
    have hmag : ∀ c ∈ (lex cs).numstr, isMagnitude c = true := all_eq_true.mp all_takeWhile
    apply (unitMs_meets input (lex cs).unit).bind
    rintro _ ⟨unit, rfl⟩
    apply (numMs_meets unit neg hmag hnum hdots).bind
    rintro _ ⟨m, rfl, _⟩
    obtain ⟨t, rfl, hfits⟩ := ht
    apply (addPart_yields input neg hfits m).meets.bind
    exact ih

theorem parse_total : ∃ r, (parse input).run = .ok r := by
  have hgroups : ∀ (neg : Bool) (cs : Text), ∃ r, (parseGroups input neg cs 0).run = .ok r := by
    intro neg cs
    have hzero : InRange neg 0 := ⟨0, by cases neg <;> rfl, by cases neg <;> decide⟩
    exact (parseGroups_meets input neg cs hzero).total
  cases input with
  | nil => exact ⟨.error "empty duration string", rfl⟩
  | cons c rest =>
    generalize hcs : (if c = '-' ∨ c = '+' then rest else c :: rest) = cs
    rw [parse_cons c rest cs hcs]
    split_ifs
    · exact ⟨_, rfl⟩
    · exact ⟨_, rfl⟩
    · exact hgroups _ _

/-! ## The exact value -/

/-- Cutting the last `r` digits of a fraction of `k + r` digits loses, if anything. -/
theorem cut_le (u a b k r) : u * a / 10 ^ k ≤ u * (10 ^ r * a + b) / 10 ^ (k + r) := by
  rw [← Nat.mul_div_mul_right _ _ (Nat.pow_pos (by decide : 0 < 10) : 0 < 10 ^ r), ← Nat.pow_add]
  apply Nat.div_le_div_right
  calc u * a * 10 ^ r = u * (10 ^ r * a) := by ring
    _ ≤ u * (10 ^ r * a + b) := Nat.mul_le_mul_left u (Nat.le_add_right _ _)

namespace Group

/-- What a group is worth, in milliseconds. -/
def worth (g : Group) : ℚ :=
  g.unit.millis * (value g.whole + value g.frac / 10 ^ g.frac.length)

/-- Its whole milliseconds. -/
def exact (g : Group) : Nat := ⌊g.worth⌋₊

variable (g : Group)

theorem exact_eq : g.exact = g.unit.millis * value g.whole +
      g.unit.millis * value g.frac / 10 ^ g.frac.length := by
  have hworth : g.worth =
      ((g.unit.millis * value g.frac : Nat) : ℚ) / ((10 ^ g.frac.length : Nat) : ℚ) +
        ((g.unit.millis * value g.whole : Nat) : ℚ) := by
    rw [worth]
    push_cast
    ring
  rw [exact, hworth, Nat.floor_add_natCast (by positivity), Nat.floor_div_eq_div, Nat.add_comm]

/-- Nothing is lost of a fraction of at most nine digits. -/
theorem truncated_of_short (h : g.frac.length ≤ 9) : g.truncated = g.exact := by
  rw [exact_eq, truncated, Duration.truncated, take_of_length_le h]

/-- The value and the length of a fraction from what is kept of it and what is dropped. -/
theorem frac_cut (h : 9 ≤ g.frac.length) :
    value g.frac = 10 ^ (g.frac.drop 9).length * value (g.frac.take 9) + value (g.frac.drop 9) ∧
      g.frac.length = 9 + (g.frac.drop 9).length ∧ (g.frac.take 9).length = 9 := by
  refine ⟨?_, ?_, length_take_of_le h⟩
  · conv_lhs => rw [← take_append_drop 9 g.frac]
    exact value_append _ _
  · rw [length_drop]
    omega

theorem truncated_le_exact : g.truncated ≤ g.exact := by
  by_cases h : g.frac.length ≤ 9
  · exact (g.truncated_of_short h).le
  · obtain ⟨hvalue, hlen, hkept⟩ := g.frac_cut (by omega)
    rw [exact_eq, truncated, Duration.truncated, hkept, hvalue, hlen]
    exact Nat.add_le_add_left (cut_le _ _ _ _ _) _

end Group

namespace Spelled

/-- The signed sum of the groups' whole milliseconds. -/
def exact (d : Spelled) : Int := signed d.sign.neg (d.groups.map Group.exact).sum

/-- `parse` gives the exact sum, or reports out of range when it does not fit. -/
def ReadExactly (d : Spelled) : Prop := Yields (parse d.text) (Fits d.exact) d.exact

end Spelled

theorem sum_truncated_le : (gs.map Group.truncated).sum ≤ (gs.map Group.exact).sum := by
  induction gs with
  | nil => exact Nat.le_refl 0
  | cons g gs ih => exact Nat.add_le_add g.truncated_le_exact ih

/-- Losses do not cancel. -/
theorem sum_truncated_eq_iff :
    (gs.map Group.truncated).sum = (gs.map Group.exact).sum ↔ ∀ g ∈ gs, g.truncated = g.exact := by
  induction gs with
  | nil => simp
  | cons g gs ih =>
    have hg := g.truncated_le_exact
    have hgs := sum_truncated_le gs
    rw [map_cons, map_cons, sum_cons, sum_cons, forall_mem_cons, ← ih]
    omega

theorem signed_inj {neg m} (h : signed neg m = signed neg n) : m = n := by
  cases neg <;> simp only [signed, if_true, if_false, Bool.false_eq_true] at h <;> omega

theorem readExactly_iff :
    d.ReadExactly ↔ (∀ g ∈ d.groups, g.truncated = g.exact) ∨ ¬ Fits d.truncated := by
  have hyields := parse_yields d
  rw [← sum_truncated_eq_iff]
  constructor
  · intro h
    by_cases hfits : Fits d.truncated
    · refine .inl ?_
      have hread := hyields.value hfits
      by_cases hexact : Fits d.exact
      · rw [h.value hexact] at hread
        have heq : d.exact = d.truncated := by
          injection hread with hread
          injection hread
        exact (signed_inj heq).symm
      · obtain ⟨x, herr⟩ := h.error hexact
        rw [herr] at hread
        injection hread with hread
        injection hread
    · exact .inr hfits
  · rintro (heq | hfits)
    · have hsame : d.truncated = d.exact := congrArg (signed d.sign.neg) heq
      rw [hsame] at hyields
      exact hyields
    · refine ⟨fun h => ?_, fun _ => hyields.error hfits⟩
      exact absurd (fits_signed_of_le (sum_truncated_le d.groups) h) hfits

/-- **`parse` never faults, and reads a duration exactly as long as no group needs a digit of its
fraction after the ninth**, or what is left without them is out of range already. -/
theorem parse_exact_iff (input : Text) (d : Spelled) :
    (∃ r, (parse input).run = .ok r) ∧
    (d.ReadExactly ↔ (∀ g ∈ d.groups, g.truncated = g.exact) ∨ ¬ Fits d.truncated) :=
  ⟨parse_total input, readExactly_iff d⟩

/-- `0.000000277777777778h`, just over a millisecond. -/
def justOver : Group where
  whole := "0".toList
  frac := "000000277777777778".toList
  unit := .h
  whole_digits := by decide
  frac_digits := by decide
  nonempty := by decide

theorem justOver_loses_a_millisecond :
    justOver.exact = 1 ∧ parse justOver.text = pure 0 ∧
      ¬ Spelled.ReadExactly ⟨.none, [justOver], by simp⟩ := by
  have hexact : justOver.exact = 1 := by
    rw [Group.exact_eq]
    decide
  have htruncated : justOver.truncated = 0 := by decide
  have hread := (parse_yields ⟨.none, [justOver], by simp⟩).value (by decide)
  refine ⟨hexact, hread, ?_⟩
  rw [readExactly_iff]
  rintro (h | h)
  · have := h justOver mem_cons_self
    omega
  · exact h (by decide)

/-! ## Writing a duration -/

/-- A whole number of units. -/
def units (n : Nat) (t : TimeUnit) : Group where
  whole := Nat.toDigits 10 n
  frac := []
  unit := t
  whole_digits := showNat_isDigit n
  frac_digits := forall_mem_nil _
  nonempty := Or.inl Nat.toDigits_ne_nil

theorem text_units (n t) : (units n t).text = showInt n ++ t.text := by
  rw [showInt_natCast]
  rfl

theorem truncated_units (n t) : (units n t).truncated = t.millis * n := by
  rw [Group.truncated_of_short (units n t) (Nat.zero_le 9), Group.exact_eq]
  change t.millis * value (Nat.toDigits 10 n) + t.millis * value [] / 1 = _
  rw [value_showNat, value_nil, Nat.mul_zero, Nat.zero_div, Nat.add_zero]

theorem trimEnd_spec (x) {n} (hn : n ≤ x.length) (hpos : 0 < n) :
    0 < trimEnd x n ∧ trimEnd x n ≤ n ∧
      x.take n = x.take (trimEnd x n) ++ replicate (n - trimEnd x n) '0' := by
  fun_induction trimEnd x n with
  | case1 => exact absurd hpos (lt_irrefl 0)
  | case2 => simp
  | case3 n hzero ih =>
    obtain ⟨hpos, hle, heq⟩ := ih (by omega) (Nat.succ_pos n)
    have hslice : slice x (n + 1) (n + 2) = [x[n + 1]] := by
      rw [slice, take_succ_eq_append_getElem hn,
        drop_append_of_le_length (by rw [length_take]; omega)]
      simp
    rw [hslice] at hzero
    have hlast : n + 1 - trimEnd x (n + 1) + 1 = n + 1 + 1 - trimEnd x (n + 1) := by omega
    refine ⟨hpos, by omega, ?_⟩
    rw [take_succ_eq_append_getElem hn, heq, append_assoc, hzero, ← replicate_succ', hlast]
  | case4 n _ => exact ⟨Nat.succ_pos _, le_rfl, by simp⟩

/-- What is kept of a run of digits, and the zeros that are not. -/
theorem trimTrailingZeros_spec (hx : x ≠ []) :
    trimTrailingZeros x ≠ [] ∧ ∃ k, x = trimTrailingZeros x ++ replicate k '0' := by
  have hlen : 0 < x.length := length_pos_iff.mpr hx
  obtain ⟨hpos, hle, heq⟩ := trimEnd_spec x (Nat.le_refl x.length) hlen
  rw [take_length] at heq
  have hkept : trimTrailingZeros x = x.take (trimEnd x x.length) := rfl
  rw [hkept]
  refine ⟨?_, _, heq⟩
  intro hnil
  rw [take_eq_nil_iff] at hnil
  rcases hnil with h | h
  · omega
  · exact hx h

/-- The three digits after the point, without zeros at the end. -/
def millisText (r : Nat) : Text := trimTrailingZeros (padLeft (showInt r) 3 '0')

theorem millisText_spec {r} (hr : r < 1000) :
    Digits (millisText r) ∧ millisText r ≠ [] ∧ (millisText r).length ≤ 9 ∧
      1000 * value (millisText r) / 10 ^ (millisText r).length = r := by
  have hpadlen : (padded r 3).length = 3 :=
    Nat.le_antisymm (length_padded (by decide) hr (Nat.le_refl 3)).2
      (length_padded (by decide) hr (Nat.le_refl 3)).1
  have hpadvalue := value_padded r 3
  have hpaddigits := padded_digits r 3
  obtain ⟨hne, k, hk⟩ := trimTrailingZeros_spec (padded_ne_nil r 3)
  change _ = millisText r ++ _ at hk
  rw [hk, length_append, length_replicate] at hpadlen
  rw [hk, value_append, value_replicate_zero, length_replicate] at hpadvalue
  refine ⟨(Digits.append_iff.mp (hk ▸ hpaddigits)).1, hne, by omega, ?_⟩
  have hsplit : 1000 = 10 ^ (millisText r).length * 10 ^ k := by
    rw [← Nat.pow_add, hpadlen]
  rw [hsplit, Nat.mul_assoc, Nat.mul_div_cancel_left _ (Nat.pow_pos (by decide))]
  exact hpadvalue

/-- Seconds and milliseconds. -/
def secondsGroup (s r : Nat) (hr : r < 1000) : Group where
  whole := Nat.toDigits 10 s
  frac := millisText r
  unit := .s
  whole_digits := showNat_isDigit s
  frac_digits := (millisText_spec hr).1
  nonempty := Or.inl Nat.toDigits_ne_nil

theorem truncated_secondsGroup (s r) (hr : r < 1000) :
    (secondsGroup s r hr).truncated = 1000 * s + r := by
  obtain ⟨_, _, hlen, hvalue⟩ := millisText_spec hr
  rw [Group.truncated_of_short (secondsGroup s r hr) hlen, Group.exact_eq]
  change 1000 * value (Nat.toDigits 10 s) + 1000 * value (millisText r) / _ = _
  rw [value_showNat]
  exact congrArg _ hvalue

theorem text_secondsGroup (s r) (hr : r < 1000) :
    (secondsGroup s r hr).text = showInt s ++ ['.'] ++ millisText r ++ ['s'] := by
  rw [showInt_natCast, Group.text]
  change magnitude _ (millisText r) ++ ['s'] = _
  rw [magnitude, if_neg (millisText_spec hr).2.1, append_assoc _ ['.']]
  rfl

theorem hoursMinutes_spec (h m : Nat) :
    ∃ gs : List Group, hoursMinutes h m = gs.flatMap Group.text ∧
      (gs.map Group.truncated).sum = 3600000 * h + 60000 * m := by
  rw [hoursMinutes]
  by_cases hh : 0 < h
  · refine ⟨[units h .h, units m .m], ?_, ?_⟩
    · rw [if_pos (by omega), if_pos (by omega)]
      simp [text_units, TimeUnit.text]
    · simp [truncated_units, TimeUnit.millis]
  by_cases hm : 0 < m
  · refine ⟨[units m .m], ?_, ?_⟩
    · rw [if_pos (show (h : Int) > 0 ∨ (m : Int) > 0 by omega),
        if_neg (show ¬ (h : Int) > 0 by omega)]
      simp [text_units, TimeUnit.text]
    · simp [truncated_units, TimeUnit.millis]
      omega
  · refine ⟨[], ?_, ?_⟩
    · rw [if_neg (by omega), if_neg (by omega)]
      rfl
    · simp
      omega

/-- The groups of a positive number of milliseconds add up to it. -/
theorem fmtPos_spec (hn : n < 2 ^ 63) :
    ∃ gs : List Group, gs ≠ [] ∧ fmtPos n = .ok (gs.flatMap Group.text) ∧
      (gs.map Group.truncated).sum = n := by
  rw [fmtPos]
  by_cases hsmall : n < 1000
  · refine ⟨[units n .ms], by simp, ?_, ?_⟩
    · rw [if_pos (by omega), flatMap_cons, text_units, flatMap_nil, append_nil]
      rfl
    · rw [map_cons, map_nil, sum_singleton, truncated_units]
      exact Nat.one_mul n
  have htotal : div (n : Int) 1000 = .ok ((n / 1000 : Nat) : Int) := div_natCast (by decide) hn
  have hrem : mod (n : Int) 1000 = .ok ((n % 1000 : Nat) : Int) := mod_natCast (by decide)
  have hh : div ((n / 1000 : Nat) : Int) 3600 = .ok ((n / 1000 / 3600 : Nat) : Int) :=
    div_natCast (by decide) (by omega)
  have hm0 : mod ((n / 1000 : Nat) : Int) 3600 = .ok ((n / 1000 % 3600 : Nat) : Int) :=
    mod_natCast (by decide)
  have hm : div ((n / 1000 % 3600 : Nat) : Int) 60 = .ok ((n / 1000 % 3600 / 60 : Nat) : Int) :=
    div_natCast (by decide) (by omega)
  have hs : mod ((n / 1000 : Nat) : Int) 60 = .ok ((n / 1000 % 60 : Nat) : Int) :=
    mod_natCast (by decide)
  obtain ⟨gs, htext, hsum⟩ := hoursMinutes_spec (n / 1000 / 3600) (n / 1000 % 3600 / 60)
  rw [if_neg (by omega), htotal, ok_bind, hrem, ok_bind, hh, ok_bind, hm0, ok_bind, hm, ok_bind, hs,
    ok_bind, htext]
  by_cases hzero : n % 1000 = 0
  · refine ⟨gs ++ [units (n / 1000 % 60) .s], by simp, ?_, ?_⟩
    · rw [hzero, flatMap_append, flatMap_cons, text_units, flatMap_nil, append_nil, ← append_assoc]
      rfl
    · rw [map_append, sum_append, hsum, map_cons, map_nil, sum_singleton, truncated_units]
      change _ + 1000 * _ = _
      omega
  · have hr : n % 1000 < 1000 := Nat.mod_lt _ (by decide)
    refine ⟨gs ++ [secondsGroup (n / 1000 % 60) (n % 1000) hr], by simp, ?_, ?_⟩
    · rw [flatMap_append, flatMap_cons, text_secondsGroup, flatMap_nil,
        append_nil, if_neg (by omega)]
      simp only [append_assoc]
      rfl
    · rw [map_append, sum_append, hsum, map_cons, map_nil, sum_singleton, truncated_secondsGroup]
      omega

/-- The duration written for `i64::MIN`. -/
def lowest : Spelled where
  sign := .minus
  groups := [units 2562047788015 .h, units 12 .m, secondsGroup 55 808 (by decide)]
  nonempty := by simp

theorem parse_of_truncated {d : Spelled} {n} (hn : Fits n) (h : d.truncated = n) :
    parse d.text = pure n := by
  subst h
  exact (parse_yields d).value hn

/-- **Every duration is read back from what is written for it**, and neither call faults. -/
theorem parse_toString (ms : Int64) :
    ∃ t, toString ms.toInt = .ok t ∧ parse t = pure ms.toInt := by
  have hfits := fits_toInt ms
  generalize ms.toInt = n at hfits
  rw [toString]
  by_cases hzero : n = 0
  · rw [if_pos hzero, hzero]
    exact ⟨_, rfl, parse_of_truncated (d := ⟨.none, [units 0 .s], by simp⟩) (by decide) (by decide)⟩
  by_cases hmin : n = i64Min
  · rw [if_neg hzero, if_pos hmin, hmin]
    exact ⟨_, rfl, parse_of_truncated (d := lowest) (by decide) (by decide)⟩
  rw [if_neg hzero, if_neg hmin]
  by_cases hneg : n < 0
  · obtain ⟨k, rfl⟩ : ∃ k : Nat, n = -(k : Int) := ⟨n.natAbs, by omega⟩
    have hk : k < 2 ^ 63 := by
      unfold Fits at hfits
      unfold i64Min at hmin
      omega
    obtain ⟨gs, hgs, htext, hsum⟩ := fmtPos_spec hk
    have hpos : neg (-(k : Int)) = .ok (k : Int) := by
      rw [neg, Int.neg_neg]
      exact if_pos (fits_natCast hk)
    rw [if_pos hneg, hpos, ok_bind, htext, ok_bind]
    refine ⟨_, rfl, parse_of_truncated (d := ⟨.minus, gs, hgs⟩) hfits ?_⟩
    exact congrArg (fun k : Nat => -(k : Int)) hsum
  · obtain ⟨k, rfl⟩ : ∃ k : Nat, n = (k : Int) := ⟨n.natAbs, by omega⟩
    have hk : k < 2 ^ 63 := by
      unfold Fits at hfits
      omega
    obtain ⟨gs, hgs, htext, hsum⟩ := fmtPos_spec hk
    rw [if_neg hneg, htext]
    refine ⟨_, rfl, parse_of_truncated (d := ⟨.none, gs, hgs⟩) hfits ?_⟩
    exact congrArg (fun k : Nat => (k : Int)) hsum

end ChezziLang.Stdlib.Duration
