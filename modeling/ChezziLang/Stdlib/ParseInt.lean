/-
  `std.math`: the native `parse_int_base`.

  The text is trimmed, loses its sign and the prefix of its base, then its underscores, and what
  is left is read digit by digit into 64 bits.

  Proved:
  * `readDigits_ok_iff`: digits are read as their value, exactly when that fits.
  * `parseIntBase_ok_iff`: so is a signed run of digits of one of the bases 2, 8, 10 and 16.
-/
import ChezziLang.Stdlib.Text
import Mathlib.Data.List.DropRight

namespace ChezziLang.Stdlib.Math

open Lib.I64 List

/-! ## The standard library of the host -/

/-- `char::is_whitespace`. -/
def isWhitespace (c : Char) : Bool :=
  let n := c.toNat
  (9 ≤ n && n ≤ 13) || n == 0x20 || n == 0x85 || n == 0xA0 || n == 0x1680 ||
    (0x2000 ≤ n && n ≤ 0x200A) || n == 0x2028 || n == 0x2029 || n == 0x202F || n == 0x205F ||
    n == 0x3000

/-- `str::trim`. -/
def trim (x : Text) : Text := (x.dropWhile isWhitespace).rdropWhile isWhitespace

/-- The value of a digit or a letter. -/
def digit36 (c : Char) : Option Nat :=
  if '0' ≤ c ∧ c ≤ '9' then some (c.toNat - '0'.toNat)
  else if 'a' ≤ c ∧ c ≤ 'z' then some (c.toNat - 'a'.toNat + 10)
  else if 'A' ≤ c ∧ c ≤ 'Z' then some (c.toNat - 'A'.toNat + 10)
  else none

/-- `char::to_digit`. -/
def toDigit (c : Char) (radix : Nat) : Option Nat := (digit36 c).filter fun d => d < radix

inductive IntErrorKind where
  | empty
  | invalidDigit
  | posOverflow
  | negOverflow
  deriving DecidableEq, Repr

/-- One digit more of `i64::from_str_radix`, downwards if there is a minus sign. -/
def readDigit (radix : Nat) (negative : Bool) (n : Int) (c : Char) : Except IntErrorKind Int :=
  match toDigit c radix with
  | none => .error .invalidDigit
  | some d =>
    let next := if negative then n * radix - d else n * radix + d
    if Fits (n * radix) ∧ Fits next then .ok next
    else .error (if negative then .negOverflow else .posOverflow)

section

variable (x : Text) (radix : Nat)

/-- `i64::from_str_radix`. -/
def fromStrRadix : Except IntErrorKind Int :=
  if x = [] then .error .empty
  else if x = ['+'] ∨ x = ['-'] then .error .invalidDigit
  else if x.head? = some '-' then (x.drop 1).foldlM (readDigit radix true) 0
  else if x.head? = some '+' then (x.drop 1).foldlM (readDigit radix false) 0
  else x.foldlM (readDigit radix false) 0

/-- Whether character `i` is a digit. -/
def digitAt (i : Nat) : Bool := (x[i]?.bind (toDigit · radix)).isSome

/-- `strip_num_underscores_radix`. -/
def stripNumUnderscoresRadix : Option Text :=
  if '_' ∉ x then some x
  else if ∀ i < x.length, x[i]? = some '_' →
      i > 0 ∧ digitAt x radix (i - 1) = true ∧ digitAt x radix (i + 1) = true then
    some (x.filter (· ≠ '_'))
  else none

end

/-- The radix, and the digits after a prefix that fits it. -/
def splitRadix (base : Int) (rest : Text) : Nat × Text :=
  let lower := rest.map Char.toLower
  if base = 0 then
    if lower.take 2 = ['0', 'x'] then (16, rest.drop 2)
    else if lower.take 2 = ['0', 'o'] then (8, rest.drop 2)
    else if lower.take 2 = ['0', 'b'] then (2, rest.drop 2)
    else (10, rest)
  else
    let radix := base.toNat
    if radix = 16 ∧ lower.take 2 = ['0', 'x'] ∨ radix = 8 ∧ lower.take 2 = ['0', 'o'] ∨
        radix = 2 ∧ lower.take 2 = ['0', 'b'] then
      (radix, rest.drop 2)
    else (radix, rest)

def cannotParse (s : Text) (radix : Nat) : String :=
  quoted "parse_int_base: cannot parse '" s ("' in base " ++ toString radix)

/-- The message for the error of `from_str_radix`. -/
def intErrorMessage (s : Text) (radix : Nat) : IntErrorKind → String
  | .posOverflow | .negOverflow => quoted "parse_int_base: '" s ("' in base " ++ toString radix ++
      " overflows i64 (range -9223372036854775808..=9223372036854775807)")
  | .empty | .invalidDigit => cannotParse s radix

/-- `parse_int_base_impl`. -/
def parseIntBase (s : Text) (base : Int) : Except String Int :=
  if base ≠ 0 ∧ ¬ (2 ≤ base ∧ base ≤ 36) then
    .error ("parse_int_base: base must be 0 or 2..=36, got " ++ toString base)
  else
    let t := trim s
    let rest := if t.head? = some '-' ∨ t.head? = some '+' then t.drop 1 else t
    let (radix, digits) := splitRadix base rest
    let digits :=
      if digits.length < rest.length ∧ digits.head? = some '_' then digits.drop 1 else digits
    if digits.head? = some '+' ∨ digits.head? = some '-' then .error (cannotParse s radix)
    else
      match stripNumUnderscoresRadix digits radix with
      | none => .error (cannotParse s radix)
      | some digits =>
        if base = 0 ∧ radix = 10 ∧ digits.length > 1 ∧ digits.head? = some '0' ∧
            digits.any (· ≠ '0') then
          .error (quoted "parse_int_base: leading zeros in '" s
            "' are not allowed in base 0 (use a 0o prefix for octal)")
        else
          let signed := if t.head? = some '-' then '-' :: digits else digits
          (fromStrRadix signed radix).mapError (intErrorMessage s radix)

/-! ## Digits -/

variable {c : Char} {radix : Nat} {negative : Bool}

/-- A property of the ASCII characters can be checked one by one. -/
theorem forall_ascii {P : Char → Prop} (h : ∀ n : Fin 128, P (Char.ofNat n)) (hc : c.toNat < 128) :
    P c := by
  have hchar := h ⟨c.toNat, hc⟩
  rw [Char.ofNat_toNat] at hchar
  exact hchar

theorem ascii_of_digit36 {d} (h : digit36 c = some d) : c.toNat < 128 := by
  have hle : ∀ {c d : Char}, c ≤ d → c.toNat ≤ d.toNat := fun h => h
  unfold digit36 at h
  split_ifs at h with h0 h1 h2
  · exact (hle h0.2).trans_lt (by decide)
  · exact (hle h1.2).trans_lt (by decide)
  · exact (hle h2.2).trans_lt (by decide)

/-- `c` is a digit of the base. -/
def DigitOf (radix : Nat) (c : Char) : Prop := ∃ d, digit36 c = some d ∧ d < radix

theorem DigitOf.ascii (h : DigitOf radix c) : c.toNat < 128 := by
  obtain ⟨d, hd, _⟩ := h
  exact ascii_of_digit36 hd

theorem toDigit_eq_some {d} : toDigit c radix = some d ↔ digit36 c = some d ∧ d < radix := by
  simp [toDigit, Option.filter_eq_some_iff]

/-- What no digit is. -/
theorem DigitOf.plain (h : DigitOf radix c) :
    isWhitespace c = false ∧ c ≠ '_' ∧ c ≠ '+' ∧ c ≠ '-' := by
  obtain ⟨d, hd, _⟩ := h
  have hall : ∀ n : Fin 128, (digit36 (Char.ofNat n)).isSome →
      isWhitespace (Char.ofNat n) = false ∧ Char.ofNat n ≠ '_' ∧ Char.ofNat n ≠ '+' ∧
        Char.ofNat n ≠ '-' := by decide
  exact forall_ascii (P := fun c => (digit36 c).isSome → isWhitespace c = false ∧ c ≠ '_' ∧
    c ≠ '+' ∧ c ≠ '-') hall (ascii_of_digit36 hd) (by rw [hd]; rfl)

/-- The value of a run of digits after `n`. -/
def valueFrom (radix n : Nat) (x : Text) : Nat :=
  x.foldl (fun n c => radix * n + (digit36 c).getD 0) n

theorem le_valueFrom (hradix : 0 < radix) (x) : ∀ n, n ≤ valueFrom radix n x := by
  induction x with
  | nil => exact fun n => Nat.le_refl n
  | cons c x ih =>
    intro n
    have hstep : n ≤ radix * n + (digit36 c).getD 0 :=
      (Nat.le_mul_of_pos_left n hradix).trans (Nat.le_add_right _ _)
    exact hstep.trans (ih _)

/-- `n` with its sign. -/
def withSign (negative : Bool) (n : Nat) : Int := if negative then -(n : Int) else n

theorem fits_withSign_of_le {m n} (h : Fits (withSign negative n)) (hle : m ≤ n) :
    Fits (withSign negative m) := by
  unfold withSign Fits at *
  split at h
  · next hneg =>
    rw [if_pos hneg]
    omega
  · next hpos =>
    rw [if_neg hpos]
    omega

theorem readDigit_ok {n d} (hc : digit36 c = some d) (hd : d < radix) :
    readDigit radix negative (withSign negative n) c =
      if Fits (withSign negative (radix * n + d)) then .ok (withSign negative (radix * n + d))
      else .error (if negative then .negOverflow else .posOverflow) := by
  have hdigit : toDigit c radix = some d := toDigit_eq_some.mpr ⟨hc, hd⟩
  have hmul : withSign negative n * radix = withSign negative (radix * n) := by
    unfold withSign
    split
    · rw [Nat.cast_mul, Int.neg_mul, Int.mul_comm]
    · rw [Nat.cast_mul, Int.mul_comm]
  have hnext : (if negative then withSign negative n * radix - d
      else withSign negative n * radix + d) = withSign negative (radix * n + d) := by
    rw [hmul]
    unfold withSign
    split <;> omega
  simp only [readDigit, hdigit, hnext]
  by_cases hfits : Fits (withSign negative (radix * n + d))
  · have hsmall := fits_withSign_of_le hfits (Nat.le_add_right (radix * n) d)
    rw [hmul, if_pos ⟨hsmall, hfits⟩, if_pos hfits]
  · rw [if_neg fun h => hfits h.2, if_neg hfits]

/-- A run of digits is read as its value, exactly when that fits. -/
theorem readDigits_ok_iff {radix negative} (hradix : 0 < radix) {v} (x) :
    ∀ n, (∀ c ∈ x, DigitOf radix c) → Fits (withSign negative n) →
      (x.foldlM (readDigit radix negative) (withSign negative n) = .ok v ↔
        v = withSign negative (valueFrom radix n x) ∧ Fits v) := by
  induction x with
  | nil =>
    intro n _ hn
    constructor
    · intro h
      cases h
      exact ⟨rfl, hn⟩
    · rintro ⟨rfl, _⟩
      rfl
  | cons c x ih =>
    intro n hdigits hn
    obtain ⟨⟨d, hc, hd⟩, hx⟩ := forall_mem_cons.mp hdigits
    have hvalue : valueFrom radix n (c :: x) = valueFrom radix (radix * n + d) x := by
      rw [valueFrom, foldl_cons, hc]
      rfl
    rw [foldlM_cons, readDigit_ok hc hd, hvalue]
    by_cases hfits : Fits (withSign negative (radix * n + d))
    · rw [if_pos hfits]
      exact ih _ hx hfits
    rw [if_neg hfits]
    constructor
    · exact nofun
    · rintro ⟨rfl, hv⟩
      exact absurd (fits_withSign_of_le hv (le_valueFrom hradix x _)) hfits

/-! ## A signed run of digits -/

/-- The sign as library code writes it. -/
def signText (negative : Bool) : Text := if negative then ['-'] else []

theorem trim_of_ends {x} (hhead : ∀ c, x.head? = some c → isWhitespace c = false)
    (hlast : ∀ c, x.getLast? = some c → isWhitespace c = false) : trim x = x := by
  have hfront : x.dropWhile isWhitespace = x := by
    rw [dropWhile_eq_self_iff]
    intro hlen
    rw [hhead _ (head?_eq_getElem?.trans (getElem?_eq_getElem hlen))]
    decide
  rw [trim, hfront, rdropWhile_eq_self_iff]
  intro hne
  rw [hlast _ (getLast?_eq_some_getLast hne)]
  decide

theorem splitRadix_digits (hradix : radix = 2 ∨ radix = 8 ∨ radix = 10 ∨ radix = 16) {x : Text}
    (hdigits : ∀ c ∈ x, DigitOf radix c) : splitRadix radix x = (radix, x) := by
  -- the letter of a prefix is no digit of the base it stands for
  have hletter : ∀ {r : Nat} {l : Char}, (∀ n : Fin 128, (Char.ofNat n).toLower = l →
      ∀ d ∈ digit36 (Char.ofNat n), ¬ d < r) → radix = r →
      (x.map Char.toLower).take 2 ≠ ['0', l] := by
    intro r l hall hr htake
    have hsecond : ((x.map Char.toLower).take 2)[1]? = some l := by
      rw [htake]
      rfl
    rw [getElem?_take_of_lt (by decide), getElem?_map, Option.map_eq_some_iff]
      at hsecond
    obtain ⟨c, hc, hlower⟩ := hsecond
    obtain ⟨d, hd, hlt⟩ := hdigits c (mem_of_getElem? hc)
    exact forall_ascii (P := fun c => c.toLower = l → ∀ d ∈ digit36 c, ¬ d < r) hall
      (ascii_of_digit36 hd) hlower d hd (hr ▸ hlt)
  have hx := @hletter 16 'x' (by decide)
  have ho := @hletter 8 'o' (by decide)
  have hb := @hletter 2 'b' (by decide)
  unfold splitRadix
  rw [if_neg (by omega), Int.toNat_natCast, if_neg]
  rintro (⟨hr, h⟩ | ⟨hr, h⟩ | ⟨hr, h⟩)
  · exact hx hr h
  · exact ho hr h
  · exact hb hr h

theorem fromStrRadix_ok_iff {radix} (hradix : 0 < radix) {negative : Bool} {x : Text} (hne : x ≠ [])
    (hdigits : ∀ c ∈ x, DigitOf radix c) {v} :
    fromStrRadix (if negative then '-' :: x else x) radix = .ok v ↔
      v = withSign negative (valueFrom radix 0 x) ∧ Fits v := by
  obtain ⟨c, y, rfl⟩ := exists_cons_of_ne_nil hne
  have hc := (hdigits c mem_cons_self).plain
  have hzero : Fits (withSign negative 0) := by cases negative <;> decide
  have hread := @readDigits_ok_iff radix negative hradix v (c :: y) 0 hdigits hzero
  cases negative with
  | true => exact hread
  | false =>
    change fromStrRadix (c :: y) radix = .ok v ↔ _
    have hsign : ∀ {b : Char}, b ≠ c → (c :: y).head? ≠ some b := by
      intro b hb h
      exact hb (Option.some.inj h).symm
    have halone : ¬ (c :: y = ['+'] ∨ c :: y = ['-']) := by
      rintro (h | h)
      · exact hc.2.2.1 (cons.inj h).1
      · exact hc.2.2.2 (cons.inj h).1
    rw [fromStrRadix, if_neg hne, if_neg halone, if_neg (hsign hc.2.2.2.symm),
      if_neg (hsign hc.2.2.1.symm)]
    exact hread

/-- A signed run of digits is read as its value, exactly when that fits. -/
theorem parseIntBase_ok_iff (hradix : radix = 2 ∨ radix = 8 ∨ radix = 10 ∨ radix = 16) {x : Text}
    (hne : x ≠ []) (hdigits : ∀ c ∈ x, DigitOf radix c) {v} :
    parseIntBase (signText negative ++ x) radix = .ok v ↔
      v = withSign negative (valueFrom radix 0 x) ∧ Fits v := by
  obtain ⟨c, y, hx⟩ := exists_cons_of_ne_nil hne
  have hc := (hdigits c (by rw [hx]; exact mem_cons_self)).plain
  have htrim : trim (signText negative ++ x) = signText negative ++ x := by
    apply trim_of_ends
    · intro b hb
      cases negative with
      | true =>
        cases hb
        decide
      | false =>
        rw [hx] at hb
        cases hb
        exact hc.1
    · intro b hb
      rw [getLast?_append_of_ne_nil _ hne] at hb
      exact (hdigits b (mem_of_getLast? hb)).plain.1
  have hminus : (signText negative ++ x).head? = some '-' ↔ negative = true := by
    unfold signText
    cases negative with
    | true => simp
    | false => simp [hx, hc]
  have hrest : (if (signText negative ++ x).head? = some '-' ∨
      (signText negative ++ x).head? = some '+' then (signText negative ++ x).drop 1
      else signText negative ++ x) = x := by
    unfold signText
    cases negative with
    | true => rfl
    | false => simp [hx, hc]
  have hunsigned : ¬ (x.head? = some '+' ∨ x.head? = some '-') := by
    rw [hx]
    simp [hc]
  have hstrip : stripNumUnderscoresRadix x radix = some x :=
    if_pos fun hmem => (hdigits _ hmem).plain.2.1 rfl
  unfold parseIntBase
  dsimp only
  rw [if_neg (by omega), htrim, hrest, splitRadix_digits hradix hdigits]
  simp only [Nat.lt_irrefl, false_and, if_false]
  rw [if_neg hunsigned, hstrip]
  dsimp only
  rw [if_neg (by omega)]
  simp only [hminus]
  rw [← @fromStrRadix_ok_iff radix (by omega) negative x hne hdigits v]
  cases hread : fromStrRadix (if negative = true then '-' :: x else x) radix with
  | ok w | error e => simp [Except.mapError]

end ChezziLang.Stdlib.Math
