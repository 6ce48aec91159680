/-
  `std.flag`: integers, against `strconv.ParseInt(s, 0, 64)` of Go.

  The code works on characters and Go on the bytes of the same text.  A text both could accept is
  ASCII, where the two readings are the same.

  Proved:
  * `splitBase_shape`, `Shape.goSplitBase_eq`: both sides find the same base and digits.
  * `scan_eq_spaced`, `goScan_eq_spaced`: on digits the two scans of the underscores agree.
  * `parseGoInt_ok_iff`, `goParseInt_ok_iff`: which texts each side accepts, and as what.
  * `parseGoInt_eq_go`: the two sides accept the same texts, as the same integers.
-/
import ChezziLang.Stdlib.ParseInt

namespace ChezziLang.Stdlib.Flag

open List Option Char

open Lib.I64 Math

/-! ## The code -/

/-- Every character is ASCII. -/
def Ascii (x : Text) : Prop := ∀ c ∈ x, c.toNat < 128

/-- `str.lower`.  Of a text that is not ASCII only this is used: its lower case is not made of
    hexadecimal digits and the letters of the prefixes alone. -/
structure Lowering where
  lower : Text → Text
  ascii : ∀ x, Ascii x → lower x = x.map Char.toLower
  other : ∀ x, ¬ Ascii x → ∃ c ∈ lower x, c ∉ "0123456789abcdefxo".toList

/-- What the scan of the underscores has seen last. -/
inductive Saw where
  | start
  | digit
  | underscore
  | other
  deriving DecidableEq, Repr

/-- The scan of the underscores: none if one does not follow a digit. -/
def scan (base : Nat) : Saw → Text → Option Saw
  | saw, [] => some saw
  | saw, c :: cs =>
    if c = '_' then if saw ≠ .digit then none else scan base .underscore cs
    else if c ∈ "0123456789abcdefABCDEF".toList ∧ (base = 16 ∨ c ∈ "0123456789".toList) then
      scan base .digit cs
    else scan base .other cs

/-- The base, the digits, and whether there is a prefix. -/
def splitBase (L : Lowering) (body : Text) : Nat × Text × Bool :=
  if body.head? = some '0' then
    let p := if body.length ≥ 3 then L.lower (slice body 1 2) else []
    if p = ['x'] then (16, body.drop 2, true)
    else if p = ['o'] then (8, body.drop 2, true)
    else if p = ['b'] then (2, body.drop 2, true)
    else (8, body.drop 1, false)
  else (10, body, false)

/-- Whether the scan passes. -/
def underscoresOk (base : Nat) (body digits : Text) (hasPrefix : Bool) : Bool :=
  let saw := if hasPrefix then scan base .digit digits else scan base .start body
  saw.any (· ≠ .underscore)

/-- `_parse_go_int`. -/
def parseGoInt (L : Lowering) (s : Text) : Except String Int :=
  let bad := quoted "cannot parse '" s "' as an integer"
  let sign := signText (s.head? = some '-')
  let body := if s.head? = some '-' ∨ s.head? = some '+' then s.drop 1 else s
  let (base, digits, hasPrefix) := splitBase L body
  if '_' ∈ body ∧ ¬ underscoresOk base body digits hasPrefix then .error bad
  else
    let clean := digits.filter (· ≠ '_')
    if clean = [] then
      if body.head? = some '0' ∧ ¬ hasPrefix then .ok 0 else .error bad
    else
      let valid := "0123456789abcdef".toList.take base
      if (L.lower clean).any fun c => c ∉ valid then .error bad
      else (parseIntBase (sign ++ clean) base).mapError fun _ =>
        quoted "'" s "' overflows i64 (range -9223372036854775808..=9223372036854775807)"

/-! ## Go -/

/-- The bytes of a text. -/
def bytes (x : Text) : List Nat := x.flatMap fun c => (String.utf8EncodeChar c).map UInt8.toNat

inductive GoError where
  | badSyntax
  | range
  deriving DecidableEq, Repr

/-- `lower(c) = c | ('x' - 'X')`. -/
def goLower (c : Nat) : Nat := c ||| 0x20

/-- The base and the digits, as `ParseUint` finds them. -/
def goSplitBase (s : List Nat) : Nat × List Nat :=
  if s.head? = some '0'.toNat then
    let letter := if s.length ≥ 3 then s[1]?.map goLower else none
    if letter = some 'b'.toNat then (2, s.drop 2)
    else if letter = some 'o'.toNat then (8, s.drop 2)
    else if letter = some 'x'.toNat then (16, s.drop 2)
    else (8, s.drop 1)
  else (10, s)

/-- The value of a byte as a digit. -/
def goDigit (c : Nat) : Option Nat :=
  if '0'.toNat ≤ c ∧ c ≤ '9'.toNat then some (c - '0'.toNat)
  else if 'a'.toNat ≤ goLower c ∧ goLower c ≤ 'z'.toNat then some (goLower c - 'a'.toNat + 10)
  else none

/-- The loop of `ParseUint` for `bitSize` 64, with its `uint64` arithmetic. -/
def goLoop (base : Nat) : List Nat → Nat → Bool → Except GoError (Nat × Bool)
  | [], n, underscores => .ok (n, underscores)
  | c :: cs, n, underscores =>
    if c = '_'.toNat then goLoop base cs n true
    else
      match goDigit c with
      | none => .error .badSyntax
      | some d =>
        if d ≥ base then .error .badSyntax
        else if n ≥ (2 ^ 64 - 1) / base + 1 then .error .range
        else
          let n := n * base % 2 ^ 64
          let n1 := (n + d) % 2 ^ 64
          if n1 < n then .error .range else goLoop base cs n1 underscores

/-- The loop of `underscoreOK`. -/
def goScan (hex : Bool) : Saw → List Nat → Bool
  | saw, [] => saw ≠ .underscore
  | saw, c :: cs =>
    if '0'.toNat ≤ c ∧ c ≤ '9'.toNat ∨
        hex ∧ 'a'.toNat ≤ goLower c ∧ goLower c ≤ 'f'.toNat then
      goScan hex .digit cs
    else if c = '_'.toNat then if saw ≠ .digit then false else goScan hex .underscore cs
    else if saw = .underscore then false
    else goScan hex .other cs

section

variable (s : List Nat)

/-- The letter after a leading zero, as `underscoreOK` looks for a prefix. -/
def goLetter : Option Nat :=
  if s.length ≥ 2 ∧ s.head? = some '0'.toNat then s[1]?.map goLower else none

/-- `underscoreOK`. -/
def goUnderscoreOK : Bool :=
  let s := if s.head? = some '-'.toNat ∨ s.head? = some '+'.toNat then s.drop 1 else s
  let letter := goLetter s
  if letter = some 'b'.toNat ∨ letter = some 'o'.toNat ∨ letter = some 'x'.toNat then
    goScan (letter = some 'x'.toNat) .digit (s.drop 2)
  else goScan false .start s

/-- `ParseUint(s, 0, 64)`. -/
def goParseUint : Except GoError Nat :=
  if s = [] then .error .badSyntax
  else do
    let (n, underscores) ← goLoop (goSplitBase s).1 (goSplitBase s).2 0 false
    if underscores ∧ ¬ goUnderscoreOK s then .error .badSyntax else .ok n

/-- `ParseInt(s, 0, 64)`.  A range error of `ParseUint` comes with the largest `uint64`, which is
    a range error here too. -/
def goParseInt : Except GoError Int :=
  if s = [] then .error .badSyntax
  else do
    let negative := s.head? = some '-'.toNat
    let un ← goParseUint
      (if s.head? = some '-'.toNat ∨ s.head? = some '+'.toNat then s.drop 1 else s)
    if ¬ negative ∧ un ≥ 2 ^ 63 then .error .range
    else if negative ∧ un > 2 ^ 63 then .error .range
    else
      let n := (un : Int).bmod (2 ^ 64)
      .ok (if negative then (-n).bmod (2 ^ 64) else n)

end

/-! ## Characters and bytes -/

variable {x : Text} {c : Char} {base : Nat}

theorem bytes_ascii (h : Ascii x) : bytes x = x.map toNat := by
  induction x with
  | nil => rfl
  | cons c x ih =>
    obtain ⟨hc, hx⟩ := forall_mem_cons.mp h
    have hval : c.val.toNat ≤ 127 := Nat.le_of_lt_succ hc
    have hsmall : UInt8.toNat (UInt8.ofNat c.val.toNat) = c.toNat := by
      rw [UInt8.toNat_ofNat']
      exact Nat.mod_eq_of_lt (by omega)
    rw [bytes, flatMap_cons, String.utf8EncodeChar, if_pos hval, map_singleton, hsmall,
      map_cons, ← ih hx]
    rfl

/-- A character that is not ASCII has a byte that is not. -/
theorem exists_byte (hc : ¬ c.toNat < 128) :
    ∃ b ∈ (String.utf8EncodeChar c).map UInt8.toNat, ¬ b < 128 := by
  have hval : ¬ c.val.toNat ≤ 127 := fun h => hc (Nat.lt_succ_of_le h)
  have hlast : (UInt8.ofNat (c.val.toNat % 64 + 128)).toNat = c.val.toNat % 64 + 128 := by
    rw [UInt8.toNat_ofNat']
    exact Nat.mod_eq_of_lt (by omega)
  refine ⟨_, mem_map_of_mem (a := UInt8.ofNat (c.val.toNat % 64 + 128)) ?_, ?_⟩
  · unfold String.utf8EncodeChar
    rw [if_neg hval]
    split_ifs <;> simp
  · rw [hlast]
    omega

theorem ascii_of_bytes (h : ∀ b ∈ bytes x, b < 128) : Ascii x := by
  intro c hc
  by_contra hge
  obtain ⟨b, hb, hbig⟩ := exists_byte hge
  exact hbig (h b (mem_flatMap.mpr ⟨c, hc, hb⟩))

theorem goDigit_eq (hc : c.toNat < 128) : goDigit c.toNat = digit36 c :=
  forall_ascii (P := fun c => goDigit c.toNat = digit36 c) (by decide) hc

theorem le_goLower (c) : c ≤ goLower c := Nat.left_le_or

theorem lt_of_goDigit {c d} (h : goDigit c = some d) : c < 128 := by
  have hle := le_goLower c
  unfold goDigit at h
  split_ifs at h with h0 h1
  · exact h0.2.trans_lt (by decide)
  · exact (Nat.le_trans hle h1.2).trans_lt (by decide)

/-! ## The base -/

/-- The letter of a prefix, and its base. -/
def Letter (l : Char) (base : Nat) : Prop :=
  l.toLower = 'x' ∧ base = 16 ∨ l.toLower = 'o' ∧ base = 8 ∨ l.toLower = 'b' ∧ base = 2

/-- How a text without its sign falls into a base and digits. -/
inductive Shape : Text → Nat → Text → Bool → Prop
  | based {l : Char} {base : Nat} {rest : Text} (hletter : Letter l base) (hrest : rest ≠ []) :
      Shape ('0' :: l :: rest) base rest true
  | octal {rest : Text} (hrest : ∀ l r, rest = l :: r → r ≠ [] → ∀ base, ¬ Letter l base) :
      Shape ('0' :: rest) 8 rest false
  | decimal {body : Text} (hhead : body.head? ≠ some '0') : Shape body 10 body false

theorem toLower_ascii {l : Char} (h : l.toLower.toNat < 128) : l.toNat < 128 := by
  by_contra hge
  have hsame : l.toLower = l := by
    unfold toLower
    rw [dif_neg]
    rintro ⟨_, hle⟩
    have hle : l.toNat ≤ 'Z'.toNat := hle
    exact hge (hle.trans_lt (by decide))
  rw [hsame] at h
  exact hge h

/-- A letter of a prefix is found by `str.lower`. -/
theorem lower_singleton (L : Lowering) {l t : Char}
    (ht : t ∈ "0123456789abcdefxo".toList ∧ t.toNat < 128) :
    L.lower [l] = [t] ↔ l.toLower = t := by
  by_cases hl : l.toNat < 128
  · rw [L.ascii [l] (by simpa [Ascii] using hl), map_singleton, singleton_inj]
  constructor
  · intro h
    obtain ⟨c, hc, hnot⟩ := L.other [l] (by simpa [Ascii] using hl)
    rw [h, mem_singleton] at hc
    subst hc
    exact absurd ht.1 hnot
  · rintro rfl
    exact absurd (toLower_ascii ht.2) hl

theorem splitBase_shape (L : Lowering) (body) :
    Shape body (splitBase L body).1 (splitBase L body).2.1 (splitBase L body).2.2 := by
  have hx := fun l => @lower_singleton L l 'x' (by decide)
  have ho := fun l => @lower_singleton L l 'o' (by decide)
  have hb := fun l => @lower_singleton L l 'b' (by decide)
  unfold splitBase
  by_cases hhead : body.head? = some '0'
  · obtain ⟨rest, rfl⟩ := head?_eq_some_iff.mp hhead
    rw [if_pos hhead]
    rcases rest with _ | ⟨l, rest⟩
    · exact .octal fun _ _ h => nomatch h
    by_cases hrest : rest = []
    · subst hrest
      refine .octal fun l' r h hr => ?_
      cases h
      exact absurd rfl hr
    have hlen : ('0' :: l :: rest).length ≥ 3 := by
      have := length_pos_iff.mpr hrest
      simp only [length_cons]
      omega
    have hslice : slice ('0' :: l :: rest) 1 2 = [l] := rfl
    rw [if_pos hlen, hslice]
    simp only [hx, ho, hb]
    split_ifs with h1 h2 h3
    · exact .based (.inl ⟨h1, rfl⟩) hrest
    · exact .based (.inr (.inl ⟨h2, rfl⟩)) hrest
    · exact .based (.inr (.inr ⟨h3, rfl⟩)) hrest
    · refine .octal fun l' r h _ base => ?_
      cases h
      rintro (⟨h, _⟩ | ⟨h, _⟩ | ⟨h, _⟩)
      · exact h1 h
      · exact h2 h
      · exact h3 h
  · rw [if_neg hhead]
    exact .decimal hhead

/-- The letters as Go sees them. -/
theorem goLower_iff {l : Char} (hl : l.toNat < 128) :
    (goLower l.toNat = 'x'.toNat ↔ l.toLower = 'x') ∧
      (goLower l.toNat = 'o'.toNat ↔ l.toLower = 'o') ∧
      (goLower l.toNat = 'b'.toNat ↔ l.toLower = 'b') :=
  forall_ascii (P := fun l => (goLower l.toNat = 'x'.toNat ↔ l.toLower = 'x') ∧
    (goLower l.toNat = 'o'.toNat ↔ l.toLower = 'o') ∧
    (goLower l.toNat = 'b'.toNat ↔ l.toLower = 'b')) (by decide) hl

theorem head?_map_toNat : (x.map toNat).head? = some c.toNat ↔ x.head? = some c := by
  rw [head?_map, map_eq_some_iff]
  constructor
  · rintro ⟨b, hb, h⟩
    rw [hb, toNat_inj.mp h]
  · exact fun h => ⟨c, h, rfl⟩

theorem Shape.goSplitBase_eq {body digits : Text} {hasPrefix} (h : Shape body base digits hasPrefix)
    (hbody : Ascii body) : goSplitBase (body.map toNat) = (base, digits.map toNat) := by
  unfold goSplitBase
  cases h with
  | @based l _ _ hletter hrest =>
    have hl : l.toNat < 128 := hbody l (by simp)
    obtain ⟨hx, ho, hb⟩ := goLower_iff hl
    have hlen : (('0' :: l :: digits).map toNat).length ≥ 3 := by
      have := length_pos_iff.mpr hrest
      simp only [map_cons, length_cons, length_map]
      omega
    rw [if_pos (head?_map_toNat.mpr rfl)]
    rw [if_pos hlen]
    simp only [map_cons, getElem?_cons_succ, getElem?_cons_zero, map_some, some.injEq, hx, ho, hb]
    rcases hletter with ⟨h, rfl⟩ | ⟨h, rfl⟩ | ⟨h, rfl⟩ <;> rw [h] <;> rfl
  | octal hrest =>
    rw [if_pos (head?_map_toNat.mpr rfl)]
    dsimp only
    by_cases hlen : (('0' :: digits).map toNat).length ≥ 3
    · rcases digits with _ | ⟨l, r⟩
      · exact absurd hlen (by decide)
      have hl : l.toNat < 128 := hbody l (by simp)
      obtain ⟨hx, ho, hb⟩ := goLower_iff hl
      have hr : r ≠ [] := by
        rintro rfl
        exact absurd hlen (by simp)
      have hno := hrest l r rfl hr
      rw [if_pos hlen]
      simp only [map_cons, getElem?_cons_succ, getElem?_cons_zero,
        map_some, some.injEq, hx, ho, hb]
      rw [if_neg fun h => hno 2 (.inr (.inr ⟨h, rfl⟩)),
        if_neg fun h => hno 8 (.inr (.inl ⟨h, rfl⟩)),
        if_neg fun h => hno 16 (.inl ⟨h, rfl⟩)]
      rfl
    · rw [if_neg hlen]
      rfl
  | decimal hhead => rw [if_neg (mt head?_map_toNat.mp hhead)]

theorem Shape.base_cases {body digits hasPrefix} (h : Shape body base digits hasPrefix) :
    base = 2 ∨ base = 8 ∨ base = 10 ∨ base = 16 := by
  cases h with
  | based hletter => rcases hletter with ⟨_, rfl⟩ | ⟨_, rfl⟩ | ⟨_, rfl⟩ <;> omega
  | octal | decimal => omega

/-! ## The digits -/

/-- Every character that is no underscore is a digit of the base. -/
def Valid (base : Nat) (x : Text) : Prop := ∀ c ∈ x, c ≠ '_' → DigitOf base c

theorem Valid.ascii (h : Valid base x) : Ascii x := by
  intro c hc
  by_cases hu : c = '_'
  · subst hu
    decide
  · exact (h c hc hu).ascii

theorem valid_cons :
    Valid base (c :: x) ↔ (c ≠ '_' → DigitOf base c) ∧ Valid base x := forall_mem_cons

theorem valid_iff_clean : Valid base x ↔ ∀ c ∈ x.filter (· ≠ '_'), DigitOf base c := by
  simp only [Valid, mem_filter, decide_eq_true_eq, and_imp]

/-- The texts over which the code looks for a digit hold those of the base. -/
theorem scanned_of_digit (hbase : base = 16 ∨ base ≤ 10) (h : DigitOf base c) :
    c ∈ "0123456789abcdefABCDEF".toList ∧ (base = 16 ∨ c ∈ "0123456789".toList) := by
  obtain ⟨d, hd, hlt⟩ := h
  have hc := forall_ascii (P := fun c => ∀ d ∈ digit36 c,
    (d < 16 → c ∈ "0123456789abcdefABCDEF".toList) ∧ (d < 10 → c ∈ "0123456789".toList))
    (by decide) (ascii_of_digit36 hd) d hd
  rcases hbase with rfl | hle
  · exact ⟨hc.1 hlt, .inl rfl⟩
  · exact ⟨hc.1 (by omega), .inr (hc.2 (by omega))⟩

/-- And so do the bytes over which Go looks for one. -/
theorem goScanned_of_digit (hbase : base = 16 ∨ base ≤ 10) (h : DigitOf base c) :
    '0'.toNat ≤ c.toNat ∧ c.toNat ≤ '9'.toNat ∨
      decide (base = 16) = true ∧ 'a'.toNat ≤ goLower c.toNat ∧ goLower c.toNat ≤ 'f'.toNat := by
  obtain ⟨d, hd, hlt⟩ := h
  have hc := forall_ascii (P := fun c => ∀ d ∈ digit36 c,
    (d < 10 → '0'.toNat ≤ c.toNat ∧ c.toNat ≤ '9'.toNat) ∧
      (d < 16 → ¬ d < 10 → 'a'.toNat ≤ goLower c.toNat ∧ goLower c.toNat ≤ 'f'.toNat))
    (by decide) (ascii_of_digit36 hd) d hd
  by_cases hten : d < 10
  · exact .inl (hc.1 hten)
  · have hhex : base = 16 := by omega
    exact .inr ⟨decide_eq_true hhex, hc.2 (by omega) hten⟩

/-! ## The underscores -/

/-- Underscores stand after digits only, and not last. -/
def spaced : Saw → Text → Bool
  | saw, [] => saw ≠ .underscore
  | saw, c :: cs => if c = '_' then saw = .digit && spaced .underscore cs else spaced .digit cs

theorem spaced_underscores (hne : x ≠ []) (hx : ∀ c ∈ x, c = '_') :
    ∀ saw, spaced saw x = false := by
  induction x with
  | nil => exact absurd rfl hne
  | cons c x ih =>
    intro saw
    obtain ⟨hc, hx'⟩ := forall_mem_cons.mp hx
    rw [spaced, if_pos hc, Bool.and_eq_false_iff]
    right
    by_cases hnil : x = []
    · subst hnil
      rfl
    · exact ih hnil hx' .underscore

theorem scan_eq_spaced (hbase : base = 16 ∨ base ≤ 10) (hx : Valid base x) (saw) :
    (scan base saw x).any (· ≠ .underscore) = spaced saw x := by
  fun_induction spaced saw x with
  | case1 => rfl
  | case2 saw x ih =>
    rw [scan, if_pos rfl]
    by_cases hsaw : saw = .digit
    · rw [if_neg (not_not.mpr hsaw), ih (valid_cons.mp hx).2, decide_eq_true hsaw, Bool.true_and]
    · rw [if_pos hsaw, decide_eq_false hsaw, Bool.false_and]
      rfl
  | case3 saw c x hu ih =>
    obtain ⟨hc, hx⟩ := valid_cons.mp hx
    rw [scan, if_neg hu, if_pos (scanned_of_digit hbase (hc hu)), ih hx]

theorem goScan_eq_spaced (hbase : base = 16 ∨ base ≤ 10) (hx : Valid base x) (saw) :
    goScan (base = 16) saw (x.map toNat) = spaced saw x := by
  fun_induction spaced saw x with
  | case1 => rfl
  | case2 saw x ih =>
    have hdigit : ¬ ('0'.toNat ≤ '_'.toNat ∧ '_'.toNat ≤ '9'.toNat ∨ decide (base = 16) = true ∧
        'a'.toNat ≤ goLower '_'.toNat ∧ goLower '_'.toNat ≤ 'f'.toNat) := by
      rintro (h | ⟨_, h⟩)
      · exact absurd h (by decide)
      · exact absurd h (by decide)
    rw [map_cons, goScan, if_neg hdigit, if_pos rfl]
    by_cases hsaw : saw = .digit
    · rw [if_neg (not_not.mpr hsaw), ih (valid_cons.mp hx).2, decide_eq_true hsaw, Bool.true_and]
    · rw [if_pos hsaw, decide_eq_false hsaw, Bool.false_and]
  | case3 saw c x hu ih =>
    obtain ⟨hc, hx⟩ := valid_cons.mp hx
    rw [map_cons, goScan, if_pos (goScanned_of_digit hbase (hc hu)), ih hx]

/-- The underscores of a text stand where both sides allow them. -/
def spacedBody (body digits : Text) (hasPrefix : Bool) : Bool :=
  if hasPrefix then spaced .digit digits else spaced .start body

section

variable {body digits : Text} {base : Nat} {hasPrefix : Bool}

theorem Shape.scan_base (h : Shape body base digits hasPrefix) : base = 16 ∨ base ≤ 10 := by
  have := h.base_cases
  omega

theorem Shape.valid_body (h : Shape body base digits false) (hdigits : Valid base digits) :
    Valid base body := by
  cases h with
  | octal =>
    exact valid_cons.mpr ⟨fun _ => ⟨0, by decide, by decide⟩, hdigits⟩
  | decimal => exact hdigits

theorem Shape.underscoresOk_eq (h : Shape body base digits hasPrefix)
    (hdigits : Valid base digits) :
    underscoresOk base body digits hasPrefix = spacedBody body digits hasPrefix := by
  cases hasPrefix with
  | true => exact scan_eq_spaced h.scan_base hdigits .digit
  | false => exact scan_eq_spaced h.scan_base (h.valid_body hdigits) .start

/-- A digit or an underscore is no sign. -/
theorem Valid.head (hbody : Valid base body) :
    ¬ (body.head? = some '-' ∨ body.head? = some '+') := by
  rintro (h | h)
  · exact (hbody _ (mem_of_head? h) (by decide)).plain.2.2.2 rfl
  · exact (hbody _ (mem_of_head? h) (by decide)).plain.2.2.1 rfl

theorem goUnderscoreOK_unsigned {s : Text} (hs : ¬ (s.head? = some '-' ∨ s.head? = some '+'))
    {letter} (hletter : goLetter (s.map toNat) = letter) : goUnderscoreOK (s.map toNat) =
      if letter = some 'b'.toNat ∨ letter = some 'o'.toNat ∨ letter = some 'x'.toNat then
        goScan (letter = some 'x'.toNat) .digit ((s.map toNat).drop 2)
      else goScan false .start (s.map toNat) := by
  unfold goUnderscoreOK
  simp only [head?_map_toNat, if_neg hs, hletter]

theorem goLetter_zero (l) (x : Text) :
    goLetter (('0' :: l :: x).map toNat) = some (goLower l.toNat) :=
  if_pos ⟨by simp, rfl⟩

theorem Shape.goUnderscoreOK_eq (h : Shape body base digits hasPrefix)
    (hdigits : Valid base digits) (hbody : Ascii body) :
    goUnderscoreOK (body.map toNat) = spacedBody body digits hasPrefix := by
  cases h with
  | @based l _ _ hletter hrest =>
    obtain ⟨hx, ho, hb⟩ := goLower_iff (hbody l (by simp))
    have hscan := goScan_eq_spaced (Shape.based hletter hrest).scan_base hdigits .digit
    have hfound : l.toLower = 'b' ∨ l.toLower = 'o' ∨ l.toLower = 'x' := by
      rcases hletter with ⟨h, _⟩ | ⟨h, _⟩ | ⟨h, _⟩
      · exact .inr (.inr h)
      · exact .inr (.inl h)
      · exact .inl h
    have hhex : l.toLower = 'x' ↔ base = 16 := by
      rcases hletter with ⟨h, rfl⟩ | ⟨h, rfl⟩ | ⟨h, rfl⟩ <;> rw [h] <;> decide
    rw [goUnderscoreOK_unsigned (by simp) (goLetter_zero l digits)]
    simp only [some.injEq, hx, ho, hb]
    rw [if_pos hfound]
    simp only [hhex]
    exact hscan
  | octal hrest =>
    have hvalid := (Shape.octal hrest).valid_body hdigits
    have hscan := goScan_eq_spaced (.inr (by decide)) hvalid .start
    rcases digits with _ | ⟨l, r⟩
    · rfl
    obtain ⟨hx, ho, hb⟩ := goLower_iff (hbody l (by simp))
    -- an octal digit or an underscore is no letter of a prefix
    have hno : ¬ (l.toLower = 'b' ∨ l.toLower = 'o' ∨ l.toLower = 'x') := by
      intro hl
      obtain ⟨hu, hd⟩ := forall_ascii (P := fun l => l.toLower = 'b' ∨ l.toLower = 'o' ∨
        l.toLower = 'x' → l ≠ '_' ∧ ∀ d ∈ digit36 l, ¬ d < 8) (by decide) (hbody l (by simp)) hl
      obtain ⟨d, hsome, hlt⟩ := hdigits l mem_cons_self hu
      exact hd d hsome hlt
    rw [goUnderscoreOK_unsigned hvalid.head (goLetter_zero l r)]
    simp only [some.injEq, hx, ho, hb]
    rw [if_neg hno]
    exact hscan
  | decimal hhead =>
    have hscan := goScan_eq_spaced (.inr (Nat.le_refl 10)) hdigits .start
    have hletter : goLetter (body.map toNat) = none :=
      if_neg fun h => hhead (head?_map_toNat.mp h.2)
    rw [goUnderscoreOK_unsigned hdigits.head hletter, if_neg (by simp)]
    exact hscan

end

/-! ## What is accepted -/

/-- One digit more: the check for overflow is exact. -/
theorem goLoop_digit {n d c cs u} (hbase : base ≤ 36) (hc : c ≠ '_'.toNat)
    (hdigit : goDigit c = some d) (hd : d < base) : goLoop base (c :: cs) n u =
      if base * n + d < 2 ^ 64 then goLoop base cs (base * n + d) u else .error .range := by
  rw [goLoop, if_neg hc, hdigit]
  dsimp only
  rw [if_neg (by omega)]
  have hcutoff : n ≥ (2 ^ 64 - 1) / base + 1 ↔ 2 ^ 64 ≤ base * n := by
    rw [ge_iff_le, Nat.succ_le_iff, Nat.div_lt_iff_lt_mul (by omega), Nat.mul_comm]
    omega
  rw [Nat.mul_comm n base]
  by_cases hbig : 2 ^ 64 ≤ base * n
  · rw [if_pos (hcutoff.mpr hbig), if_neg (by omega)]
  rw [if_neg (mt hcutoff.mp hbig), Nat.mod_eq_of_lt (Nat.not_le.mp hbig)]
  by_cases hsum : base * n + d < 2 ^ 64
  · rw [Nat.mod_eq_of_lt hsum, if_neg (by omega), if_pos hsum]
  · rw [if_pos (by omega), if_neg hsum]

theorem goLoop_ok_iff {base} (hbase : 0 < base ∧ base ≤ 36) {x} (hx : Ascii x) {r} :
    ∀ n u, n < 2 ^ 64 → (goLoop base (x.map toNat) n u = .ok r ↔ Valid base x ∧
        valueFrom base n (x.filter (· ≠ '_')) < 2 ^ 64 ∧
        r = (valueFrom base n (x.filter (· ≠ '_')), u || '_' ∈ x)) := by
  induction x with
  | nil =>
    intro n u hn
    constructor
    · intro h
      cases h
      exact ⟨nofun, hn, by simp [valueFrom]⟩
    · rintro ⟨_, _, rfl⟩
      simp [goLoop, valueFrom]
  | cons c x ih =>
    intro n u hn
    obtain ⟨hc, hx'⟩ := forall_mem_cons.mp hx
    by_cases hu : c = '_'
    · subst hu
      have hvalid : Valid base ('_' :: x) ↔ Valid base x := by
        simp [Valid]
      rw [map_cons, goLoop, if_pos rfl, ih hx' n true hn, hvalid]
      simp
    · have hcode : c.toNat ≠ '_'.toNat := mt toNat_inj.mp hu
      have hclean : (c :: x).filter (· ≠ '_') = c :: x.filter (· ≠ '_') :=
        filter_cons_of_pos (decide_eq_true hu)
      have hvalid : Valid base (c :: x) ↔ DigitOf base c ∧ Valid base x := by
        simp [Valid, hu]
      have hmem : ('_' ∈ c :: x) = ('_' ∈ x) := by
        simp [mem_cons, Ne.symm hu]
      by_cases hdigit : DigitOf base c
      · obtain ⟨d, hd, hlt⟩ := hdigit
        have hvalue : valueFrom base n (c :: x.filter (· ≠ '_')) =
            valueFrom base (base * n + d) (x.filter (· ≠ '_')) := by
          rw [valueFrom, foldl_cons, hd]
          rfl
        have hgo : goDigit c.toNat = some d := (goDigit_eq hc).trans hd
        rw [map_cons, goLoop_digit hbase.2 hcode hgo hlt, hclean, hvalue, hvalid]
        simp only [hmem]
        by_cases hsum : base * n + d < 2 ^ 64
        · rw [if_pos hsum, ih hx' _ u hsum]
          exact ⟨fun h => ⟨⟨⟨d, hd, hlt⟩, h.1⟩, h.2⟩, fun h => ⟨h.1.2, h.2⟩⟩
        rw [if_neg hsum]
        constructor
        · exact nofun
        · rintro ⟨_, hsmall, _⟩
          have := le_valueFrom hbase.1 (x.filter (· ≠ '_')) (base * n + d)
          omega
      · constructor
        · intro h
          rw [map_cons, goLoop, if_neg hcode] at h
          split at h
          · cases h
          next d hd =>
          have hd : digit36 c = some d := (goDigit_eq hc).symm.trans hd
          rw [if_pos (Nat.not_lt.mp fun hlt => hdigit ⟨d, hd, hlt⟩)] at h
          cases h
        · exact fun h => absurd (hvalid.mp h.1).1 hdigit

theorem bind_eq_ok {ε α β : Type} {x : Except ε α} {f : α → Except ε β} {b} :
    (x >>= f) = .ok b ↔ ∃ a, x = .ok a ∧ f a = .ok b := by
  cases x <;> simp [bind, Except.bind]

theorem mapError_eq_ok {ε δ α : Type} {x : Except ε α} {f : ε → δ} {a} :
    x.mapError f = .ok a ↔ x = .ok a := by
  cases x <;> simp [Except.mapError]

/-- Which texts without their sign are accepted. -/
structure Accepted (base : Nat) (body digits : Text) (hasPrefix : Bool) : Prop where
  nonempty : body ≠ []
  valid : Valid base digits
  spaced : '_' ∈ digits → spacedBody body digits hasPrefix = true

section

variable {body digits : Text} {base : Nat} {hasPrefix : Bool}

theorem Shape.goParseUint_ok_iff (h : Shape body base digits hasPrefix) (hbody : Ascii body) {n} :
    goParseUint (body.map toNat) = .ok n ↔
      Accepted base body digits hasPrefix ∧ n = valueFrom base 0 (digits.filter (· ≠ '_')) ∧
        n < 2 ^ 64 := by
  have hbase := h.base_cases
  have hdigits : Ascii digits := by
    cases h with
    | based | octal => exact fun c hc => hbody c (by simp [hc])
    | decimal => exact hbody
  have hloop : ∀ r, _ := fun r =>
    @goLoop_ok_iff base (by omega) digits hdigits r 0 false (by decide)
  unfold goParseUint
  by_cases hnil : body = []
  · subst hnil
    exact ⟨nofun, fun h => absurd rfl h.1.nonempty⟩
  rw [if_neg (by simpa using hnil), h.goSplitBase_eq hbody, bind_eq_ok]
  simp only [hloop]
  constructor
  · rintro ⟨_, ⟨hvalid, hsmall, rfl⟩, hok⟩
    rw [h.goUnderscoreOK_eq hvalid hbody] at hok
    split_ifs at hok with hbad
    cases hok
    refine ⟨⟨hnil, hvalid, fun hmem => ?_⟩, rfl, hsmall⟩
    by_contra hspaced
    exact hbad ⟨by simpa using hmem, hspaced⟩
  · rintro ⟨⟨_, hvalid, hspaced⟩, rfl, hsmall⟩
    refine ⟨_, ⟨hvalid, hsmall, rfl⟩, ?_⟩
    rw [h.goUnderscoreOK_eq hvalid hbody, if_neg]
    rintro ⟨hmem, hbad⟩
    exact hbad (hspaced (by simpa using hmem))

end

/-- The digits the code accepts are those of the base. -/
theorem forall_lower_iff (L : Lowering) (hbase : base = 2 ∨ base = 8 ∨ base = 10 ∨ base = 16) (x) :
    (∀ c ∈ L.lower x, c ∈ "0123456789abcdef".toList.take base) ↔ ∀ c ∈ x, DigitOf base c := by
  have hdigit : ∀ c : Char, DigitOf base c ↔ (digit36 c).any (· < base) = true := by
    simp [DigitOf, Option.any_eq_true]
  by_cases hx : Ascii x
  · rw [L.ascii x hx, List.forall_mem_map]
    apply forall₂_congr
    intro c hc
    rw [hdigit]
    apply forall_ascii (P := fun c => c.toLower ∈ "0123456789abcdef".toList.take base ↔
      (digit36 c).any (· < base) = true) _ (hx c hc)
    rcases hbase with rfl | rfl | rfl | rfl <;> decide +kernel
  · constructor
    · intro h
      obtain ⟨c, hc, hnot⟩ := L.other x hx
      have hsub : ∀ c ∈ "0123456789abcdef".toList, c ∈ "0123456789abcdefxo".toList :=
        fun c hc => mem_append_left ['x', 'o'] hc
      exact absurd (hsub c (mem_of_mem_take (h c hc))) hnot
    · intro h
      exact absurd (fun c hc => (h c hc).ascii) hx

section

variable {body digits : Text} {base : Nat} {hasPrefix : Bool}

section

variable (h : Shape body base digits hasPrefix)
include h

theorem Shape.mem_underscore :
    '_' ∈ body ↔ '_' ∈ digits := by
  cases h with
  | @based l _ _ hletter =>
    have hl : '_' ≠ l := by
      rintro rfl
      rcases hletter with ⟨h, _⟩ | ⟨h, _⟩ | ⟨h, _⟩ <;> exact absurd h (by decide)
    simp [hl]
  | octal => simp
  | decimal => rfl

/-- Only a lone zero has no digits after its base. -/
theorem Shape.octal_of_clean_nil (haccepted : Accepted base body digits hasPrefix) (hclean :
    digits.filter (· ≠ '_') = []) :
    body.head? = some '0' ∧ hasPrefix = false := by
  have hall : ∀ c ∈ digits, c = '_' := by
    intro c hc
    by_contra hne
    exact not_mem_nil (hclean ▸ mem_filter.mpr ⟨hc, decide_eq_true hne⟩)
  have hmem : digits ≠ [] → '_' ∈ digits := by
    intro hne
    obtain ⟨c, x, rfl⟩ := exists_cons_of_ne_nil hne
    rw [← hall c mem_cons_self]
    exact mem_cons_self
  cases h with
  | based hletter hrest =>
    have hspaced := haccepted.spaced (hmem hrest)
    rw [spacedBody, if_pos rfl, spaced_underscores hrest hall] at hspaced
    cases hspaced
  | octal => exact ⟨rfl, rfl⟩
  | decimal =>
    have hspaced := haccepted.spaced (hmem haccepted.nonempty)
    rw [spacedBody, if_neg (by decide), spaced_underscores haccepted.nonempty hall] at hspaced
    cases hspaced

theorem Accepted.ascii (haccepted : Accepted base body digits hasPrefix) : Ascii body := by
  have hdigits := haccepted.valid.ascii
  cases h with
  | @based l _ _ hletter =>
    have hl : l.toNat < 128 := by
      apply toLower_ascii
      rcases hletter with ⟨h, _⟩ | ⟨h, _⟩ | ⟨h, _⟩ <;> rw [h] <;> decide
    exact forall_mem_cons.mpr ⟨by decide, forall_mem_cons.mpr ⟨hl, hdigits⟩⟩
  | octal => exact forall_mem_cons.mpr ⟨by decide, hdigits⟩
  | decimal => exact hdigits

end

end

/-- A text without its sign. -/
def unsigned (s : Text) : Text := if s.head? = some '-' ∨ s.head? = some '+' then s.drop 1 else s

/-- What a text is read as, if it is accepted and its value fits. -/
def ReadAs (L : Lowering) (s : Text) (v : Int) : Prop :=
  let (base, digits, hasPrefix) := splitBase L (unsigned s)
  Accepted base (unsigned s) digits hasPrefix ∧
    v = withSign (s.head? = some '-') (valueFrom base 0 (digits.filter (· ≠ '_'))) ∧ Fits v

theorem parseGoInt_ok_iff (L : Lowering) (s v) : parseGoInt L s = .ok v ↔ ReadAs L s v := by
  have hshape := splitBase_shape L (unsigned s)
  have hbody : (if s.head? = some '-' ∨ s.head? = some '+' then s.drop 1 else s) = unsigned s := rfl
  unfold parseGoInt ReadAs
  dsimp only
  rw [hbody]
  generalize splitBase L (unsigned s) = r at *
  generalize unsigned s = body at *
  obtain ⟨base, digits, hasPrefix⟩ := r
  dsimp only at hshape ⊢
  have hlower := forall_lower_iff L hshape.base_cases (digits.filter (· ≠ '_'))
  have hzero : withSign (s.head? = some '-') (valueFrom base 0 []) = 0 := by
    unfold withSign
    split <;> rfl
  generalize "0123456789abcdef".toList.take base = valid at hlower ⊢
  by_cases hdigits : Valid base digits
  swap
  · -- a character is no digit of the base
    refine iff_of_false ?_ fun h => hdigits h.1.valid
    have hclean : digits.filter (· ≠ '_') ≠ [] := by
      intro hnil
      rw [valid_iff_clean, hnil] at hdigits
      exact hdigits nofun
    have hany : ((L.lower (digits.filter (· ≠ '_'))).any fun c => c ∉ valid) = true := by
      rw [valid_iff_clean, ← hlower] at hdigits
      simpa using hdigits
    rw [if_neg hclean, if_pos hany, ite_self]
    exact nofun
  simp only [hshape.underscoresOk_eq hdigits, hshape.mem_underscore]
  by_cases hspaced : '_' ∈ digits ∧ ¬ spacedBody body digits hasPrefix = true
  · rw [if_pos hspaced]
    exact iff_of_false nofun fun h => hspaced.2 (h.1.spaced hspaced.1)
  rw [if_neg hspaced]
  have haccepted : body ≠ [] → Accepted base body digits hasPrefix := by
    refine fun hne => ⟨hne, hdigits, fun hmem => ?_⟩
    by_contra hbad
    exact hspaced ⟨hmem, hbad⟩
  by_cases hclean : digits.filter (· ≠ '_') = []
  · -- only zeros and underscores
    rw [if_pos hclean, hclean, hzero]
    constructor
    · intro h
      split_ifs at h with hlone
      cases h
      refine ⟨haccepted ?_, rfl, by decide⟩
      rintro rfl
      exact absurd hlone.1 (by decide)
    · rintro ⟨h, rfl, _⟩
      obtain ⟨hhead, hnone⟩ := hshape.octal_of_clean_nil h hclean
      rw [if_pos ⟨hhead, by simp [hnone]⟩]
  · have hne : body ≠ [] := by
      rintro rfl
      cases hshape
      exact hclean rfl
    have hclean' := valid_iff_clean.mp hdigits
    rw [if_neg hclean, if_neg (by simpa using hlower.mpr hclean'), mapError_eq_ok,
      parseIntBase_ok_iff hshape.base_cases hclean hclean', and_iff_right (haccepted hne)]

/-! ## Go's side -/

theorem bmod_of_fits {n} (h : Fits n) : n.bmod (2 ^ 64) = n := by
  unfold Fits at h
  exact Int.bmod_eq_of_le (by omega) (by omega)

/-- The last step of `ParseInt`: the sign, and the range of `int64`. -/
theorem goSigned_ok_iff {negative} [Decidable negative] {un : Nat} {v} :
    (if ¬ negative ∧ un ≥ 2 ^ 63 then .error .range
      else if negative ∧ un > 2 ^ 63 then .error .range
      else .ok (if negative then (-(un : Int).bmod (2 ^ 64)).bmod (2 ^ 64)
        else (un : Int).bmod (2 ^ 64)) : Except GoError Int) = .ok v ↔
      v = withSign (negative : Bool) un ∧ Fits v := by
  -- the checks find what does not fit, and what fits is not wrapped
  have hrange : ¬ negative ∧ un ≥ 2 ^ 63 ∨ negative ∧ un > 2 ^ 63 ↔
      ¬ Fits (withSign (negative : Bool) un) := by
    by_cases hneg : negative
    · simp [hneg, withSign, Fits]
      omega
    · simp [hneg, withSign, Fits]
  have hvalue (hfits : Fits (withSign (negative : Bool) un)) :
      (if negative then (-(un : Int).bmod (2 ^ 64)).bmod (2 ^ 64) else (un : Int).bmod (2 ^ 64)) =
        withSign (negative : Bool) un := by
    by_cases hneg : negative
    · simp only [hneg, withSign, decide_true, if_true] at hfits ⊢
      by_cases htop : un = 2 ^ 63
      · subst htop
        decide
      have hun : Fits (un : Int) := by
        unfold Fits at hfits ⊢
        omega
      rw [bmod_of_fits hun, bmod_of_fits hfits]
    · simp only [hneg, withSign, decide_false, Bool.false_eq_true, if_false] at hfits ⊢
      exact bmod_of_fits hfits
  rw [← ite_or, ite_cond_congr (propext hrange)]
  by_cases hfits : Fits (withSign (negative : Bool) un)
  · rw [if_neg (not_not.mpr hfits), hvalue hfits, Except.ok.injEq]
    exact ⟨fun h => ⟨h.symm, h ▸ hfits⟩, fun h => h.1.symm⟩
  · rw [if_pos hfits]
    exact ⟨nofun, fun h => absurd (h.1 ▸ h.2) hfits⟩

theorem lt_of_fits_withSign {negative n} (h : Fits (withSign negative n)) : n < 2 ^ 64 := by
  unfold withSign Fits at h
  split at h <;> omega

theorem goParseInt_ok_iff (L) {s} (hs : Ascii s) (v) :
    goParseInt (s.map toNat) = .ok v ↔ ReadAs L s v := by
  have hshape := splitBase_shape L (unsigned s)
  have hbody : (if (s.map toNat).head? = some '-'.toNat ∨
      (s.map toNat).head? = some '+'.toNat then (s.map toNat).drop 1
      else s.map toNat) = (unsigned s).map toNat := by
    simp only [head?_map_toNat, unsigned, ← map_drop, apply_ite (map toNat)]
  have hascii : Ascii (unsigned s) := by
    unfold unsigned
    split
    · exact fun c hc => hs c (mem_of_mem_drop hc)
    · exact hs
  have huint : ∀ n, _ := fun n => hshape.goParseUint_ok_iff hascii (n := n)
  unfold goParseInt ReadAs
  by_cases hnil : s = []
  · subst hnil
    exact ⟨nofun, fun h => absurd rfl h.1.nonempty⟩
  rw [if_neg (by simpa using hnil), hbody, bind_eq_ok]
  simp only [head?_map_toNat, huint, goSigned_ok_iff]
  constructor
  · rintro ⟨_, ⟨haccepted, rfl, _⟩, hread⟩
    exact ⟨haccepted, hread⟩
  · rintro ⟨haccepted, hv, hfits⟩
    exact ⟨_, ⟨haccepted, rfl, lt_of_fits_withSign (hv ▸ hfits)⟩, hv, hfits⟩

/-! ## Only ASCII is accepted -/

theorem goLoop_lt {cs n u r} (h : goLoop base cs n u = .ok r) : ∀ c ∈ cs, c < 128 := by
  fun_induction goLoop base cs n u with
  | case1 => nofun
  | case2 cs n u ih => exact forall_mem_cons.mpr ⟨by decide, ih h⟩
  | case7 c cs n u hu d hd hbase hcut n1 n2 hwrap ih =>
    exact forall_mem_cons.mpr ⟨lt_of_goDigit hd, ih h⟩
  | _ => cases h

theorem goSplitBase_lt {s} (h : ∀ c ∈ (goSplitBase s).2, c < 128) : ∀ c ∈ s, c < 128 := by
  unfold goSplitBase at h
  by_cases hhead : s.head? = some '0'.toNat
  · obtain ⟨rest, rfl⟩ := head?_eq_some_iff.mp hhead
    rw [forall_mem_cons]
    refine ⟨by decide, ?_⟩
    rw [if_pos hhead] at h
    rcases rest with _ | ⟨l, rest⟩
    · exact nofun
    have hletter : ∀ t : Char, t.toNat < 128 → (if ('0'.toNat :: l :: rest).length ≥ 3 then
        ('0'.toNat :: l :: rest)[1]?.map goLower else none) = some t.toNat → l < 128 := by
      intro t ht hl
      split_ifs at hl
      have hl : goLower l = t.toNat := some.inj hl
      exact (le_goLower l).trans_lt (hl ▸ ht)
    dsimp only at h
    rw [forall_mem_cons]
    generalize (if ('0'.toNat :: l :: rest).length ≥ 3 then
      ('0'.toNat :: l :: rest)[1]?.map goLower else none) = letter at h hletter
    split_ifs at h with hb ho hx
    · exact ⟨hletter 'b' (by decide) hb, h⟩
    · exact ⟨hletter 'o' (by decide) ho, h⟩
    · exact ⟨hletter 'x' (by decide) hx, h⟩
    · exact forall_mem_cons.mp h
  · rw [if_neg hhead] at h
    exact h

theorem goParseUint_lt {s n} (h : goParseUint s = .ok n) : ∀ c ∈ s, c < 128 := by
  unfold goParseUint at h
  split_ifs at h
  obtain ⟨r, hloop, _⟩ := bind_eq_ok.mp h
  exact goSplitBase_lt (goLoop_lt hloop)

/-- A sign before a text changes nothing. -/
theorem forall_of_unsigned {α : Type} [DecidableEq α] {p : α → Prop} {s : List α} {a b} (ha : p a)
    (hb : p b) (h : ∀ c ∈ (if s.head? = some a ∨ s.head? = some b then s.drop 1 else s), p c) :
    ∀ c ∈ s, p c := by
  split at h
  · next hsign =>
    rcases s with _ | ⟨c, s⟩
    · exact nofun
    · refine forall_mem_cons.mpr ⟨?_, h⟩
      rcases hsign with h | h <;> cases h <;> assumption
  · exact h

theorem ascii_of_goParseInt {s v} (h : goParseInt (bytes s) = .ok v) : Ascii s := by
  apply ascii_of_bytes
  have hnil : bytes s ≠ [] := by
    intro hnil
    rw [hnil] at h
    cases h
  rw [goParseInt, if_neg hnil] at h
  obtain ⟨un, hread, _⟩ := bind_eq_ok.mp h
  exact forall_of_unsigned (by decide) (by decide) (goParseUint_lt hread)

theorem ReadAs.ascii {L s v} (h : ReadAs L s v) : Ascii s :=
  forall_of_unsigned (by decide) (by decide)
    (Accepted.ascii (splitBase_shape L (unsigned s)) h.1)

/-- **Integers as Go reads them.**  Whatever `str.lower` does outside ASCII, the code accepts the
    texts `ParseInt(s, 0, 64)` accepts, as the same integers. -/
theorem parseGoInt_eq_go (L : Lowering) (s : Text) (v : Int) :
    parseGoInt L s = .ok v ↔ goParseInt (bytes s) = .ok v := by
  constructor
  · intro h
    have hread := (parseGoInt_ok_iff L s v).mp h
    rw [bytes_ascii hread.ascii]
    exact (goParseInt_ok_iff L hread.ascii v).mpr hread
  intro h
  have hs := ascii_of_goParseInt h
  rw [bytes_ascii hs] at h
  exact (parseGoInt_ok_iff L s v).mpr ((goParseInt_ok_iff L hs v).mp h)

/-- The lower case of the host for ASCII, which keeps all other characters. -/
def asciiLowering : Lowering where
  lower x := x.map Char.toLower
  ascii _ _ := rfl
  other x hx := by
    simp only [Ascii, not_forall] at hx
    obtain ⟨c, hc, hbig⟩ := hx
    refine ⟨c.toLower, mem_map_of_mem hc, fun hmem => hbig (toLower_ascii ?_)⟩
    revert hmem
    generalize c.toLower = t
    intro hmem
    have hall : ("0123456789abcdefxo".toList.all fun t => t.toNat < 128) = true := by decide
    exact decide_eq_true_iff.mp (all_eq_true.mp hall t hmem)

example : parseGoInt asciiLowering "-0x8000_0000_0000_0000".toList =
    .ok (-9223372036854775808) := by decide

example : goParseInt (bytes "0_17".toList) = .ok 15 := by decide

end ChezziLang.Stdlib.Flag
