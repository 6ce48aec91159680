/-
  How the parser reads strings and numerals.

  Proved:
  * `parseString_pieces`: a string is read as the codepoints of its pieces.
  * `parseNumber_numeral`: a numeral is read to its end and no further.
  * `parseValue_eq`: what `parse_value` does at a codepoint.
-/
import ChezziLang.Json.Basic
import Mathlib.Data.List.Basic

namespace ChezziLang.JsonText

open Lib List JsonText.Parser

/-! ## The cursor -/

theorem Parser.peek_eq (p : Parser) : p.peek = p.rest.head? := by
  unfold peek rest
  rw [head?_drop]

@[simp] theorem Parser.rest_advance (p : Parser) (n) : (p.advance n).rest = p.rest.drop n := by
  unfold rest advance
  rw [drop_drop]

@[simp] theorem Parser.advance_advance (p : Parser) (m n) :
    (p.advance m).advance n = p.advance (m + n) := by
  simp only [advance, Nat.add_assoc]

@[simp] theorem Parser.advance_src (p : Parser) (n) : (p.advance n).src = p.src := rfl

@[simp] theorem Parser.advance_pos (p : Parser) (n) : (p.advance n).pos = p.pos + n := rfl

@[simp] theorem Parser.advance_depth (p : Parser) (n) : (p.advance n).depth = p.depth := rfl

variable {t : Text} {p : Parser} {c : Char}

theorem Parser.peek_of_rest (h : p.rest = c :: t) : p.peek = some c := by
  rw [p.peek_eq, h]
  rfl

theorem Parser.rest_of_append {rest} (h : p.rest = t ++ rest) :
    (p.advance t.length).rest = rest := by
  rw [p.rest_advance, h, drop_left]

/-- Nothing to skip. -/
theorem Parser.skipWs_eq_self (h : p.rest = c :: t) (hc : isWs c = false) : p.skipWs = p := by
  unfold skipWs
  rw [h, takeWhile_cons_of_neg (by rw [hc]; decide)]
  rfl

theorem slice_rest (p : Parser) (n) : slice p.src p.pos (p.pos + n) = p.rest.take n := by
  unfold slice rest
  rw [drop_take, Nat.add_sub_cancel_left]

theorem slice_self (xs i) : slice xs i i = [] := by
  exact drop_eq_nil_of_le (length_take_le _ _)

/-- A run grows by the codepoint at its end. -/
theorem slice_succ {xs i j} (h : xs[j]? = some c) (hij : i ≤ j) :
    slice xs i (j + 1) = slice xs i j ++ [c] := by
  unfold slice
  obtain ⟨hj, -⟩ := List.getElem?_eq_some_iff.mp h
  have hlen : i ≤ (xs.take j).length := by
    rw [length_take]
    omega
  rw [take_add_one, h, drop_append_of_le_length hlen]
  rfl

theorem flatten_pushRun (parts cs run i) :
    (pushRun parts cs run i).flatten = parts.flatten ++ slice cs run i := by
  unfold pushRun
  split
  · rw [flatten_append, flatten_singleton]
  next h =>
  have hempty : slice cs run i = [] := by
    refine drop_eq_nil_of_le ?_
    rw [length_take]
    omega
  rw [hempty, append_nil]

/-! ## Strings -/

/-- A codepoint that is written as it is. -/
def Plain (c : Char) : Prop := c.toNat ≥ 32 ∧ c ≠ '"' ∧ c ≠ '\\'

instance : DecidablePred Plain := fun _ => inferInstanceAs (Decidable (_ ∧ _))

/-- The text `u` is read as the codepoint `c`. -/
def ReadsAs (c : Char) (u : Text) : Prop :=
  (Plain c ∧ u = [c]) ∨ ∀ {p : Parser} {t : Text}, p.rest = u ++ t →
    p.peek = some '\\' ∧
      parseEscape (p.advance 1).peek (p.advance 2) = .ok [c] (p.advance u.length)

theorem ReadsAs.length_pos {u} (h : ReadsAs c u) : 1 ≤ u.length := by
  rcases h with ⟨-, rfl⟩ | h
  · exact Nat.le_refl 1
  · cases u with
    | nil => cases (@h ⟨[], 0, 0⟩ [] rfl).1
    | cons d u => exact Nat.succ_le_succ (Nat.zero_le _)

/-- The loop reads its pieces, and stops at the closing quote. -/
theorem stringLoop_pieces (openQuote) (pieces : List (Char × Text))
    (hpieces : ∀ piece ∈ pieces, ReadsAs piece.1 piece.2) {fuel run parts}
    (h : p.rest = pieces.flatMap Prod.snd ++ '"' :: t) (hfuel : pieces.length < fuel)
    (hrun : run ≤ p.pos) : stringLoop openQuote fuel parts run p =
      .ok (parts.flatten ++ (slice p.src run p.pos ++ pieces.map Prod.fst))
        (p.advance ((pieces.flatMap Prod.snd).length + 1)) := by
  induction pieces generalizing fuel run parts p with
  | nil =>
    rcases fuel with _ | fuel
    · omega
    have hpeek : p.peek = some '"' := peek_of_rest h
    simp only [stringLoop, hpeek, if_true, flatten_pushRun]
    simp
  | cons piece pieces ih =>
    obtain ⟨c, u⟩ := piece
    rw [length_cons] at hfuel
    rcases fuel with _ | fuel
    · omega
    rw [flatMap_cons, append_assoc] at h
    rw [flatMap_cons, length_append]
    have htail : ∀ piece ∈ pieces, ReadsAs piece.1 piece.2 := (forall_mem_cons.mp hpieces).2
    have hrest : (p.advance u.length).rest = pieces.flatMap Prod.snd ++ '"' :: t := rest_of_append h
    have hpiece : ReadsAs c u := hpieces (c, u) mem_cons_self
    rcases hpiece with ⟨hc, rfl⟩ | hesc
    · -- a plain codepoint makes the run longer
      have hpeek : p.peek = some c := peek_of_rest h
      rw [length_singleton] at hrest
      simp only [stringLoop, hpeek, hc.2.1, hc.2.2, if_false,
        show ¬ c.toNat < 32 from Nat.not_lt.mpr hc.1]
      rw [ih htail hrest (by omega) (by simp; omega), p.advance_src, p.advance_pos,
        slice_succ hpeek hrun]
      simp only [append_assoc, singleton_append, advance_advance,
        length_singleton, Nat.add_assoc, map_cons]
    · -- an escape ends the run, and a new one begins after it
      obtain ⟨hpeek, hparse⟩ := hesc h
      simp only [stringLoop, hpeek, show ('\\' : Char) ≠ '"' by decide, if_false, if_true, hparse,
        Res.andThen]
      rw [ih htail hrest (by omega) le_rfl, slice_self, flatten_append, flatten_pushRun,
        flatten_singleton]
      simp only [append_assoc, nil_append, singleton_append,
        advance_advance, Nat.add_assoc, map_cons]

theorem length_le_flatMap_snd {pieces : List (Char × Text)}
    (hpieces : ∀ piece ∈ pieces, ReadsAs piece.1 piece.2) :
    pieces.length ≤ (pieces.flatMap Prod.snd).length := by
  induction pieces with
  | nil => exact Nat.le_refl 0
  | cons piece pieces ih =>
    have hpos := (hpieces piece mem_cons_self).length_pos
    have htail := ih (forall_mem_cons.mp hpieces).2
    rw [flatMap_cons, length_append, length_cons]
    omega

/-- **A string is read as its pieces.** -/
theorem parseString_pieces {pieces : List (Char × Text)}
    (hpieces : ∀ piece ∈ pieces, ReadsAs piece.1 piece.2)
    (h : p.rest = '"' :: (pieces.flatMap Prod.snd ++ '"' :: t)) :
    parseString p =
      .ok (pieces.map Prod.fst) (p.advance ((pieces.flatMap Prod.snd).length + 2)) := by
  have hrest : (p.advance 1).rest = pieces.flatMap Prod.snd ++ '"' :: t := by
    rw [p.rest_advance, h]
    rfl
  have hlen : pieces.length < p.src.length + 1 := by
    have hle := length_le_flatMap_snd hpieces
    have hsrc : p.rest.length ≤ p.src.length := by
      unfold rest
      rw [length_drop]
      omega
    rw [h, length_cons, length_append] at hsrc
    omega
  have hloop := @stringLoop_pieces _ _ p.pos pieces hpieces _ _ [] hrest hlen le_rfl
  rw [p.advance_pos] at hloop
  unfold parseString
  rw [hloop, slice_self]
  simp only [flatten_nil, nil_append, advance_advance]
  congr 2
  omega

/-! ## Numerals -/

/-- One digit or more. -/
def Digits (t : Text) : Prop := t ≠ [] ∧ ∀ c ∈ t, isDigit (some c) = true

/-- A JSON numeral, in its parts. -/
structure Numeral where
  sign : Text
  int : Text
  frac : Text
  exp : Text
  sign_ok : sign = [] ∨ sign = ['-']
  int_ok : Digits int ∧ (int.head? = some '0' → int.length = 1)
  frac_ok : frac = [] ∨ ∃ ds, Digits ds ∧ frac = '.' :: ds
  exp_ok : exp = [] ∨ ∃ e s ds, (e = 'e' ∨ e = 'E') ∧ (s = [] ∨ s = ['+'] ∨ s = ['-']) ∧
    Digits ds ∧ exp = e :: (s ++ ds)

def Numeral.text (n : Numeral) : Text := n.sign ++ (n.int ++ (n.frac ++ n.exp))

theorem digitRun_eq {ds} (h : p.rest = ds ++ t) (hds : ∀ c ∈ ds, isDigit (some c) = true)
    (ht : ∀ c, t.head? = some c → isDigit (some c) = false) : digitRun p = ds.length := by
  unfold digitRun
  rw [h, takeWhile_append_of_pos hds]
  cases t with
  | nil => simp
  | cons c t =>
    rw [takeWhile_cons_of_neg (by rw [ht c rfl]; decide)]
    simp

/-- The first codepoint of a text that may be empty, then of what follows it. -/
theorem head?_append_cases {a b : Text} (h : (a ++ b).head? = some c) :
    a.head? = some c ∨ (a = [] ∧ b.head? = some c) := by
  cases a with
  | nil => exact .inr ⟨rfl, h⟩
  | cons d a => exact .inl h

/-- What can follow a numeral: nothing that would make it longer. -/
def Stops (t : Text) : Prop :=
  ∀ c, t.head? = some c → isDigit (some c) = false ∧ c ≠ '.' ∧ c ≠ 'e' ∧ c ≠ 'E'

variable (n : Numeral)

theorem Numeral.exp_head (ht : Stops t) (h : (n.exp ++ t).head? = some c) :
    isDigit (some c) = false ∧ c ≠ '.' := by
  rcases head?_append_cases h with h | ⟨-, h⟩
  · rcases n.exp_ok with h0 | ⟨e, s, ds, he, -, -, heq⟩
    · rw [h0] at h
      cases h
    · rw [heq] at h
      cases h
      rcases he with rfl | rfl <;> decide
  · exact ⟨(ht c h).1, (ht c h).2.1⟩

theorem Numeral.frac_head (ht : Stops t) (h : (n.frac ++ (n.exp ++ t)).head? = some c) :
    isDigit (some c) = false := by
  rcases head?_append_cases h with h | ⟨-, h⟩
  · rcases n.frac_ok with h0 | ⟨ds, -, heq⟩
    · rw [h0] at h
      cases h
    · rw [heq] at h
      cases h
      decide
  · exact (n.exp_head ht h).1

theorem parseFraction_eq (h : p.rest = n.frac ++ (n.exp ++ t)) (ht : Stops t) :
    parseFraction p = .ok (!n.frac.isEmpty) (p.advance n.frac.length) := by
  unfold parseFraction
  rcases n.frac_ok with h0 | ⟨ds, hds, heq⟩
  · have hdot : p.peek ≠ some '.' := by
      intro hpeek
      rw [p.peek_eq, h, h0] at hpeek
      exact (n.exp_head ht hpeek).2 rfl
    rw [if_neg hdot, h0]
    rfl
  · rw [heq] at h ⊢
    have hrest : (p.advance 1).rest = ds ++ (n.exp ++ t) := by
      rw [p.rest_advance, h]
      rfl
    have hrun := digitRun_eq hrest hds.2 fun c hc => (n.exp_head ht hc).1
    have hne : ds.length ≠ 0 := fun h0 => hds.1 (eq_nil_of_length_eq_zero h0)
    rw [if_pos (peek_of_rest h)]
    simp only [hrun, if_neg hne, advance_advance, length_cons, Nat.add_comm 1]
    rfl

theorem parseExponent_eq (h : p.rest = n.exp ++ t) (ht : Stops t) :
    parseExponent p = .ok (!n.exp.isEmpty) (p.advance n.exp.length) := by
  unfold parseExponent
  rcases n.exp_ok with h0 | ⟨e, s, ds, he, hs, hds, heq⟩
  · have hpeek : ¬ (p.peek = some 'e' ∨ p.peek = some 'E') := by
      rw [p.peek_eq, h, h0, nil_append]
      rintro (hc | hc)
      · exact (ht _ hc).2.2.1 rfl
      · exact (ht _ hc).2.2.2 rfl
    rw [if_neg hpeek, h0]
    rfl
  · rw [heq] at h ⊢
    have hpeek : p.peek = some 'e' ∨ p.peek = some 'E' := by
      rw [peek_of_rest h]
      rcases he with rfl | rfl
      · exact .inl rfl
      · exact .inr rfl
    have hrest : (p.advance 1).rest = s ++ (ds ++ t) := by
      rw [p.rest_advance, h, cons_append, append_assoc]
      rfl
    -- the sign, if there is one, is passed over
    have hsign : (if (p.advance 1).peek = some '+' ∨ (p.advance 1).peek = some '-'
        then (p.advance 1).advance 1 else p.advance 1) = (p.advance 1).advance s.length := by
      rcases hs with rfl | rfl | rfl
      · obtain ⟨d, ds', rfl⟩ := exists_cons_of_ne_nil hds.1
        have hd := hds.2 d mem_cons_self
        rw [if_neg]
        · rfl
        · rw [peek_of_rest hrest]
          rintro (hc | hc) <;> cases hc <;> cases hd
      · rw [if_pos (.inl (peek_of_rest hrest))]
        rfl
      · rw [if_pos (.inr (peek_of_rest hrest))]
        rfl
    have hrun := digitRun_eq (rest_of_append hrest) hds.2 fun c hc => (ht c hc).1
    have hne : ds.length ≠ 0 := fun h0 => hds.1 (eq_nil_of_length_eq_zero h0)
    rw [if_pos hpeek]
    dsimp only
    rw [hsign, hrun, if_neg hne]
    simp only [advance_advance, length_cons, length_append]
    congr 2
    omega

/-- **A numeral is read to its end**, as an int when it has neither fraction nor exponent. -/
theorem parseNumber_numeral (ft) (n : Numeral) (h : p.rest = n.text ++ t) (ht : Stops t) :
    parseNumber ft p = if n.frac.isEmpty && n.exp.isEmpty then
        match toInt n.text with
        | some i => .ok (.int i) (p.advance n.text.length)
        | none => numFloat ft n.text p.pos (p.advance n.text.length)
      else numFloat ft n.text p.pos (p.advance n.text.length) := by
  have hraw : slice p.src p.pos (p.pos + n.text.length) = n.text := by
    rw [slice_rest, h, take_left]
  unfold Numeral.text at h
  simp only [append_assoc] at h
  have hsign : (if p.peek = some '-' then p.advance 1 else p) = p.advance n.sign.length := by
    obtain ⟨d, ds, hint⟩ := exists_cons_of_ne_nil n.int_ok.1.1
    rcases n.sign_ok with h0 | h1
    · have hd := n.int_ok.1.2 d (by rw [hint]; exact mem_cons_self)
      rw [h0, hint] at h
      rw [if_neg, h0]
      · rfl
      rw [peek_of_rest h]
      intro hc
      cases hc
      cases hd
    · rw [h1] at h
      rw [if_pos (peek_of_rest h), h1]
      rfl
  have hrest := rest_of_append h
  have hrun := digitRun_eq hrest n.int_ok.1.2 fun c hc => n.frac_head ht hc
  have hne : n.int.length ≠ 0 := fun h0 => n.int_ok.1.1 (eq_nil_of_length_eq_zero h0)
  have hzero : ¬ ((p.advance n.sign.length).peek = some '0' ∧ n.int.length > 1) := by
    rintro ⟨hpeek, hlong⟩
    rw [peek_eq, hrest] at hpeek
    rcases head?_append_cases hpeek with hc | ⟨hnil, -⟩
    · have := n.int_ok.2 hc
      omega
    · exact n.int_ok.1.1 hnil
  have hfrac := parseFraction_eq n (rest_of_append hrest) ht
  have hexp := parseExponent_eq n (rest_of_append (rest_of_append hrest)) ht
  have hlen : n.sign.length + n.int.length + n.frac.length + n.exp.length = n.text.length := by
    simp only [Numeral.text, length_append, Nat.add_assoc]
  simp only [advance_advance] at hfrac hexp
  simp only [parseNumber, hsign, hrun, if_neg hne, if_neg hzero, advance_advance, hfrac,
    Res.andThen, hexp, hlen, advance_src, advance_pos, hraw, Bool.not_not]
  all_goals rfl

/-- The value of a run of digits. -/
def digitsValue (ds : Text) : Nat := ds.foldl (fun n d => n * 10 + (d.toNat - '0'.toNat)) 0

/-! ## Values -/

/-- A text that can stand where a value is expected. -/
def Starts (t : Text) : Prop := ∃ c t', t = c :: t' ∧ Parser.isWs c = false ∧ c ≠ ']'

/-- The dispatch of `parse_value` on its first codepoint. -/
theorem parseValue_eq (ft) {fuel} (h : p.rest = c :: t) (hc : isWs c = false) :
    parseValue ft (fuel + 1) p = if c = '\x7b' then parseObject ft fuel p
      else if c = '[' then parseArray ft fuel p
      else if c = '"' then (parseString p).andThen fun s p => .ok (.str s) p
      else if c = 't' then parseLit "true" (.bool true) p
      else if c = 'f' then parseLit "false" (.bool false) p
      else if c = 'n' then parseLit "null" .null p
      else if c = '-' ∨ ('0' ≤ c ∧ c ≤ '9') then parseNumber ft p
      else .err (p.here ("unexpected character '" ++ charText (some c) ++ "'")) := by
  simp only [parseValue, skipWs_eq_self h hc, peek_of_rest h]

theorem litLoop_eq {word val start left} (h : p.rest = left ++ t) :
    litLoop word val start left p = .ok val (p.advance left.length) := by
  induction left generalizing p with
  | nil => rfl
  | cons c left ih =>
    have hrest : (p.advance 1).rest = left ++ t := by
      rw [p.rest_advance, h]
      rfl
    rw [litLoop, if_neg (by rw [peek_of_rest h]; simp), ih hrest, p.advance_advance,
      length_cons, Nat.add_comm 1]

/-- A numeral starts with a minus or a digit. -/
theorem Numeral.head : ∃ c t, n.text = c :: t ∧ (c = '-' ∨ isDigit (some c) = true) := by
  obtain ⟨d, ds, hint⟩ := exists_cons_of_ne_nil n.int_ok.1.1
  have hd := n.int_ok.1.2 d (by rw [hint]; exact mem_cons_self)
  unfold Numeral.text
  rcases n.sign_ok with h | h <;> rw [h, hint]
  · exact ⟨d, _, rfl, .inr hd⟩
  · exact ⟨'-', _, rfl, .inl rfl⟩

theorem number_starts (h : c = '-' ∨ isDigit (some c) = true) :
    isWs c = false ∧ c ≠ ']' ∧ c ≠ '\x7b' ∧ c ≠ '[' ∧ c ≠ '"' ∧ c ≠ 't' ∧ c ≠ 'f' ∧
      c ≠ 'n' ∧ (c = '-' ∨ ('0' ≤ c ∧ c ≤ '9')) := by
  rcases h with rfl | h
  · decide
  have hc : '0' ≤ c ∧ c ≤ '9' := by simpa [isDigit] using h
  have hne : ∀ d : Char, isDigit (some d) = false → c ≠ d := by
    rintro d hd rfl
    rw [h] at hd
    cases hd
  refine ⟨?_, hne _ rfl, hne _ rfl, hne _ rfl, hne _ rfl, hne _ rfl, hne _ rfl, hne _ rfl,
    .inr hc⟩
  simp only [isWs, Bool.or_eq_false_iff, decide_eq_false_iff_not]
  exact ⟨⟨⟨hne _ rfl, hne _ rfl⟩, hne _ rfl⟩, hne _ rfl⟩

/-- Enter a container. -/
def Parser.down (p : Parser) : Parser := { p with depth := p.depth + 1 }

theorem Parser.up_advance_down (p : Parser) (n) : (p.down.advance n).up = p.advance n := rfl

end ChezziLang.JsonText
