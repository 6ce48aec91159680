/-
  What `parse` accepts.

  `Res.Post` is the contract of a parsing function: it ends with a result that satisfies the
  postcondition or with an error value, and neither faults nor runs out of fuel.  `Took`
  says what a function has consumed.  With enough fuel for what is left of the input, every
  function of the parser takes a part of a document.

  Proved:
  * `parseValue_post` - `parse_value` takes whitespace and a document within the limits.
  * `parse_accepts`   - `parse` never faults, and succeeds with a tree exactly when its input
    is a document of that tree within the limits.
-/
import ChezziLang.Json.Grammar
import Mathlib.Data.List.TakeWhile

namespace ChezziLang.JsonText

open Lib List JsonText.Parser Doc

/-! ## Contracts -/

/-- A result that satisfies `Q`, or an error value. -/
def Res.Post {α : Type} (r : Res α) (Q : α → Parser → Prop) : Prop :=
  match r with
  | .ok a p => Q a p
  | .err _ => True
  | .fault _ => False
  | .stuck => False

theorem Res.Post.andThen {α β} {r : Res α} {k} {P : α → Parser → Prop} {Q : β → Parser → Prop}
    (h : r.Post P) (hk : ∀ a p, P a p → (k a p).Post Q) : (r.andThen k).Post Q := by
  cases r with
  | ok a p => exact hk a p h
  | err m => exact trivial
  | fault m | stuck => exact h

theorem Res.Post.mono {α} {r : Res α} {P Q} (h : r.Post P) (hPQ : ∀ a p, P a p → Q a p) :
    r.Post Q := by
  cases r with
  | ok a p => exact hPQ a p h
  | err m => exact trivial
  | fault m | stuck => exact h

/-- A check that ends with an error value. -/
theorem Res.Post.check {α} {c m} [Decidable c] {r : Res α} {Q} (h : ¬ c → r.Post Q) :
    (if c then .err m else r).Post Q := by
  split
  · exact trivial
  · next hc => exact h hc

/-- The cursor has moved over `t`. -/
def Took (p : Parser) (t : Text) (p' : Parser) : Prop :=
  p' = p.advance t.length ∧ p.rest = t ++ p'.rest

variable {p p' : Parser}

namespace Took

theorem nil (p) : Took p [] p := ⟨rfl, rfl⟩

theorem trans {p'' t u} (h : Took p t p') (h' : Took p' u p'') : Took p (t ++ u) p'' := by
  obtain ⟨rfl, hrest⟩ := h
  obtain ⟨rfl, hrest'⟩ := h'
  refine ⟨?_, ?_⟩
  · rw [advance_advance, length_append]
  · rw [append_assoc, ← hrest', ← hrest]

theorem char {c} (h : p.peek = some c) : Took p [c] (p.advance 1) := by
  refine ⟨rfl, ?_⟩
  rw [p.peek_eq] at h
  obtain ⟨t, ht⟩ := head?_eq_some_iff.mp h
  rw [p.rest_advance, ht]
  rfl

theorem chars {c d} (h : p.peek = some c) (h' : (p.advance 1).peek = some d) :
    Took p [c, d] (p.advance 2) := by
  have htook := (char h).trans (char h')
  rwa [advance_advance] at htook

theorem depth {t} (h : Took p t p') : p'.depth = p.depth := by
  rw [h.1, advance_depth]

theorem src {t} (h : Took p t p') : p'.src = p.src := by
  rw [h.1, advance_src]

/-- What is left gets shorter by what was taken. -/
theorem length {t} (h : Took p t p') : p.rest.length = t.length + p'.rest.length := by
  rw [h.2, length_append]

theorem slice {t} (h : Took p t p') : JsonText.slice p'.src p.pos p'.pos = t := by
  rw [h.src, h.1, advance_pos, slice_rest, h.2, take_left]

/-- The longest run of codepoints that satisfy `f`. -/
theorem run (p f) : Took p (p.rest.takeWhile f) (p.advance (p.rest.takeWhile f).length) := by
  refine ⟨rfl, ?_⟩
  rw [p.rest_advance]
  exact (prefix_iff_eq_append.mp ( takeWhile_prefix f)).symm

theorem down {t} (h : Took p.down t p') : Took p t p'.up := by
  obtain ⟨rfl, hrest⟩ := h
  exact ⟨rfl, hrest⟩

end Took

theorem isWs_iff {c} : isWs c = true ↔ c = ' ' ∨ c = '\t' ∨ c = '\n' ∨ c = '\r' := by
  simp only [isWs, Bool.or_eq_true, decide_eq_true_eq, or_assoc]

theorem took_skipWs (p) : ∃ w : Ws, Took p w p.skipWs :=
  ⟨⟨p.rest.takeWhile isWs, fun _ hc => isWs_iff.mp (mem_takeWhile_imp hc)⟩, Took.run p isWs⟩

/-! ## Words and strings -/

theorem litLoop_post (word val start left p) :
    (litLoop word val start left p).Post fun j p' => j = val ∧ Took p left p' := by
  induction left generalizing p with
  | nil => exact ⟨rfl, Took.nil p⟩
  | cons c left ih =>
    rw [litLoop]
    refine .check fun h => (ih (p.advance 1)).mono ?_
    rintro j p' ⟨hj, htook⟩
    exact ⟨hj, (Took.char (not_not.mp h)).trans htook⟩

/-- A codepoint in a range, by its distance from the first. -/
theorem char_of_between {a b c} (h : a ≤ c ∧ c ≤ b) :
    ∃ k, c = Char.ofNat (a.toNat + k) ∧ c.toNat - a.toNat = k ∧ k ≤ b.toNat - a.toNat := by
  change a.toNat ≤ c.toNat ∧ c.toNat ≤ b.toNat at h
  refine ⟨c.toNat - a.toNat, ?_, rfl, by omega⟩
  rw [Nat.add_sub_cancel' h.1, Char.ofNat_toNat]

theorem char_decimal : ∀ k : Fin 10,
    Char.ofNat ('0'.toNat + k) = HexDigit.char ⟨k.castLE (by decide), false⟩ := by
  decide

theorem char_lower : ∀ k : Fin 6,
    Char.ofNat ('a'.toNat + k) = HexDigit.char ⟨k.addNat 10, false⟩ := by
  decide

theorem char_upper : ∀ k : Fin 6,
    Char.ofNat ('A'.toNat + k) = HexDigit.char ⟨k.addNat 10, true⟩ := by
  decide

/-- What `hex_val` accepts is a hex digit. -/
theorem hexVal_sound {c d} (h : hexVal c = .ok d) :
    ∃ digit : HexDigit, c = some digit.char ∧ digit.value = d := by
  cases c with
  | none => cases h
  | some c =>
    unfold hexVal at h
    dsimp only at h
    split at h
    case isTrue hrange =>
      obtain ⟨k, rfl, hk, hle⟩ := char_of_between hrange
      injection h with h
      exact ⟨_, congrArg some (char_decimal ⟨k, Nat.lt_succ_of_le hle⟩), hk.symm.trans h⟩
    case isFalse =>
    split at h
    case isTrue hrange =>
      obtain ⟨k, rfl, hk, hle⟩ := char_of_between hrange
      injection h with h
      refine ⟨_, congrArg some (char_lower ⟨k, Nat.lt_succ_of_le hle⟩), ?_⟩
      rw [← h, hk]
      rfl
    case isFalse =>
    split at h
    case isTrue hrange =>
      obtain ⟨k, rfl, hk, hle⟩ := char_of_between hrange
      injection h with h
      refine ⟨_, congrArg some (char_upper ⟨k, Nat.lt_succ_of_le hle⟩), ?_⟩
      rw [← h, hk]
      rfl
    case isFalse => cases h

theorem hex4Loop_post (left n p) :
    (hex4Loop left n p).Post fun m p' => ∃ digits : List HexDigit, digits.length = left ∧
      m = digits.foldl (fun n h => n * 16 + h.value.val) n ∧
      Took p (digits.map HexDigit.char) p' := by
  induction left generalizing n p with
  | zero => exact ⟨[], rfl, rfl, Took.nil p⟩
  | succ left ih =>
    rw [hex4Loop]
    split
    · next d hd =>
      obtain ⟨digit, hpeek, rfl⟩ := hexVal_sound hd
      refine (ih _ (p.advance 1)).mono ?_
      rintro m p' ⟨digits, hlen, hm, htook⟩
      exact ⟨digit :: digits, by rw [length_cons, hlen], hm, (Took.char hpeek).trans htook⟩
    · exact trivial

theorem parseHex4_post (p) :
    (parseHex4 p).Post fun n p' => ∃ q : HexQuad, q.value = n ∧ Took p q.text p' := by
  refine (hex4Loop_post 4 0 p).mono ?_
  rintro n p' ⟨digits, hlen, rfl, htook⟩
  match digits, hlen with
  | [a, b, c, d], _ =>
    refine ⟨⟨a, b, c, d⟩, ?_, htook⟩
    simp only [HexQuad.value, foldl_cons, foldl_nil]
    omega

theorem parseUnicode_post (p) : (parseUnicode p).Post fun t p' => ∃ (part : StrPart) (u : Text),
      t = [part.char] ∧ part.text = '\\' :: 'u' :: u ∧ Took p u p' := by
  refine (parseHex4_post p).andThen ?_
  rintro hi p1 ⟨q, rfl, hq⟩
  have hlt := q.value_lt
  split_ifs with hhigh hslash hu hlow
  · exact trivial
  · exact trivial
  · have htook := Took.chars (not_not.mp hslash) (not_not.mp hu)
    refine (parseHex4_post _).andThen ?_
    rintro lo p2 ⟨q', rfl, hq'⟩
    refine .check fun hlow => ?_
    have hlow' : q'.IsLow := by
      unfold HexQuad.IsLow
      omega
    rw [chr_valid (by omega)]
    exact ⟨.pair q q' hhigh hlow', _, rfl, rfl, hq.trans (htook.trans hq')⟩
  · exact trivial
  · rw [chr_valid (by omega)]
    exact ⟨.unicode q hhigh hlow, _, rfl, rfl, hq⟩

/-- An escape is a part of a string. -/
theorem parseEscape_post (h : p.peek = some '\\') :
    (parseEscape (p.advance 1).peek (p.advance 2)).Post fun t p' =>
      ∃ part : StrPart, t = [part.char] ∧ Took p part.text p' := by
  generalize he : (p.advance 1).peek = e
  unfold parseEscape
  split
  iterate 8 · exact ⟨.short _ _ rfl, rfl, Took.chars h he⟩
  · refine (parseUnicode_post _).mono ?_
    rintro t p' ⟨part, u, ht, hpart, hu⟩
    refine ⟨part, ht, ?_⟩
    rw [hpart]
    exact (Took.chars h he).trans hu
  · exact trivial

/-- The loop of `parse_string` takes parts up to a closing quote. -/
theorem stringLoop_post (openQuote fuel parts) {run} (hfuel : p.rest.length < fuel)
    (hrun : run ≤ p.pos) :
    (stringLoop openQuote fuel parts run p).Post fun s p' => ∃ ps : List StrPart,
      Took p (ps.flatMap StrPart.text ++ ['"']) p' ∧
      s = parts.flatten ++ (slice p.src run p.pos ++ strValue ps) := by
  induction fuel generalizing parts run p with
  | zero => exact absurd hfuel (Nat.not_lt_zero _)
  | succ fuel ih =>
    rw [stringLoop]
    split
    · exact trivial
    next c hpeek =>
    have hchar := Took.char hpeek
    have hlen := hchar.length
    rw [length_singleton] at hlen
    split_ifs with hquote hslash hctl
    · rw [hquote] at hchar
      refine ⟨[], hchar, ?_⟩
      rw [flatten_pushRun]
      exact congrArg _ (append_nil _).symm
    · rw [hslash] at hpeek
      refine (parseEscape_post hpeek).andThen ?_
      rintro t p1 ⟨part, rfl, htook⟩
      have hlen1 := htook.length
      have hpos := part.readsAs.length_pos
      refine (ih _ (by omega) le_rfl).mono ?_
      rintro s p' ⟨ps, htook', rfl⟩
      refine ⟨part :: ps, ?_, ?_⟩
      · rw [flatMap_cons, append_assoc]
        exact htook.trans htook'
      · rw [slice_self, flatten_append, flatten_pushRun]
        simp [strValue]
    · exact trivial
    · have hplain : Plain c := ⟨Nat.le_of_not_lt hctl, hquote, hslash⟩
      refine (ih parts (by omega) (by rw [advance_pos]; omega)).mono ?_
      rintro s p' ⟨ps, htook, rfl⟩
      refine ⟨.plain c hplain :: ps, ?_, ?_⟩
      · rw [flatMap_cons, append_assoc]
        exact hchar.trans htook
      · rw [advance_src, advance_pos, slice_succ hpeek hrun]
        simp [strValue, StrPart.char]

theorem parseString_post (h : p.peek = some '"') :
    (parseString p).Post fun s p' => ∃ ps : List StrPart, s = strValue ps ∧
      Took p (strText ps) p' := by
  have hquote := Took.char h
  have hlen : (p.advance 1).rest.length < p.src.length + 1 := by
    unfold rest
    rw [length_drop, advance_src]
    omega
  refine (stringLoop_post p.pos _ [] hlen le_rfl).mono ?_
  rintro s p' ⟨ps, htook, rfl⟩
  refine ⟨ps, ?_, hquote.trans htook⟩
  rw [advance_src, advance_pos, slice_self]
  rfl

/-! ## Numerals -/

/-- What `while is_digit(peek())` takes. -/
theorem took_digitRun (p) : ∃ ds : Text, Took p ds (p.advance (digitRun p)) ∧
    ds.length = digitRun p ∧ (∀ c ∈ ds, isDigit (some c) = true) ∧
    (ds ≠ [] → ds.head? = p.peek) := by
  refine ⟨_, Took.run p fun c => isDigit (some c), rfl, ?_, ?_⟩
  · intro c hc
    exact mem_takeWhile_imp (p := fun c => isDigit (some c)) hc
  intro hne
  rw [p.peek_eq]
  cases hrest : p.rest with
  | nil => rw [hrest] at hne; exact absurd rfl hne
  | cons c t =>
    rw [hrest, takeWhile_cons] at hne
    rw [takeWhile_cons]
    split at hne
    · next hc => rw [if_pos hc]; rfl
    · exact absurd rfl hne

/-- The fraction of a numeral, if there is one. -/
theorem parseFraction_post (p) :
    (parseFraction p).Post fun has p' => ∃ t : Text, Took p t p' ∧ has = !t.isEmpty ∧
      (t = [] ∨ ∃ ds, Digits ds ∧ t = '.' :: ds) := by
  unfold parseFraction
  split
  case isTrue hdot =>
    obtain ⟨ds, htook, hlen, hdigits, -⟩ := took_digitRun (p.advance 1)
    refine .check fun hne => ?_
    have hds : ds ≠ [] := fun h => hne (by rw [← hlen, h]; rfl)
    exact ⟨'.' :: ds, (Took.char hdot).trans htook, rfl, .inr ⟨ds, ⟨hds, hdigits⟩, rfl⟩⟩
  case isFalse => exact ⟨[], Took.nil p, rfl, .inl rfl⟩

/-- The exponent of a numeral, if there is one. -/
theorem parseExponent_post (p) :
    (parseExponent p).Post fun has p' => ∃ t : Text, Took p t p' ∧ has = !t.isEmpty ∧
      (t = [] ∨ ∃ e s ds, (e = 'e' ∨ e = 'E') ∧ (s = [] ∨ s = ['+'] ∨ s = ['-']) ∧
        Digits ds ∧ t = e :: (s ++ ds)) := by
  unfold parseExponent
  split
  case isTrue hexp =>
    obtain ⟨e, he, htook⟩ : ∃ e, (e = 'e' ∨ e = 'E') ∧ Took p [e] (p.advance 1) := by
      rcases hexp with h | h
      · exact ⟨'e', .inl rfl, Took.char h⟩
      · exact ⟨'E', .inr rfl, Took.char h⟩
    obtain ⟨s, hs, hsign⟩ : ∃ s, (s = [] ∨ s = ['+'] ∨ s = ['-']) ∧ Took (p.advance 1) s
        (if (p.advance 1).peek = some '+' ∨ (p.advance 1).peek = some '-'
          then (p.advance 1).advance 1 else p.advance 1) := by
      split
      case isTrue h =>
        rcases h with h | h
        · exact ⟨['+'], .inr (.inl rfl), Took.char h⟩
        · exact ⟨['-'], .inr (.inr rfl), Took.char h⟩
      case isFalse => exact ⟨[], .inl rfl, Took.nil _⟩
    dsimp only
    generalize (if (p.advance 1).peek = some '+' ∨ (p.advance 1).peek = some '-'
      then (p.advance 1).advance 1 else p.advance 1) = q at hsign
    obtain ⟨ds, hrun, hlen, hdigits, -⟩ := took_digitRun q
    refine .check fun hne => ?_
    have hds : ds ≠ [] := fun h => hne (by rw [← hlen, h]; rfl)
    exact ⟨e :: (s ++ ds), htook.trans (hsign.trans hrun), rfl,
      .inr ⟨e, s, ds, he, hs, ⟨hds, hdigits⟩, rfl⟩⟩
  case isFalse => exact ⟨[], Took.nil p, rfl, .inl rfl⟩

/-- Integers that fit are finite as floats. -/
def FloatText.ReadsInts (ft : FloatText) : Prop :=
  ∀ n : Numeral, n.isInt = true → (I64.checked n.intValue).isSome = true → n.Finite ft

theorem numFloat_post (ft) (n : Numeral) (start p) :
    (numFloat ft n.text start p).Post fun j p' => p' = p ∧ j = n.float ft ∧ n.Finite ft := by
  unfold numFloat
  split
  · exact trivial
  next f hread =>
  refine .check fun hfin => ⟨rfl, ?_, f, hread, Bool.eq_false_iff.mpr hfin⟩
  rw [Numeral.float, hread]
  rfl

/-- `parse_number` takes a numeral. -/
theorem parseNumber_post {ft} (hft : ft.ReadsInts) (p : Parser) :
    (parseNumber ft p).Post fun j p' => ∃ n : Numeral, Took p n.text p' ∧ n.Finite ft ∧
      j = n.denote ft := by
  obtain ⟨sign, hsign, htook⟩ : ∃ s, (s = [] ∨ s = ['-']) ∧
      Took p s (if p.peek = some '-' then p.advance 1 else p) := by
    split
    case isTrue h => exact ⟨['-'], .inr rfl, Took.char h⟩
    case isFalse => exact ⟨[], .inl rfl, Took.nil p⟩
  unfold parseNumber
  dsimp only
  generalize (if p.peek = some '-' then p.advance 1 else p) = q at htook
  obtain ⟨int, hrun, hlen, hdigits, hhead⟩ := took_digitRun q
  refine .check fun hne => .check fun hzero => ?_
  have hint : int ≠ [] := fun h => hne (by rw [← hlen, h]; rfl)
  have hint_ok : Digits int ∧ (int.head? = some '0' → int.length = 1) := by
    refine ⟨⟨hint, hdigits⟩, fun h0 => ?_⟩
    have hpos := length_pos_iff.mpr hint
    have hle : ¬ digitRun q > 1 := fun hgt => hzero ⟨(hhead hint).symm.trans h0, hgt⟩
    omega
  refine (parseFraction_post _).andThen ?_
  rintro hasFrac p1 ⟨frac, hfrac, rfl, hfrac_ok⟩
  refine (parseExponent_post _).andThen ?_
  rintro hasExp p2 ⟨exp, hexp, rfl, hexp_ok⟩
  let n : Numeral := ⟨sign, int, frac, exp, hsign, hint_ok, hfrac_ok, hexp_ok⟩
  have hall : Took p n.text p2 := htook.trans (hrun.trans (hfrac.trans hexp))
  have hraw : slice p2.src p.pos p2.pos = n.text := hall.slice
  have hisInt : (!!frac.isEmpty && !!exp.isEmpty) = n.isInt := by
    rw [Bool.not_not, Bool.not_not]
    rfl
  rw [hraw, hisInt]
  split
  case isTrue hint' =>
    rw [n.toInt_text hint']
    split
    · next i hi =>
      refine ⟨n, hall, hft n hint' (by rw [hi]; rfl), ?_⟩
      rw [Numeral.denote, if_pos hint', hi]
      rfl
    next hi =>
    refine (numFloat_post ft n p.pos p2).mono ?_
    rintro j p' ⟨rfl, rfl, hfin⟩
    refine ⟨n, hall, hfin, ?_⟩
    rw [Numeral.denote, if_pos hint', hi]
    rfl
  case isFalse hint' =>
    refine (numFloat_post ft n p.pos p2).mono ?_
    rintro j p' ⟨rfl, rfl, hfin⟩
    refine ⟨n, hall, hfin, ?_⟩
    rw [Numeral.denote, if_neg hint']

/-! ## Values -/

def Ws.append (w w' : Ws) : Ws :=
  ⟨w ++ w', fun c hc => (List.mem_append.mp hc).elim (w.property c) (w'.property c)⟩

section

variable (ft : FloatText)

/-- A document within the limits, read at a depth. -/
structure Fits (depth : Nat) (d : Doc) : Prop where
  finite : d.Finite ft
  nest : depth + d.nest ≤ maxNestDepth

/-- `parse_value` takes whitespace and a document. -/
def ValuePost (fuel : Nat) : Prop :=
  ∀ p : Parser, 3 * p.rest.length + 1 ≤ fuel → p.depth ≤ maxNestDepth →
    (parseValue ft fuel p).Post fun j p' => ∃ (w : Ws) (d : Doc),
      Took p (w ++ d.text) p' ∧ Fits ft p.depth d ∧ j = d.denote ft

/-- A function called at an opening bracket takes a document. -/
def ContainerPost (parse : Parser → Res Json) (bracket : Char) (fuel : Nat) :
    Prop :=
  ∀ p : Parser, p.peek = some bracket → 3 * p.rest.length ≤ fuel →
    (parse p).Post fun j p' => ∃ d : Doc,
      Took p d.text p' ∧ Fits ft p.depth d ∧ j = d.denote ft

/-- The loop of `parse_array` takes items up to the closing bracket. -/
def ArrayLoopPost (fuel : Nat) : Prop :=
  ∀ (items : List Json) (p : Parser), 3 * p.rest.length + 2 ≤ fuel → p.depth ≤ maxNestDepth →
    (arrayLoop ft fuel items p).Post fun j p' =>
      ∃ (before : Ws) (d : Doc) (after : Ws) (rest : List (Ws × Doc × Ws)) (q : Parser),
        Took p (before ++ (d.text ++ (after ++ (Doc.textItems rest ++ [']'])))) q ∧ p' = q.up ∧
        Fits ft p.depth d ∧ Doc.FiniteItems ft rest ∧
        p.depth + Doc.nestItems rest ≤ maxNestDepth ∧
        j = .arr (items ++ d.denote ft :: Doc.denoteItems ft rest)

/-- The loop of `parse_object` takes members up to the closing brace. -/
def ObjectLoopPost (fuel : Nat) : Prop :=
  ∀ (m : List (Text × Json)) (p : Parser), 3 * p.rest.length + 2 ≤ fuel →
    p.depth ≤ maxNestDepth →
    (objectLoop ft fuel m p).Post fun j p' =>
      ∃ (label : Label) (d : Doc) (after : Ws) (rest : List (Label × Doc × Ws)) (q : Parser),
        Took p (label.text ++ (d.text ++ (after ++ (Doc.textMembers rest ++ ['\x7d'])))) q ∧
        p' = q.up ∧ Fits ft p.depth d ∧ Doc.FiniteMembers ft rest ∧
        p.depth + Doc.nestMembers rest ≤ maxNestDepth ∧
        j = .obj (setKeys m ((strValue label.key, d.denote ft) :: Doc.denoteMembers ft rest))

end

variable {ft : FloatText} {fuel : Nat}

/-- A document without containers. -/
theorem fits_scalar {d depth} (hdepth : depth ≤ maxNestDepth) (hfin : d.Finite ft)
    (hnest : d.nest = 0) : Fits ft depth d :=
  ⟨hfin, by rw [hnest]; exact hdepth⟩

theorem valuePost_succ (hft : ft.ReadsInts)
    (harr : ContainerPost ft (parseArray ft fuel) '[' fuel)
    (hobj : ContainerPost ft (parseObject ft fuel) '\x7b' fuel) : ValuePost ft (fuel + 1) := by
  intro p hfuel hdepth
  obtain ⟨w, hw⟩ := took_skipWs p
  have hlen := hw.length
  have hdepth' : p.skipWs.depth = p.depth := hw.depth
  have hdoc {r : Res Json} (h : r.Post fun j p' => ∃ d : Doc,
      Took p.skipWs d.text p' ∧ Fits ft p.skipWs.depth d ∧ j = d.denote ft) :
      r.Post fun j p' => ∃ (w : Ws) (d : Doc),
        Took p (w ++ d.text) p' ∧ Fits ft p.depth d ∧ j = d.denote ft := by
    refine h.mono ?_
    rintro j p' ⟨d, htook, hfits, hj⟩
    rw [hdepth'] at hfits
    exact ⟨w, d, hw.trans htook, hfits, hj⟩
  have hlit {word : String} {val : Json} (d : Doc) (htext : d.text = word.toList)
      (hval : val = d.denote ft) (hfin : d.Finite ft) (hnest : d.nest = 0) :
      (parseLit word val p.skipWs).Post fun j p' => ∃ d : Doc,
        Took p.skipWs d.text p' ∧ Fits ft p.skipWs.depth d ∧ j = d.denote ft := by
    refine (litLoop_post _ _ _ _ _).mono ?_
    rintro j p' ⟨rfl, htook⟩
    rw [← htext] at htook
    exact ⟨d, htook, fits_scalar (by omega) hfin hnest, hval⟩
  rw [parseValue]
  split
  · exact trivial
  next c hpeek =>
  apply hdoc
  split_ifs with hbrace hbracket hquote
  · exact hobj _ (by rw [hpeek, hbrace]) (by omega)
  · exact harr _ (by rw [hpeek, hbracket]) (by omega)
  · rw [hquote] at hpeek
    refine (parseString_post hpeek).andThen ?_
    rintro s p' ⟨parts, rfl, htook⟩
    exact ⟨.string parts, htook, fits_scalar (by omega) trivial rfl, rfl⟩
  · exact hlit (.bool true) rfl rfl trivial rfl
  · exact hlit (.bool false) rfl rfl trivial rfl
  · exact hlit .null rfl rfl trivial rfl
  · refine (parseNumber_post hft _).mono ?_
    rintro j p' ⟨n, htook, hfin, hj⟩
    exact ⟨.number n, htook, fits_scalar (by omega) hfin rfl, hj⟩
  · exact trivial

/-- An opening bracket and the whitespace after it, one level further down. -/
theorem took_open {c} (h : p.peek = some c) : let q := (p.down.advance 1).skipWs
    ∃ w : Ws, Took p.down (c :: w) q ∧ q.rest.length < p.rest.length ∧ q.depth = p.depth + 1 := by
  have hopen : Took p.down [c] (p.down.advance 1) := Took.char h
  obtain ⟨w, hw⟩ := took_skipWs (p.down.advance 1)
  have hall := hopen.trans hw
  have hlen : p.rest.length = _ := hall.length
  rw [length_append, length_singleton] at hlen
  exact ⟨w, hall, by omega, hall.depth⟩

theorem arrayPost_succ (hloop : ArrayLoopPost ft fuel) :
    ContainerPost ft (parseArray ft (fuel + 1)) '[' (fuel + 1) := by
  intro p hpeek hfuel
  obtain ⟨w, hw, hlen, hdown⟩ := took_open hpeek
  rw [parseArray]
  refine .check fun hdepth => ?_
  change ¬ p.depth + 1 > maxNestDepth at hdepth
  dsimp only
  split
  case isTrue hclose =>
    exact ⟨.emptyArr w, (hw.trans (Took.char hclose)).down, ⟨trivial, by simp [nest]; omega⟩, rfl⟩
  case isFalse =>
    refine (hloop [] (p.down.advance 1).skipWs (by omega) (by omega)).mono ?_
    rintro j p' ⟨before, d, after, rest, q, htook, rfl, hfits, hfin, hnest, rfl⟩
    rw [hdown] at hfits hnest
    have hd := hfits.nest
    refine ⟨.arr (w.append before) d after rest, ?_, ⟨⟨hfits.finite, hfin⟩, ?_⟩, rfl⟩
    · have hall := (hw.trans htook).down
      simpa only [text, Ws.append, cons_append, append_assoc] using hall
    · simp only [nest]
      omega

theorem objectPost_succ (hloop : ObjectLoopPost ft fuel) :
    ContainerPost ft (parseObject ft (fuel + 1)) '\x7b' (fuel + 1) := by
  intro p hpeek hfuel
  obtain ⟨w, hw, hlen, hdown⟩ := took_open hpeek
  rw [parseObject]
  refine .check fun hdepth => ?_
  change ¬ p.depth + 1 > maxNestDepth at hdepth
  dsimp only
  split
  case isTrue hclose =>
    exact ⟨.emptyObj w, (hw.trans (Took.char hclose)).down, ⟨trivial, by simp [nest]; omega⟩, rfl⟩
  case isFalse =>
    refine (hloop [] (p.down.advance 1).skipWs (by omega) (by omega)).mono ?_
    rintro j p' ⟨label, d, after, rest, q, htook, rfl, hfits, hfin, hnest, rfl⟩
    rw [hdown] at hfits hnest
    have hd := hfits.nest
    refine ⟨.obj { label with before := w.append label.before } d after rest, ?_,
      ⟨⟨hfits.finite, hfin⟩, ?_⟩, ?_⟩
    · have hall := (hw.trans htook).down
      simpa only [text, Label.text, Ws.append, cons_append, append_assoc] using hall
    · simp only [nest]
      omega
    · rw [setKeys_eq_lastWins]
      rfl

theorem arrayLoopPost_succ (hvalue : ValuePost ft fuel) (hloop : ArrayLoopPost ft fuel) :
    ArrayLoopPost ft (fuel + 1) := by
  intro items p hfuel hdepth
  rw [arrayLoop]
  refine (hvalue p (by omega) hdepth).andThen ?_
  rintro j p1 ⟨before, d, htook, hfits, rfl⟩
  obtain ⟨after, hafter⟩ := took_skipWs p1
  have hdepth1 : p1.skipWs.depth = p.depth := hafter.depth.trans htook.depth
  have hlen := (htook.trans hafter).length
  obtain ⟨c, t, hstart, -⟩ := d.starts
  have hpos : 1 ≤ d.text.length := by
    rw [hstart]
    exact Nat.succ_le_succ (Nat.zero_le _)
  dsimp only
  split
  case isTrue hclose =>
    refine ⟨before, d, after, [], _, ?_, rfl, hfits, trivial, hdepth, rfl⟩
    have hall := (htook.trans hafter).trans (Took.char hclose)
    simpa only [textItems, append_assoc, nil_append] using hall
  case isFalse =>
    refine .check fun hcomma => ?_
    have hnext := Took.char (not_not.mp hcomma)
    have hlen' := hnext.length
    rw [length_singleton] at hlen'
    refine (hloop _ _ (by omega) (by rw [advance_depth]; omega)).mono ?_
    rintro j p' ⟨before', d', after', rest, q, htook', rfl, hfits', hfin, hnest, rfl⟩
    rw [advance_depth, hdepth1] at hfits' hnest
    have hd' := hfits'.nest
    refine ⟨before, d, after, (before', d', after') :: rest, q, ?_, rfl, hfits,
      ⟨hfits'.finite, hfin⟩, ?_, ?_⟩
    · have hall := ((htook.trans hafter).trans hnext).trans htook'
      simpa only [textItems, append_assoc, cons_append, nil_append] using hall
    · simp only [nestItems]
      omega
    · simp only [denoteItems, append_assoc, cons_append, nil_append]

theorem objectLoopPost_succ (hvalue : ValuePost ft fuel) (hloop : ObjectLoopPost ft fuel) :
    ObjectLoopPost ft (fuel + 1) := by
  intro m p hfuel hdepth
  obtain ⟨before, hbefore⟩ := took_skipWs p
  rw [objectLoop]
  refine .check fun hquote => (parseString_post (not_not.mp hquote)).andThen ?_
  rintro key p1 ⟨parts, rfl, hkey⟩
  obtain ⟨afterKey, hafterKey⟩ := took_skipWs p1
  refine .check fun hcolon => ?_
  have hlabel := ((hbefore.trans hkey).trans hafterKey).trans (Took.char (not_not.mp hcolon))
  have hlen := hlabel.length
  have hdepth1 := hlabel.depth
  refine (hvalue _ (by omega) (by omega)).andThen ?_
  rintro j p2 ⟨beforeValue, d, htook, hfits, rfl⟩
  obtain ⟨after, hafter⟩ := took_skipWs p2
  rw [hdepth1] at hfits
  let label : Label := ⟨before, parts, afterKey, beforeValue⟩
  have hmember : Took p (label.text ++ (d.text ++ after)) p2.skipWs := by
    have hall := (hlabel.trans htook).trans hafter
    simpa only [Label.text, append_assoc, cons_append, nil_append] using hall
  have hdepth2 : p2.skipWs.depth = p.depth := hmember.depth
  have hlen2 := hmember.length
  dsimp only
  split
  case isTrue hclose =>
    refine ⟨label, d, after, [], _, ?_, rfl, hfits, trivial, hdepth, rfl⟩
    have hall := hmember.trans (Took.char hclose)
    simpa only [textMembers, append_assoc, nil_append] using hall
  case isFalse =>
    refine .check fun hcomma => ?_
    have hnext := Took.char (not_not.mp hcomma)
    have hlen' := hnext.length
    rw [length_singleton] at hlen'
    refine (hloop _ _ (by omega) (by rw [advance_depth]; omega)).mono ?_
    rintro j p' ⟨label', d', after', rest, q, htook', rfl, hfits', hfin, hnest, rfl⟩
    rw [advance_depth, hdepth2] at hfits' hnest
    have hd' := hfits'.nest
    refine ⟨label, d, after, (label', d', after') :: rest, q, ?_, rfl, hfits,
      ⟨hfits'.finite, hfin⟩, ?_, rfl⟩
    · have hall := (hmember.trans hnext).trans htook'
      simpa only [textMembers, append_assoc, cons_append, nil_append] using hall
    · simp only [nestMembers]
      omega

/-- Every function of the parser keeps its contract, by induction on the fuel. -/
theorem parser_post (hft : ft.ReadsInts) (fuel) :
    ValuePost ft fuel ∧ ContainerPost ft (parseArray ft fuel) '[' fuel ∧
      ContainerPost ft (parseObject ft fuel) '\x7b' fuel ∧ ArrayLoopPost ft fuel ∧
      ObjectLoopPost ft fuel := by
  induction fuel with
  | zero =>
    have hcontainer (parse : Parser → Res Json) (c : Char) : ContainerPost ft parse c 0 := by
      intro p hpeek hfuel
      have hlen := (Took.char hpeek).length
      rw [length_singleton] at hlen
      omega
    refine ⟨fun p h => ?_, hcontainer _ _, hcontainer _ _, fun xs p h => ?_, fun m p h => ?_⟩
    all_goals omega
  | succ fuel ih =>
    obtain ⟨hvalue, harr, hobj, harrLoop, hobjLoop⟩ := ih
    exact ⟨valuePost_succ hft harr hobj, arrayPost_succ harrLoop, objectPost_succ hobjLoop,
      arrayLoopPost_succ hvalue harrLoop, objectLoopPost_succ hvalue hobjLoop⟩

/-- **`parse_value` takes whitespace and a document within the limits**, and ends. -/
theorem parseValue_post (hft : ft.ReadsInts) : ValuePost ft fuel := (parser_post hft fuel).1

/-! ## Texts -/

/-- The string is a JSON text within the limits, and stands for the tree. -/
def IsText (ft : FloatText) (s : Text) (j : Json) : Prop :=
  ∃ (w : Ws) (d : Doc) (w' : Ws), s = w ++ (d.text ++ w') ∧ d.Finite ft ∧
    d.nest ≤ maxNestDepth ∧ d.denote ft = j

theorem parse_post (hft : ft.ReadsInts) (s) : (parse ft s).Post fun j _ => IsText ft s j := by
  have hrest : rest ⟨s, 0, 0⟩ = s := rfl
  refine (parseValue_post hft ⟨s, 0, 0⟩ (by rw [hrest]) (Nat.zero_le _)).andThen ?_
  rintro j p ⟨w, d, htook, hfits, rfl⟩
  obtain ⟨w', hw'⟩ := took_skipWs p
  have hall := htook.trans hw'
  refine .check fun hend => ?_
  have hnil : p.skipWs.rest = [] := drop_eq_nil_of_le (Nat.le_of_not_lt hend)
  have hs := hall.2
  rw [hrest, hnil, append_nil, append_assoc] at hs
  have hnest := hfits.nest
  exact ⟨w, d, w', hs, hfits.finite, by omega, rfl⟩

/-- A text is read to its end. -/
theorem parse_of_isText {s j} (h : IsText ft s j) : ∃ p, parse ft s = .ok j p := by
  obtain ⟨w, d, w', hs, hfin, hnest, rfl⟩ := h
  exact Reads.parse (d.reads hfin) hs hnest

/-- **What `parse` accepts**: it never faults and always ends, and it succeeds with a tree
    exactly when the string is a JSON text of that tree with paired surrogates, finite
    numerals and at most `MAX_NEST_DEPTH` nested containers. -/
theorem parse_accepts (ft : FloatText) (hft : ft.ReadsInts) (s : Text) :
    (∀ m, parse ft s ≠ .fault m) ∧ parse ft s ≠ .stuck ∧
      ∀ j, (∃ p, parse ft s = .ok j p) ↔ IsText ft s j := by
  have hpost := parse_post hft s
  refine ⟨fun m h => ?_, fun h => ?_, fun j => ⟨fun ⟨p, h⟩ => ?_, parse_of_isText⟩⟩
  all_goals
    rw [h] at hpost
    exact hpost

/-- A machine that reads every numeral as zero. -/
def zeroFloats : FloatText where
  render _ := ['0', '.', '0']
  read _ := some 0

theorem parse_accepts_zero :
    zeroFloats.ReadsInts ∧ (∀ m, parse zeroFloats ['[', '1', ' ', ']'] ≠ .fault m) ∧
      parse zeroFloats ['[', '1', ' ', ']'] ≠ .stuck ∧
      ∀ j, (∃ p, parse zeroFloats ['[', '1', ' ', ']'] = .ok j p) ↔
        IsText zeroFloats ['[', '1', ' ', ']'] j := by
  have hints : zeroFloats.ReadsInts := fun n _ _ => ⟨0, rfl, rfl⟩
  exact ⟨hints, parse_accepts zeroFloats hints ['[', '1', ' ', ']']⟩

end ChezziLang.JsonText
