/-
  The grammar of JSON texts, and that the parser reads every text of it.

  A `Doc` is a derivation: a value with the spelling of its strings and numerals and the
  whitespace around its parts.  `Doc.text` is what it derives, `Doc.denote` the tree it
  stands for.  A string has only the escapes that name codepoints: a surrogate stands in a
  high-low pair.  What the grammar leaves open are the two limits of the reader: `Doc.nest`
  counts the containers around each other, and `Doc.Finite` says that the numerals are
  finite as floats.

  Proved:
  * `setKeys_eq_lastWins` - entering the members in order keeps the last value of each key.
  * `Doc.reads`           - the parser reads a document within the limits as its tree.
-/
import ChezziLang.Json.Reading
import Mathlib.Data.Fintype.Basic
import Mathlib.Tactic.FinCases

namespace ChezziLang.JsonText

open Lib List Option JsonText.Parser

/-! ## Whitespace and strings -/

/-- Whitespace between tokens. -/
abbrev Ws := { w : Text // ∀ c ∈ w, c = ' ' ∨ c = '\t' ∨ c = '\n' ∨ c = '\r' }

structure HexDigit where
  value : Fin 16
  upper : Bool

def HexDigit.char (h : HexDigit) : Char :=
  (if h.upper then "0123456789ABCDEF" else "0123456789abcdef").toList.getD h.value '0'

/-- The four digits of a `\u` escape. -/
structure HexQuad where
  a : HexDigit
  b : HexDigit
  c : HexDigit
  d : HexDigit

namespace HexQuad

def text (q : HexQuad) : Text := [q.a.char, q.b.char, q.c.char, q.d.char]

def value (q : HexQuad) : Nat :=
  q.a.value * 4096 + q.b.value * 256 + q.c.value * 16 + q.d.value

def IsHigh (q : HexQuad) : Prop := 0xD800 ≤ q.value ∧ q.value ≤ 0xDBFF

def IsLow (q : HexQuad) : Prop := 0xDC00 ≤ q.value ∧ q.value ≤ 0xDFFF

end HexQuad

/-- The letters that can follow a backslash, but for `u`. -/
def shortEscape : Char → Option Char
  | '"' => some '"'
  | '\\' => some '\\'
  | '/' => some '/'
  | 'b' => some (Char.ofNat 8)
  | 'f' => some (Char.ofNat 12)
  | 'n' => some '\n'
  | 'r' => some '\r'
  | 't' => some '\t'
  | _ => none

/-- One codepoint of a string, as it is spelled. -/
inductive StrPart where
  | plain (c : Char) (h : Plain c)
  | short (e c : Char) (h : shortEscape e = some c)
  | unicode (q : HexQuad) (hhigh : ¬ q.IsHigh) (hlow : ¬ q.IsLow)
  | pair (hi lo : HexQuad) (hhi : hi.IsHigh) (hlo : lo.IsLow)

namespace StrPart

def text : StrPart → Text
  | .plain c _ => [c]
  | .short e _ _ => ['\\', e]
  | .unicode q _ _ => '\\' :: 'u' :: q.text
  | .pair hi lo _ _ => '\\' :: 'u' :: (hi.text ++ '\\' :: 'u' :: lo.text)

def char : StrPart → Char
  | .plain c _ => c
  | .short _ c _ => c
  | .unicode q _ _ => Char.ofNat q.value
  | .pair hi lo _ _ => Char.ofNat (0x10000 + (hi.value - 0xD800) * 0x400 + (lo.value - 0xDC00))

end StrPart

/-- A string with its quotes. -/
def strText (parts : List StrPart) : Text := '"' :: (parts.flatMap StrPart.text ++ ['"'])

def strValue (parts : List StrPart) : Text := parts.map StrPart.char

/-! ## Numerals -/

namespace Numeral

def isInt (n : Numeral) : Bool := n.frac.isEmpty && n.exp.isEmpty

/-- The value of the digits before a fraction or an exponent. -/
def intValue (n : Numeral) : Int :=
  if n.sign = [] then (digitsValue n.int : Int) else -(digitsValue n.int : Int)

section

variable (ft : FloatText) (n : Numeral)

/-- The numeral is finite as a float. -/
def Finite : Prop :=
  ∃ f, ft.read n.text = some f ∧ nonFinite f = false

/-- The float that a numeral reads as. -/
def float : Json := .num ((ft.read n.text).getD 0)

/-- An integer that fits stays one. -/
def denote : Json :=
  if n.isInt then ((I64.checked n.intValue).map Json.int).getD (n.float ft) else n.float ft

end

end Numeral

/-! ## Documents -/

/-- What stands around the value of a member: its key, and whitespace. -/
structure Label where
  before : Ws
  key : List StrPart
  afterKey : Ws
  beforeValue : Ws

/-- A container that is not empty has a first part, and further ones with a comma each. -/
inductive Doc where
  | null
  | bool (b : Bool)
  | number (n : Numeral)
  | string (parts : List StrPart)
  | emptyArr (w : Ws)
  | arr (before : Ws) (first : Doc) (after : Ws) (rest : List (Ws × Doc × Ws))
  | emptyObj (w : Ws)
  | obj (label : Label) (first : Doc) (after : Ws) (rest : List (Label × Doc × Ws))

/-- The member up to its value. -/
def Label.text (l : Label) : Text :=
  l.before ++ (strText l.key ++ (l.afterKey ++ ':' :: l.beforeValue))

/-- The value of the last member with a key. -/
def lastValue (key : Text) : List (Text × Json) → Option Json
  | [] => none
  | (k, v) :: rest => (lastValue key rest).or (if k = key then some v else none)

/-- The members of an object: every key once, in the order of the first member that has it,
    with the value of the last. -/
def lastWins : List (Text × Json) → List (Text × Json)
  | [] => []
  | (k, v) :: rest =>
    (k, (lastValue k rest).getD v) :: (lastWins rest).filter fun e => e.1 ≠ k

namespace Doc

section
attribute [local irreducible] String.toList

mutual

def text : Doc → Text
  | .null => "null".toList
  | .bool true => "true".toList
  | .bool false => "false".toList
  | .number n => n.text
  | .string parts => strText parts
  | .emptyArr w => '[' :: (w ++ [']'])
  | .arr before first after rest =>
    '[' :: (before ++ (text first ++ (after ++ (textItems rest ++ [']']))))
  | .emptyObj w => '\x7b' :: (w ++ ['\x7d'])
  | .obj label first after rest =>
    '\x7b' :: (label.text ++ (text first ++ (after ++ (textMembers rest ++ ['\x7d']))))

def textItems : List (Ws × Doc × Ws) → Text
  | [] => []
  | (before, d, after) :: rest => ',' :: (before ++ (text d ++ (after ++ textItems rest)))

def textMembers : List (Label × Doc × Ws) → Text
  | [] => []
  | (label, d, after) :: rest => ',' :: (label.text ++ (text d ++ (after ++ textMembers rest)))

end

end

mutual

/-- The tree of a document. -/
def denote (ft : FloatText) : Doc → Json
  | .null => .null
  | .bool b => .bool b
  | .number n => n.denote ft
  | .string parts => .str (strValue parts)
  | .emptyArr _ => .arr []
  | .arr _ first _ rest => .arr (denote ft first :: denoteItems ft rest)
  | .emptyObj _ => .obj []
  | .obj label first _ rest =>
    .obj (lastWins ((strValue label.key, denote ft first) :: denoteMembers ft rest))

def denoteItems (ft : FloatText) : List (Ws × Doc × Ws) → List Json
  | [] => []
  | (_, d, _) :: rest => denote ft d :: denoteItems ft rest

def denoteMembers (ft : FloatText) : List (Label × Doc × Ws) → List (Text × Json)
  | [] => []
  | (label, d, _) :: rest => (strValue label.key, denote ft d) :: denoteMembers ft rest

end

mutual

/-- How deep the containers of a document nest. -/
def nest : Doc → Nat
  | .emptyArr _ => 1
  | .arr _ first _ rest => max (nest first) (nestItems rest) + 1
  | .emptyObj _ => 1
  | .obj _ first _ rest => max (nest first) (nestMembers rest) + 1
  | _ => 0

def nestItems : List (Ws × Doc × Ws) → Nat
  | [] => 0
  | (_, d, _) :: rest => max (nest d) (nestItems rest)

def nestMembers : List (Label × Doc × Ws) → Nat
  | [] => 0
  | (_, d, _) :: rest => max (nest d) (nestMembers rest)

end

mutual

/-- Every numeral of a document is finite as a float. -/
def Finite (ft : FloatText) : Doc → Prop
  | .number n => n.Finite ft
  | .arr _ first _ rest => Finite ft first ∧ FiniteItems ft rest
  | .obj _ first _ rest => Finite ft first ∧ FiniteMembers ft rest
  | _ => True

def FiniteItems (ft : FloatText) : List (Ws × Doc × Ws) → Prop
  | [] => True
  | (_, d, _) :: rest => Finite ft d ∧ FiniteItems ft rest

def FiniteMembers (ft : FloatText) : List (Label × Doc × Ws) → Prop
  | [] => True
  | (_, d, _) :: rest => Finite ft d ∧ FiniteMembers ft rest

end

end Doc

/-! ## Reading strings -/

/-- The digits as a list, which needs no decoding. -/
theorem HexDigit.char_eq (h : HexDigit) : h.char =
    (['0', '1', '2', '3', '4', '5', '6', '7', '8', '9'] ++
      if h.upper then ['A', 'B', 'C', 'D', 'E', 'F'] else ['a', 'b', 'c', 'd', 'e', 'f']).getD
        h.value '0' := by
  obtain ⟨v, upper⟩ := h
  cases upper <;> exact congrArg (getD · _ _) String.toList_ofList

theorem hexVal_char (h : HexDigit) : hexVal (some h.char) = .ok h.value := by
  rw [h.char_eq]
  obtain ⟨v, upper⟩ := h
  revert v upper
  decide

theorem HexQuad.value_lt (q : HexQuad) : q.value < 0x10000 := by
  have ha := q.a.value.isLt
  have hb := q.b.value.isLt
  have hc := q.c.value.isLt
  have hd := q.d.value.isLt
  unfold HexQuad.value
  omega

variable {p : Parser} {t : Text} {m : List (Text × Json)} {fuel : Nat} {ft : FloatText} {c : Char}
  {n : Numeral} {w : Ws} {d : Doc} {label : Label}

theorem parseHex4_quad {q : HexQuad} (h : p.rest = q.text ++ t) :
    parseHex4 p = .ok q.value (p.advance 4) := by
  have h1 : (p.advance 1).rest = q.b.char :: q.c.char :: q.d.char :: t := by
    rw [p.rest_advance, h]; rfl
  have h2 : (p.advance 2).rest = q.c.char :: q.d.char :: t := by
    rw [p.rest_advance, h]; rfl
  have h3 : (p.advance 3).rest = q.d.char :: t := by
    rw [p.rest_advance, h]; rfl
  simp only [parseHex4, hex4Loop, peek_of_rest h, hexVal_char, advance_advance,
    peek_of_rest h1, peek_of_rest h2, peek_of_rest h3]
  unfold HexQuad.value
  congr 1
  omega

theorem isValidChar_of_lt {n} (h : n < 0xD800 ∨ (0xDFFF < n ∧ n < 0x110000)) : n.isValidChar := h

theorem chr_valid {n} (h : n < 0xD800 ∨ (0xDFFF < n ∧ n < 0x110000)) (p) :
    chr n p = .ok [Char.ofNat n] p := if_pos (isValidChar_of_lt h)

/-- A `\u` escape that is no surrogate. -/
theorem parseUnicode_single {q : HexQuad} (h : p.rest = q.text ++ t) (hhigh : ¬ q.IsHigh)
    (hlow : ¬ q.IsLow) :
    parseUnicode p = .ok [Char.ofNat q.value] (p.advance 4) := by
  have hlt := q.value_lt
  unfold HexQuad.IsHigh at hhigh
  unfold HexQuad.IsLow at hlow
  simp only [parseUnicode, parseHex4_quad h, Res.andThen, if_neg hhigh, if_neg hlow]
  exact chr_valid (by omega) _

/-- A high surrogate and its low one. -/
theorem parseUnicode_pair {hi lo : HexQuad} (h : p.rest = hi.text ++ '\\' :: 'u' :: (lo.text ++ t))
    (hhi : hi.IsHigh) (hlo : lo.IsLow) :
    parseUnicode p = .ok [Char.ofNat (0x10000 + (hi.value - 0xD800) * 0x400 + (lo.value - 0xDC00))]
        (p.advance 10) := by
  have h1 : (p.advance 4).rest = '\\' :: 'u' :: (lo.text ++ t) := by
    rw [p.rest_advance, h]; rfl
  have h2 : (p.advance 5).rest = 'u' :: (lo.text ++ t) := by
    rw [p.rest_advance, h]; rfl
  have h3 : (p.advance 6).rest = lo.text ++ t := by
    rw [p.rest_advance, h]; rfl
  unfold HexQuad.IsHigh at hhi
  unfold HexQuad.IsLow at hlo
  have hnot : ¬ (lo.value < 56320 ∨ lo.value > 57343) := by omega
  simp only [parseUnicode, parseHex4_quad h, Res.andThen, if_pos hhi, peek_of_rest h1,
    advance_advance, peek_of_rest h2, parseHex4_quad h3, if_neg hnot, ne_eq,
    not_true_eq_false, if_false]
  exact chr_valid (by omega) _

theorem parseEscape_short {e} (h : shortEscape e = some c) (p) :
    parseEscape (some e) p = .ok [c] p := by
  unfold shortEscape at h
  split at h <;> first | cases h; rfl | cases h

theorem StrPart.readsAs (part : StrPart) : ReadsAs part.char part.text := by
  have hstart {p : Parser} {e : Char} {t : Text} (h : p.rest = '\\' :: e :: t) :
      p.peek = some '\\' ∧ (p.advance 1).peek = some e := by
    refine ⟨peek_of_rest h, ?_⟩
    have h1 : (p.advance 1).rest = e :: t := by rw [p.rest_advance, h]; rfl
    exact peek_of_rest h1
  cases part with
  | plain c h => exact .inl ⟨h, rfl⟩
  | short e c hc =>
    refine .inr (fun {p t} h => ?_)
    obtain ⟨hpeek, he⟩ := hstart h
    refine ⟨hpeek, ?_⟩
    rw [he]
    exact parseEscape_short hc _
  | unicode q hhigh hlow =>
    refine .inr (fun {p t} h => ?_)
    obtain ⟨hpeek, he⟩ := hstart h
    have hq : (p.advance 2).rest = q.text ++ t := by rw [p.rest_advance, h]; rfl
    refine ⟨hpeek, ?_⟩
    rw [he]
    exact parseUnicode_single hq hhigh hlow
  | pair hi lo hhi hlo =>
    refine .inr (fun {p t} h => ?_)
    obtain ⟨hpeek, he⟩ := hstart h
    have hq : (p.advance 2).rest = hi.text ++ '\\' :: 'u' :: (lo.text ++ t) := by
      rw [p.rest_advance, h]
      simp [StrPart.text]
    refine ⟨hpeek, ?_⟩
    rw [he]
    exact parseUnicode_pair hq hhi hlo

/-- **A string is read as its codepoints.** -/
theorem parseString_strText {parts} (h : p.rest = strText parts ++ t) :
    parseString p = .ok (strValue parts) (p.advance (strText parts).length) := by
  have hpieces : ∀ piece ∈ parts.map (fun part => (part.char, part.text)),
      ReadsAs piece.1 piece.2 := by
    intro piece hmem
    obtain ⟨part, -, rfl⟩ := mem_map.mp hmem
    exact part.readsAs
  have htext : (parts.map fun part => (part.char, part.text)).flatMap Prod.snd =
      parts.flatMap StrPart.text := by
    rw [flatMap_map]
  have hchars : (parts.map fun part => (part.char, part.text)).map Prod.fst = strValue parts := by
    rw [List.map_map]
    rfl
  have hrest : p.rest = '"' :: ((parts.map fun part => (part.char, part.text)).flatMap Prod.snd ++
      '"' :: t) := by
    rw [h, htext, strText, cons_append, append_assoc]
    rfl
  rw [parseString_pieces hpieces hrest, htext, hchars]
  simp [strText]

/-! ## Reading numerals -/

theorem Numeral.toInt_text (n : Numeral) (h : n.isInt = true) :
    toInt n.text = I64.checked n.intValue := by
  simp only [Numeral.isInt, Bool.and_eq_true, List.isEmpty_iff] at h
  have htext : n.text = n.sign ++ n.int := by
    rw [Numeral.text, h.1, h.2, append_nil, append_nil]
  obtain ⟨d, ds, hint⟩ := exists_cons_of_ne_nil n.int_ok.1.1
  have hd := n.int_ok.1.2 d (by rw [hint]; exact mem_cons_self)
  rw [htext, Numeral.intValue]
  rcases n.sign_ok with hs | hs <;> rw [hs]
  · rw [if_pos rfl, nil_append]
    unfold toInt
    split
    · next ds' heq =>
      rw [hint] at heq
      cases heq
      cases hd
    · rfl
  · rw [if_neg (cons_ne_nil _ _)]
    rfl

theorem numFloat_finite (h : n.Finite ft) (start p) :
    numFloat ft n.text start p = .ok (n.float ft) p := by
  obtain ⟨f, hread, hf⟩ := h
  simp only [numFloat, Numeral.float, hread, hf, getD_some]
  rfl

theorem parseNumber_denote (hfin : n.Finite ft) (h : p.rest = n.text ++ t) (ht : Stops t) :
    parseNumber ft p = .ok (n.denote ft) (p.advance n.text.length) := by
  rw [parseNumber_numeral ft n h ht, Numeral.denote, numFloat_finite hfin,
    show (n.frac.isEmpty && n.exp.isEmpty) = n.isInt from rfl]
  by_cases hint : n.isInt = true
  · rw [if_pos hint, if_pos hint, n.toInt_text hint]
    cases I64.checked n.intValue <;> rfl
  · rw [if_neg hint, if_neg hint]

/-! ## Whitespace around values -/

theorem Ws.isWs (w : Ws) (h : c ∈ w.val) : isWs c = true := by
  rcases w.property c h with rfl | rfl | rfl | rfl <;> rfl

/-- No whitespace comes next. -/
def NoWs (t : Text) : Prop := ∀ c, t.head? = some c → Parser.isWs c = false

theorem NoWs.cons (h : isWs c = false) (t : Text) : NoWs (c :: t) := by
  intro d hd
  cases hd
  exact h

theorem skipWs_append (h : p.rest = w ++ t) (ht : NoWs t) : p.skipWs = p.advance w.val.length := by
  unfold skipWs
  rw [h, takeWhile_append_of_pos fun c hc => w.isWs hc]
  cases t with
  | nil => simp
  | cons c t =>
    rw [takeWhile_cons_of_neg (by rw [ht c rfl]; decide), append_nil]

/-- `parse_value` passes over whitespace. -/
theorem parseValue_append (ft) (h : p.rest = w ++ t) (ht : NoWs t) (hne : t ≠ []) :
    parseValue ft fuel p = parseValue ft fuel (p.advance w.val.length) := by
  have hrest := rest_of_append h
  obtain ⟨c, t, rfl⟩ := exists_cons_of_ne_nil hne
  cases fuel with
  | zero => rfl
  | succ fuel =>
    simp only [parseValue, skipWs_append h ht, skipWs_eq_self hrest (ht c rfl)]

theorem Stops.cons (h : isDigit (some c) = false ∧ c ≠ '.' ∧ c ≠ 'e' ∧ c ≠ 'E') (t : Text) :
    Stops (c :: t) := by
  intro d hd
  cases hd
  exact h

theorem Stops.ws (w : Ws) (h : Stops t) : Stops (w ++ t) := by
  intro c hc
  rcases head?_append_cases hc with hc | ⟨-, hc⟩
  · rcases w.property c (mem_of_mem_head? hc) with rfl | rfl | rfl | rfl <;> decide
  · exact h c hc

/-! ## Duplicate keys -/

/-- The members entered one after another. -/
def setKeys (m : List (Text × Json)) (ms : List (Text × Json)) : List (Text × Json) :=
  ms.foldl (fun m e => setKey m e.1 e.2) m

theorem mem_keys_setKey {key k v} :
    k ∈ (setKey m key v).map Prod.fst → k = key ∨ k ∈ m.map Prod.fst := by
  induction m with
  | nil => exact fun h => .inl (mem_singleton.mp h)
  | cons e m ih =>
    intro h
    unfold setKey at h
    split at h
    · exact .inr h
    rw [map_cons, mem_cons] at h
    rcases h with h | h
    · exact .inr (mem_cons.mpr (.inl h))
    · exact (ih h).imp id (mem_cons_of_mem _)

/-- A key that stands first takes its last value, and the others are entered after it. -/
theorem setKeys_cons (k v ms) (h : k ∉ m.map Prod.fst) : setKeys ((k, v) :: m) ms =
      (k, (lastValue k ms).getD v) :: setKeys m (ms.filter fun e => e.1 ≠ k) := by
  induction ms generalizing v m with
  | nil => rfl
  | cons e ms ih =>
    obtain ⟨k', v'⟩ := e
    change setKeys (setKey ((k, v) :: m) k' v') ms = _
    by_cases hk : k = k'
    · rw [setKey, if_pos hk, ih v' h, lastValue, if_pos hk.symm, filter_cons_of_neg (by simp [hk])]
      cases lastValue k ms <;> rfl
    have hm : k ∉ (setKey m k' v').map Prod.fst := fun hmem => (mem_keys_setKey hmem).elim hk h
    rw [setKey, if_neg hk, ih v hm, lastValue, if_neg (Ne.symm hk), or_none,
      filter_cons_of_pos (by simpa using Ne.symm hk)]
    rfl

theorem lastValue_filter {k k'} (h : k' ≠ k) (ms) :
    lastValue k' (ms.filter fun e => e.1 ≠ k) = lastValue k' ms := by
  induction ms with
  | nil => rfl
  | cons e ms ih =>
    obtain ⟨k'', v⟩ := e
    by_cases hk : k'' = k
    · rw [filter_cons_of_neg (by simp [hk]), ih, lastValue,
        if_neg (fun heq => h (heq.symm.trans hk)), or_none]
    · rw [filter_cons_of_pos (by simpa using hk), lastValue, ih, lastValue]

theorem lastWins_filter (k ms) :
    (lastWins ms).filter (fun e => e.1 ≠ k) = lastWins (ms.filter fun e => e.1 ≠ k) := by
  induction ms with
  | nil => rfl
  | cons e ms ih =>
    obtain ⟨k', v⟩ := e
    by_cases hk : k' = k
    · rw [List.filter_cons_of_neg (by simp [hk]), lastWins, List.filter_cons_of_neg (by simp [hk]),
        ← ih, hk, List.filter_filter]
      simp
    rw [filter_cons_of_pos (by simpa using hk), lastWins,
      List.filter_cons_of_pos (by simpa using hk), lastWins, lastValue_filter hk, ← ih,
      List.filter_filter, List.filter_filter]
    simp only [Bool.and_comm]

/-- **Entering the members in order keeps the last value of each key.** -/
theorem setKeys_eq_lastWins (ms) : setKeys [] ms = lastWins ms := by
  obtain ⟨n, hn⟩ : ∃ n, ms.length ≤ n := ⟨_, le_rfl⟩
  induction n generalizing ms with
  | zero => rw [eq_nil_of_length_eq_zero (Nat.le_zero.mp hn)]; rfl
  | succ n ih =>
    cases ms with
    | nil => rfl
    | cons e ms =>
      obtain ⟨k, v⟩ := e
      have hlen := length_filter_le (fun e : Text × Json => e.1 ≠ k) ms
      rw [length_cons] at hn
      change setKeys [(k, v)] ms = _
      rw [setKeys_cons k v ms (by simp), ih _ (by omega), lastWins, lastWins_filter]

/-! ## Reading documents -/

/-- The parser reads a document and stops after it. -/
def Reads (ft : FloatText) (d : Doc) : Prop :=
  ∀ {fuel : Nat} {p : Parser} {t : Text}, p.rest = d.text ++ t → Stops t →
    p.depth + d.nest ≤ maxNestDepth → 2 * d.text.length ≤ fuel →
    parseValue ft fuel p = .ok (d.denote ft) (p.advance d.text.length)

theorem Doc.starts (d : Doc) : Starts d.text := by
  cases d with
  | null => exact ⟨'n', _, rfl, rfl, by decide⟩
  | bool b => cases b <;> exact ⟨_, _, rfl, rfl, by decide⟩
  | number n =>
    obtain ⟨c, t, htext, hc⟩ := n.head
    obtain ⟨hws, hclose, -⟩ := number_starts hc
    exact ⟨c, t, htext, hws, hclose⟩
  | string parts => exact ⟨'"', _, rfl, rfl, by decide⟩
  | emptyArr w | arr before first after rest => exact ⟨'[', _, rfl, rfl, by decide⟩
  | emptyObj w | obj label first after rest => exact ⟨'\x7b', _, rfl, rfl, by decide⟩

theorem Starts.noWs (h : Starts t) (r) : NoWs (t ++ r) := by
  obtain ⟨c, t', rfl, hws, -⟩ := h
  exact NoWs.cons hws _

/-- A document after whitespace. -/
theorem Reads.ws (hd : Reads ft d) (h : p.rest = w ++ (d.text ++ t)) (ht : Stops t)
    (hdepth : p.depth + d.nest ≤ maxNestDepth) (hfuel : 2 * d.text.length ≤ fuel) :
    parseValue ft fuel p = .ok (d.denote ft) (p.advance (w.val.length + d.text.length)) := by
  obtain ⟨c, t', htext, -⟩ := d.starts
  rw [parseValue_append ft h (d.starts.noWs t) (by simp [htext]),
    hd (rest_of_append h) ht hdepth hfuel, p.advance_advance]

theorem reads_number
    (hparse : ∀ {p : Parser} {t : Text}, p.rest = n.text ++ t → Stops t →
      parseNumber ft p = .ok (n.denote ft) (p.advance n.text.length)) :
    Reads ft (.number n) := by
  intro fuel p t h ht _ hfuel
  obtain ⟨c, t', htext, hc⟩ := n.head
  obtain ⟨hws, hclose, h1, h2, h3, h4, h5, h6, h7⟩ := number_starts hc
  rw [Doc.text] at h hfuel ⊢
  rw [Doc.denote, ← hparse h ht]
  rw [htext] at h hfuel
  rw [length_cons] at hfuel
  rcases fuel with _ | fuel
  · omega
  rw [parseValue_eq ft h hws]
  simp only [h1, h2, h3, h4, h5, h6, h7, if_false, if_true]

theorem reads_lit {word} (htext : d.text = word.toList) (hword : word.toList = c :: t)
    (hdisp : ∀ fuel p rest, p.rest = c :: rest →
      parseValue ft (fuel + 1) p = parseLit word (d.denote ft) p) : Reads ft d := by
  intro fuel p rest h _ _ hfuel
  rw [htext] at h hfuel ⊢
  rw [hword, length_cons] at hfuel
  rcases fuel with _ | fuel
  · omega
  have h' : p.rest = c :: (t ++ rest) := by
    rw [h, hword]
    rfl
  rw [hdisp fuel p _ h', parseLit, litLoop_eq h]

theorem reads_null (ft) : Reads ft .null := by
  refine @reads_lit ['u', 'l', 'l'] ft 'n' .null "null" (by rw [Doc.text]) String.toList_ofList
    fun fuel p rest h => ?_
  rw [parseValue_eq ft h rfl]
  rfl

theorem reads_bool (ft b) : Reads ft (.bool b) := by
  cases b with
  | true =>
    refine @reads_lit ['r', 'u', 'e'] ft 't' (.bool true) "true" (by rw [Doc.text])
      String.toList_ofList fun fuel p rest h => ?_
    rw [parseValue_eq ft h rfl]
    rfl
  | false =>
    refine @reads_lit ['a', 'l', 's', 'e'] ft 'f' (.bool false) "false" (by rw [Doc.text])
      String.toList_ofList fun fuel p rest h => ?_
    rw [parseValue_eq ft h rfl]
    rfl

theorem reads_string (ft parts) : Reads ft (.string parts) := by
  intro fuel p t h _ _ hfuel
  rw [Doc.text] at h hfuel ⊢
  have hquote : p.rest = '"' :: (parts.flatMap StrPart.text ++ ['"'] ++ t) := h
  rw [strText, length_cons] at hfuel
  rcases fuel with _ | fuel
  · omega
  rw [parseValue_eq ft hquote rfl, if_neg (by decide), if_neg (by decide), if_pos rfl,
    parseString_strText h]
  rfl

/-- What closes a container or parts it ends a value. -/
theorem stops_closing (hc : c = ',' ∨ c = ']' ∨ c = '\x7d') (t : Text) : Stops (c :: t) := by
  rcases hc with rfl | rfl | rfl <;> exact Stops.cons (by decide) t

theorem noWs_closing (hc : c = ',' ∨ c = ']' ∨ c = '\x7d') (t : Text) : NoWs (c :: t) := by
  rcases hc with rfl | rfl | rfl <;> exact NoWs.cons rfl t

/-- A document after whitespace, up to what closes or parts the container it is in. -/
theorem Reads.closing (hd : Reads ft d) {after : Ws} (hc : c = ',' ∨ c = ']' ∨ c = '\x7d')
    (h : p.rest = w ++ (d.text ++ (after ++ c :: t)))
    (hdepth : p.depth + d.nest ≤ maxNestDepth) (hfuel : 2 * d.text.length ≤ fuel) :
    ∃ q, parseValue ft fuel p = .ok (d.denote ft) q ∧ q.skipWs.peek = some c ∧
      q.skipWs = p.advance (w.val.length + d.text.length + after.val.length) ∧
      (q.skipWs.advance 1).rest = t := by
  have hafter : (p.advance (w.val.length + d.text.length)).rest = after ++ c :: t := by
    rw [← p.advance_advance]
    exact rest_of_append (rest_of_append h)
  have hend := rest_of_append hafter
  refine ⟨_, hd.ws h ((stops_closing hc t).ws after) hdepth hfuel, ?_⟩
  rw [skipWs_append hafter (noWs_closing hc t)]
  refine ⟨peek_of_rest hend, p.advance_advance .., ?_⟩
  rw [rest_advance, hend]
  rfl

/-- The loop of `parse_array` reads its items. -/
theorem arrayLoop_reads {rest : List (Ws × Doc × Ws)} (hrest : ∀ item ∈ rest, Reads ft item.2.1)
    {d : Doc} (hd : Reads ft d) {before after : Ws} {items : List Json}
    (h : p.rest = before ++ (d.text ++ (after ++ (Doc.textItems rest ++ ']' :: t))))
    (hdepth : p.depth + max d.nest (Doc.nestItems rest) ≤ maxNestDepth)
    (hfuel : 2 * (d.text.length + (Doc.textItems rest).length) + 1 ≤ fuel) :
    arrayLoop ft fuel items p = .ok (.arr (items ++ d.denote ft :: Doc.denoteItems ft rest))
        (p.advance (before.val.length + d.text.length + after.val.length +
          (Doc.textItems rest).length + 1)).up := by
  induction rest generalizing d before after items fuel p with
  | nil =>
    rcases fuel with _ | fuel
    · omega
    rw [Doc.textItems, nil_append] at h
    obtain ⟨q, hvalue, hpeek, hskip, -⟩ :=
      hd.closing (.inr (.inl rfl)) h (by omega) (show _ ≤ fuel by omega)
    rw [arrayLoop, hvalue, Res.andThen]
    dsimp only
    rw [hpeek, if_pos rfl, hskip, advance_advance]
    simp only [Doc.denoteItems, Doc.textItems, length_nil, Nat.add_zero]
  | cons item rest ih =>
    obtain ⟨before', d', after'⟩ := item
    rcases fuel with _ | fuel
    · omega
    simp only [Doc.textItems, Doc.nestItems, length_cons, length_append, cons_append,
      append_assoc] at h hdepth hfuel ⊢
    obtain ⟨q, hvalue, hpeek, hskip, hnext⟩ :=
      hd.closing (.inl rfl) h (by omega) (show _ ≤ fuel by omega)
    have hd' : Reads ft d' := hrest _ mem_cons_self
    have hloop : arrayLoop ft fuel (items ++ [d.denote ft]) _ = _ :=
      ih (forall_mem_cons.mp hrest).2 hd' hnext
        (by rw [hskip]; simp only [advance_depth]; omega) (by omega)
    rw [arrayLoop, hvalue, Res.andThen]
    dsimp only
    rw [hpeek, if_neg (by decide), if_neg (by decide), hloop, hskip]
    simp only [advance_advance, Doc.denoteItems, append_assoc, singleton_append]
    congr 3
    omega

/-- The loop of `parse_object` after the value of a member. -/
def memberEnd (ft : FloatText) (fuel : Nat) (m : List (Text × Json)) (key : Text) (v : Json)
    (p : Parser) : Res Json :=
  let p := p.skipWs
  let c := p.peek
  let p := p.advance 1
  if c = some '\x7d' then .ok (.obj (setKey m key v)) p.up
  else if c ≠ some ',' then .err (p.atPos "expected ',' or '\x7d' in object" (p.pos - 1))
  else objectLoop ft fuel (setKey m key v) p

/-- The loop of `parse_object` reads a member up to its value. -/
theorem objectLoop_label {r} (h : p.rest = label.text ++ r) : ∃ q, objectLoop ft (fuel + 1) m p =
        (parseValue ft fuel q).andThen (memberEnd ft fuel m (strValue label.key)) ∧
      q.rest = label.beforeValue ++ r ∧
      q.advance label.beforeValue.val.length = p.advance label.text.length := by
  simp only [Label.text, append_assoc, cons_append] at h
  have hkey := rest_of_append h
  have hafter := rest_of_append hkey
  have hcolon := rest_of_append hafter
  refine ⟨_, ?_, rest_of_append (t := [':']) hcolon, ?_⟩
  · have hquote : (p.advance label.before.val.length).peek = some '"' := peek_of_rest hkey
    unfold objectLoop
    dsimp only
    rw [skipWs_append h (NoWs.cons rfl _), hquote, if_neg (by simp), parseString_strText hkey,
      Res.andThen]
    rw [skipWs_append hafter (NoWs.cons rfl _), peek_of_rest hcolon, if_neg (by simp)]
    rfl
  · simp only [advance_advance, Label.text, length_append, length_cons, length_nil]
    congr 1
    omega

/-- The loop of `parse_object` reads a member up to what closes or parts the object. -/
theorem objectLoop_member (hd : Reads ft d) {after : Ws} (hc : c = ',' ∨ c = ']' ∨ c = '\x7d')
    (h : p.rest = label.text ++ (d.text ++ (after ++ c :: t)))
    (hdepth : p.depth + d.nest ≤ maxNestDepth) (hfuel : 2 * d.text.length ≤ fuel) :
    ∃ q, objectLoop ft (fuel + 1) m p =
        memberEnd ft fuel m (strValue label.key) (d.denote ft) q ∧ q.skipWs.peek = some c ∧
      q.skipWs = p.advance (label.text.length + d.text.length + after.val.length) ∧
      (q.skipWs.advance 1).rest = t := by
  obtain ⟨q, hq, hqrest, hqadv⟩ := @objectLoop_label p m fuel ft label _ h
  have hqdepth : q.depth = p.depth := by simpa using congrArg depth hqadv
  obtain ⟨q', hvalue, hpeek, hskip, hnext⟩ := hd.closing hc hqrest (by omega) hfuel
  refine ⟨q', by rw [hq, hvalue]; rfl, hpeek, ?_, hnext⟩
  rw [hskip, Nat.add_assoc, ← advance_advance, hqadv, advance_advance, Nat.add_assoc]

/-- The loop of `parse_object` reads its members. -/
theorem objectLoop_reads {rest} (hrest : ∀ item ∈ rest, Reads ft item.2.1) (hd : Reads ft d)
    {after : Ws}
    (h : p.rest = label.text ++ (d.text ++ (after ++ (Doc.textMembers rest ++ '\x7d' :: t))))
    (hdepth : p.depth + max d.nest (Doc.nestMembers rest) ≤ maxNestDepth)
    (hfuel : 2 * (d.text.length + (Doc.textMembers rest).length) + 1 ≤ fuel) :
    objectLoop ft fuel m p =
      .ok (.obj (setKeys m ((strValue label.key, d.denote ft) :: Doc.denoteMembers ft rest)))
        (p.advance (label.text.length + d.text.length + after.val.length +
          (Doc.textMembers rest).length + 1)).up := by
  induction rest generalizing d label after m fuel p with
  | nil =>
    rcases fuel with _ | fuel
    · omega
    rw [Doc.textMembers, nil_append] at h
    obtain ⟨q, hq, hpeek, hskip, -⟩ :=
      objectLoop_member hd (.inr (.inr rfl)) h (by omega) (show _ ≤ fuel by omega)
    rw [hq, memberEnd, hpeek, if_pos rfl, hskip]
    rfl
  | cons item rest ih =>
    obtain ⟨label', d', after'⟩ := item
    rcases fuel with _ | fuel
    · omega
    simp only [Doc.textMembers, Doc.nestMembers, length_cons, length_append,
      cons_append, append_assoc] at h hdepth hfuel ⊢
    obtain ⟨q, hq, hpeek, hskip, hnext⟩ :=
      objectLoop_member hd (.inl rfl) h (by omega) (show _ ≤ fuel by omega)
    have hd' : Reads ft d' := hrest _ mem_cons_self
    have hloop : objectLoop ft fuel (setKey m (strValue label.key) (d.denote ft)) _ = _ :=
      ih (forall_mem_cons.mp hrest).2 hd' hnext
        (by rw [hskip]; simp only [advance_depth]; omega) (by omega)
    rw [hq, memberEnd, hpeek, if_neg (by decide), if_neg (by decide), hloop, hskip]
    simp only [advance_advance, Doc.denoteMembers]
    congr 2
    congr 1
    omega

/-- No whitespace. -/
def Ws.none : Ws := ⟨[], fun _ h => absurd h not_mem_nil⟩

/-- The parser inside an opening bracket or brace, after the whitespace. -/
theorem skipWs_opened {w : Ws} {r : Text} (h : p.rest = c :: (w ++ r)) (hr : NoWs r) :
    (p.down.advance 1).skipWs = p.down.advance (w.val.length + 1) ∧
      (p.down.advance 1).skipWs.peek = r.head? := by
  have hin : (p.down.advance 1).rest = w ++ r := by
    change (p.advance 1).rest = _
    rw [p.rest_advance, h]
    rfl
  rw [skipWs_append hin hr, peek_eq, rest_of_append hin, advance_advance, Nat.add_comm]
  exact ⟨rfl, rfl⟩

/-- `parse_value` at an opening bracket. -/
theorem parseValue_arr {w : Ws} {r : Text} (h : p.rest = '[' :: (w ++ r)) (hr : NoWs r)
    (hdepth : p.depth + 1 ≤ maxNestDepth) :
    parseValue ft (fuel + 2) p =
      if r.head? = some ']' then .ok (.arr []) (p.advance (w.val.length + 2))
      else arrayLoop ft fuel [] (p.down.advance (w.val.length + 1)) := by
  obtain ⟨hskip, hpeek⟩ := skipWs_opened h hr
  rw [parseValue_eq ft h rfl, if_neg (by decide), if_pos rfl]
  unfold parseArray
  rw [if_neg (by dsimp only; omega)]
  change (if (p.down.advance 1).skipWs.peek = some ']'
    then Res.ok (Json.arr []) ((p.down.advance 1).skipWs.advance 1).up
    else arrayLoop ft fuel [] (p.down.advance 1).skipWs) = _
  rw [hpeek, hskip, advance_advance, p.up_advance_down]

/-- `parse_value` at an opening brace. -/
theorem parseValue_obj {r : Text} (h : p.rest = '\x7b' :: (w ++ r)) (hr : NoWs r)
    (hdepth : p.depth + 1 ≤ maxNestDepth) :
    parseValue ft (fuel + 2) p =
      if r.head? = some '\x7d' then .ok (.obj []) (p.advance (w.val.length + 2))
      else objectLoop ft fuel [] (p.down.advance (w.val.length + 1)) := by
  obtain ⟨hskip, hpeek⟩ := skipWs_opened h hr
  rw [parseValue_eq ft h rfl, if_pos rfl]
  unfold parseObject
  rw [if_neg (by dsimp only; omega)]
  change (if (p.down.advance 1).skipWs.peek = some '\x7d'
    then Res.ok (Json.obj []) ((p.down.advance 1).skipWs.advance 1).up
    else objectLoop ft fuel [] (p.down.advance 1).skipWs) = _
  rw [hpeek, hskip, advance_advance, p.up_advance_down]

theorem reads_emptyArr (ft w) : Reads ft (.emptyArr w) := by
  intro fuel p t h _ hdepth hfuel
  simp only [Doc.text, Doc.nest, cons_append, append_assoc, length_cons,
    length_append, length_nil] at h hdepth hfuel ⊢
  obtain ⟨fuel, rfl⟩ : ∃ f, fuel = f + 2 := ⟨fuel - 2, by omega⟩
  rw [parseValue_arr h (NoWs.cons rfl t) hdepth]
  exact if_pos rfl

theorem reads_emptyObj (ft w) : Reads ft (.emptyObj w) := by
  intro fuel p t h _ hdepth hfuel
  simp only [Doc.text, Doc.nest, cons_append, append_assoc, length_cons,
    length_append, length_nil] at h hdepth hfuel ⊢
  obtain ⟨fuel, rfl⟩ : ∃ f, fuel = f + 2 := ⟨fuel - 2, by omega⟩
  rw [parseValue_obj h (NoWs.cons rfl t) hdepth]
  exact if_pos rfl

theorem reads_arr {before after first rest} (hfirst : Reads ft first)
    (hrest : ∀ item ∈ rest, Reads ft item.2.1) : Reads ft (.arr before first after rest) := by
  intro fuel p t h _ hdepth hfuel
  simp only [Doc.text, Doc.nest, cons_append, append_assoc, nil_append,
    length_cons, length_append, length_nil] at h hdepth hfuel ⊢
  obtain ⟨fuel, rfl⟩ : ∃ f, fuel = f + 2 := ⟨fuel - 2, by omega⟩
  have hin : (p.down.advance (before.val.length + 1)).rest = Ws.none ++
      (first.text ++ (after ++ (Doc.textItems rest ++ ']' :: t))) := by
    change (p.advance _).rest = _
    rw [p.rest_advance, h, drop_succ_cons, drop_left]
    rfl
  obtain ⟨c, t', htext, -, hc⟩ := first.starts
  have hhead : ¬ (first.text ++ (after ++ (Doc.textItems rest ++ ']' :: t))).head? = some ']' := by
    rw [htext]
    simpa using hc
  rw [parseValue_arr h (first.starts.noWs _) (by omega), if_neg hhead,
    arrayLoop_reads hrest hfirst hin (by change p.depth + 1 + _ ≤ _; omega) (by omega),
    advance_advance, p.up_advance_down, Doc.denote, nil_append]
  congr 2
  simp only [Ws.none, length_nil]
  omega

theorem reads_obj {after first rest} (hfirst : Reads ft first)
    (hrest : ∀ item ∈ rest, Reads ft item.2.1) : Reads ft (.obj label first after rest) := by
  intro fuel p t h _ hdepth hfuel
  -- The loop reads the first member after the whitespace that `parse_object` has passed over.
  let label' : Label := { label with before := Ws.none }
  have hlabel : label.text = label.before ++ label'.text := rfl
  simp only [Doc.text, Doc.nest, hlabel, cons_append, append_assoc, nil_append,
    length_cons, length_append, length_nil] at h hdepth hfuel ⊢
  obtain ⟨fuel, rfl⟩ : ∃ f, fuel = f + 2 := ⟨fuel - 2, by omega⟩
  have hin : (p.down.advance (label.before.val.length + 1)).rest =
      label'.text ++ (first.text ++ (after ++ (Doc.textMembers rest ++ '\x7d' :: t))) := by
    change (p.advance _).rest = _
    rw [p.rest_advance, h, drop_succ_cons, drop_left]
  have hquote : ∃ r, label'.text ++ (first.text ++ (after ++ (Doc.textMembers rest ++ '\x7d' :: t)))
      = '"' :: r := ⟨_, rfl⟩
  obtain ⟨r, hr⟩ := hquote
  rw [parseValue_obj h (by rw [hr]; exact NoWs.cons rfl r) (by omega), if_neg (by rw [hr]; simp),
    objectLoop_reads hrest hfirst hin (by change p.depth + 1 + _ ≤ _; omega) (by omega),
    advance_advance, p.up_advance_down, Doc.denote, setKeys_eq_lastWins]
  congr 2
  omega

mutual

/-- **The parser reads a document within its limits as the tree it stands for.** -/
theorem Doc.reads : (d : Doc) → d.Finite ft → Reads ft d
  | .null, _ => reads_null ft
  | .bool b, _ => reads_bool ft b
  | .number _, h => reads_number (parseNumber_denote h)
  | .string parts, _ => reads_string ft parts
  | .emptyArr w, _ => reads_emptyArr ft w
  | .arr _ first _ rest, h => reads_arr (first.reads h.1) (Doc.reads_items rest h.2)
  | .emptyObj w, _ => reads_emptyObj ft w
  | .obj _ first _ rest, h => reads_obj (first.reads h.1) (Doc.reads_members rest h.2)

theorem Doc.reads_items : (rest : List (Ws × Doc × Ws)) →
    Doc.FiniteItems ft rest → ∀ item ∈ rest, Reads ft item.2.1
  | [], _ => by
    intro item hmem
    cases hmem
  | (before, d, after) :: rest, h => by
    intro item hmem
    obtain rfl | hmem := mem_cons.mp hmem
    · exact d.reads h.1
    · exact Doc.reads_items rest h.2 item hmem

theorem Doc.reads_members : (rest : List (Label × Doc × Ws)) →
    Doc.FiniteMembers ft rest → ∀ item ∈ rest, Reads ft item.2.1
  | [], _ => by
    intro item hmem
    cases hmem
  | (label, d, after) :: rest, h => by
    intro item hmem
    obtain rfl | hmem := mem_cons.mp hmem
    · exact d.reads h.1
    · exact Doc.reads_members rest h.2 item hmem

end

/-- A document with whitespace around it is read to its end. -/
theorem Reads.parse (hd : Reads ft d) {w' : Ws} {s} (hs : s = w ++ (d.text ++ w'))
    (hnest : d.nest ≤ maxNestDepth) : ∃ p, parse ft s = .ok (d.denote ft) p := by
  have hrest : rest ⟨s, 0, 0⟩ = w ++ (d.text ++ w') := hs
  have hstops : Stops w' := by
    have hnil : Stops [] := nofun
    simpa using hnil.ws w'
  have hlen : s.length = w.val.length + (d.text.length + w'.val.length) := by
    rw [hs, length_append, length_append]
  have hvalue : parseValue ft (3 * s.length + 1) ⟨s, 0, 0⟩ = _ :=
    hd.ws hrest hstops (by simpa using hnest) (by omega)
  have hend : (advance ⟨s, 0, 0⟩ (w.val.length + d.text.length)).rest = w'.val ++ ([] : Text) := by
    rw [← advance_advance, append_nil]
    exact rest_of_append (rest_of_append hrest)
  have hskip := skipWs_append hend (nofun)
  unfold JsonText.parse
  rw [hvalue, Res.andThen]
  rw [hskip, if_neg]
  · exact ⟨_, rfl⟩
  · simp only [advance_pos, advance_src]
    omega

end ChezziLang.JsonText
