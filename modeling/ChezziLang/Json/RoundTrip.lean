/-
  What the printer writes the parser reads back.

  A tree prints as the text of a document that stands for the tree, and the parser reads the
  documents of the grammar.

  Proved:
  * `exists_parts`: a printed string is a string of the grammar.
  * `stringifyDepth_reads`: a tree prints as a document that is read back as the tree.
  * `parse_stringify`: a tree with finite floats and at most `maxNestDepth` nested
    containers prints without a fault, and parses back to itself.
-/
import ChezziLang.Json.Grammar
import Mathlib.Data.Nat.Digits.Lemmas

namespace ChezziLang.JsonText

open Lib List Doc

/-! ## Strings -/

/-- What a codepoint is written as. -/
def written (c : Char) : Text := if Plain c then [c] else escapeChar c

theorem escapeLoop_eq (cs : Text) (left : Text) (i run) (parts : List Text)
    (hleft : cs.drop i = left) (hrun : run ≤ i) : escapeLoop cs left i run parts =
      parts.flatten ++ (slice cs run i ++ (left.flatMap written ++ ['"'])) := by
  induction left generalizing i run parts with
  | nil =>
    rw [escapeLoop, flatten_append, flatten_pushRun, flatten_singleton]
    simp
  | cons c left ih =>
    have hget : cs[i]? = some c := by
      rw [← head?_drop, hleft]
      rfl
    have hdrop : cs.drop (i + 1) = left := by
      rw [← drop_drop, hleft]
      rfl
    rw [escapeLoop, flatMap_cons]
    split
    · next hplain =>
      rw [ih (i + 1) run parts hdrop (by omega), slice_succ hget hrun,
        show written c = [c] from if_pos hplain]
      simp only [append_assoc]
    next hesc =>
    rw [ih (i + 1) (i + 1) _ hdrop le_rfl, slice_self, flatten_append,
      flatten_pushRun, flatten_singleton, show written c = escapeChar c from if_neg hesc]
    simp only [append_assoc, nil_append]

theorem escape_eq (s) : escape s = '"' :: (s.flatMap written ++ ['"']) := by
  unfold escape
  rw [escapeLoop_eq s s 0 0 [['"']] rfl (Nat.le_refl 0), slice_self]
  rfl

theorem char_eq_of_toNat {c n} (h : c.toNat = n) : c = Char.ofNat n := by
  rw [← h, Char.ofNat_toNat]

/-- An escape is a letter that stands for the codepoint, or its number in hex. -/
theorem escapeChar_cases {c} (hc : ¬ Plain c) :
    (∃ e, escapeChar c = ['\\', e] ∧ shortEscape e = some c) ∨ (c.toNat < 32 ∧
        escapeChar c = ['\\', 'u', '0', '0', hexDigit (c.toNat / 16), hexDigit (c.toNat % 16)]) := by
  fun_cases escapeChar c with
  | case1 h | case2 _ h => exact .inl ⟨_, rfl, by rw [h]; rfl⟩
  | case3 _ _ h | case4 _ _ _ h | case5 _ _ _ _ h | case6 _ _ _ _ _ h | case7 _ _ _ _ _ _ h =>
    exact .inl ⟨_, rfl, by rw [char_eq_of_toNat h]; rfl⟩
  | case8 hquote hslash =>
    refine .inr ⟨?_, rfl⟩
    by_contra hge
    exact hc ⟨by omega, hquote, hslash⟩

theorem hexDigit_char (v) : HexDigit.char ⟨v, false⟩ = hexDigit v := by
  fin_cases v <;> rfl

/-- A written codepoint is a part of a string of the grammar. -/
theorem exists_part (c) : ∃ part : StrPart, part.char = c ∧ part.text = written c := by
  by_cases hc : Plain c
  · exact ⟨.plain c hc, rfl, (if_pos hc).symm⟩
  rw [show written c = escapeChar c from if_neg hc]
  rcases escapeChar_cases hc with ⟨e, he, hshort⟩ | ⟨hlow, he⟩
  · exact ⟨.short e c hshort, rfl, he.symm⟩
  let q : HexQuad := ⟨⟨0, false⟩, ⟨0, false⟩, ⟨⟨c.toNat / 16, by omega⟩, false⟩,
    ⟨⟨c.toNat % 16, by omega⟩, false⟩⟩
  have hq : q.value = c.toNat := by
    show 0 * 4096 + 0 * 256 + c.toNat / 16 * 16 + c.toNat % 16 = c.toNat
    omega
  refine ⟨.unicode q ?_ ?_, ?_, ?_⟩
  · unfold HexQuad.IsHigh
    omega
  · unfold HexQuad.IsLow
    omega
  · rw [StrPart.char, hq, Char.ofNat_toNat]
  · rw [StrPart.text, HexQuad.text, hexDigit_char, hexDigit_char, hexDigit_char, he]
    rfl

theorem exists_parts (s) :
    ∃ parts : List StrPart, strValue parts = s ∧ strText parts = escape s := by
  choose part hchar htext using exists_part
  refine ⟨s.map part, ?_, ?_⟩
  · rw [strValue, map_map]
    exact (map_congr_left fun c _ => hchar c).trans (map_id s)
  · rw [strText, escape_eq, flatMap_map]
    simp only [htext]

/-! ## Ints -/

theorem hexDigit_digit {d} (h : d < 10) :
    isDigit (some (hexDigit d)) = true ∧ (hexDigit d).toNat - '0'.toNat = d ∧
      (hexDigit d = '0' → d = 0) := by
  interval_cases d <;> decide

theorem natText_digits (n) : Digits (natText n) := by
  unfold natText
  split
  · exact ⟨by simp, forall_mem_singleton.mpr (by decide)⟩
  next hn =>
  refine ⟨by simpa using Nat.digits_ne_nil_iff_ne_zero.mpr hn, ?_⟩
  intro c hc
  obtain ⟨d, hd, rfl⟩ := mem_map.mp hc
  exact (hexDigit_digit (Nat.digits_lt_base (by decide) (mem_reverse.mp hd))).1

theorem natText_head (n) (h : (natText n).head? = some '0') : (natText n).length = 1 := by
  unfold natText at h ⊢
  split
  · rfl
  next hn =>
  rw [if_neg hn, head?_map, head?_reverse] at h
  have hlast := Nat.getLast_digit_ne_zero 10 hn
  rw [getLast?_eq_some_getLast (Nat.digits_ne_nil_iff_ne_zero.mpr hn)] at h
  have hlt := Nat.digits_lt_base (by decide : 1 < 10)
    (getLast_mem (Nat.digits_ne_nil_iff_ne_zero.mpr hn))
  exact absurd ((hexDigit_digit hlt).2.2 (Option.some.inj h)) hlast

theorem digitsValue_natText (n) : digitsValue (natText n) = n := by
  unfold natText
  split
  · next hn =>
    rw [hn]
    rfl
  have hfold : ∀ ds : List Nat, (∀ d ∈ ds, d < 10) →
      digitsValue (ds.reverse.map hexDigit) = Nat.ofDigits 10 ds := by
    intro ds hds
    induction ds with
    | nil => rfl
    | cons d ds ih =>
      have hd := (hexDigit_digit (hds d mem_cons_self)).2.1
      have hih := ih (forall_mem_cons.mp hds).2
      unfold digitsValue at hih ⊢
      rw [reverse_cons, map_append, foldl_append, hih, Nat.ofDigits_cons]
      simp only [map_cons, map_nil, foldl_cons, foldl_nil, hd]
      omega
  rw [hfold _ fun d hd => Nat.digits_lt_base (by decide) hd, Nat.ofDigits_digits]

/-- The numeral of an int. -/
def intNumeral (n : Int64) : Numeral where
  sign := if n < 0 then ['-'] else []
  int := natText n.toInt.natAbs
  frac := []
  exp := []
  sign_ok := by split <;> simp
  int_ok := ⟨natText_digits _, natText_head _⟩
  frac_ok := .inl rfl
  exp_ok := .inl rfl

theorem intNumeral_text (n) : (intNumeral n).text = intText n := by
  unfold Numeral.text intNumeral intText
  split <;> simp

theorem toInt_intText (n) : toInt (intText n) = some n := by
  have hneg : n < 0 ↔ n.toInt < 0 := Int64.lt_iff_toInt_lt
  unfold intText
  split
  · next h =>
    change I64.checked (-(digitsValue (natText n.toInt.natAbs) : Int)) = some n
    rw [digitsValue_natText, I64.checked_eq_some_iff]
    have := hneg.mp h
    omega
  · next h =>
    obtain ⟨d, ds, heq⟩ := exists_cons_of_ne_nil (natText_digits n.toInt.natAbs).1
    have hd := (natText_digits n.toInt.natAbs).2 d (by rw [heq]; exact mem_cons_self)
    have hplain : toInt (natText n.toInt.natAbs) =
        I64.checked (digitsValue (natText n.toInt.natAbs) : Int) := by
      unfold toInt
      split
      · next ds' hds =>
        rw [heq] at hds
        cases hds
        cases hd
      · rfl
    rw [hplain, digitsValue_natText, I64.checked_eq_some_iff]
    have hle : ¬ n.toInt < 0 := fun hlt => h (hneg.mpr hlt)
    omega

/-! ## Values -/

mutual

/-- How deep containers nest. -/
def nesting : Json → Nat
  | .arr xs => nestingItems xs + 1
  | .obj m => nestingEntries m + 1
  | _ => 0

def nestingItems : List Json → Nat
  | [] => 0
  | x :: xs => max (nesting x) (nestingItems xs)

def nestingEntries : List (Text × Json) → Nat
  | [] => 0
  | (_, x) :: m => max (nesting x) (nestingEntries m)

end

mutual

/-- Every float is finite, and no map has a key twice. -/
def Valid : Json → Prop
  | .num f => nonFinite f = false
  | .arr xs => ValidItems xs
  | .obj m => (m.map Prod.fst).Nodup ∧ ValidEntries m
  | _ => True

def ValidItems : List Json → Prop
  | [] => True
  | x :: xs => Valid x ∧ ValidItems xs

def ValidEntries : List (Text × Json) → Prop
  | [] => True
  | (_, x) :: m => Valid x ∧ ValidEntries m

end

/-- A finite float prints as a numeral with a fraction or an exponent, and reads back. -/
structure FloatText.Faithful (ft : FloatText) : Prop where
  numeral : ∀ f, nonFinite f = false → ∃ n : Numeral,
    ft.render f = n.text ∧ (n.frac ≠ [] ∨ n.exp ≠ [])
  reads : ∀ f, nonFinite f = false → ft.read (ft.render f) = some f

/-! ## Trees -/

/-- The comma before an item or an entry that is not the first. -/
def comma (first : Bool) : Text := if first then [] else [',']

/-- The label of a printed member. -/
def printedLabel (parts : List StrPart) : Label := ⟨Ws.none, parts, Ws.none, Ws.none⟩

theorem lastValue_of_not_mem {m k} (h : k ∉ m.map Prod.fst) : lastValue k m = none := by
  induction m with
  | nil => rfl
  | cons e m ih =>
    rw [map_cons, mem_cons, not_or] at h
    rw [lastValue, ih h.2, if_neg (Ne.symm h.1)]
    rfl

theorem lastWins_of_nodup {m} (h : (m.map Prod.fst).Nodup) : lastWins m = m := by
  induction m with
  | nil => rfl
  | cons e m ih =>
    obtain ⟨hk, hm⟩ := nodup_cons.mp h
    rw [lastWins, lastValue_of_not_mem hk, ih hm, filter_eq_self.mpr fun e' he' => ?_]
    · rfl
    · exact decide_eq_true fun heq => hk (heq ▸ mem_map_of_mem he')

mutual

/-- A tree prints as a document that is read back as the tree. -/
theorem stringifyDepth_reads {ft} (hft : ft.Faithful) :
    ∀ (j : Json) (depth : Nat), Valid j → depth + nesting j ≤ maxNestDepth →
      ∃ d : Doc, stringifyDepth ft j depth = .ok d.text ∧ d.denote ft = j ∧
        d.nest = nesting j ∧ Reads ft d
  | .null, _, _, _ => ⟨.null, rfl, rfl, rfl, reads_null ft⟩
  | .bool b, _, _, _ => ⟨.bool b, by cases b <;> rfl, rfl, rfl, reads_bool ft b⟩
  | .int n, _, _, _ => by
    have hdenote : (intNumeral n).denote ft = .int n := by
      have hint : (intNumeral n).isInt = true := rfl
      rw [Numeral.denote, if_pos hint, ← Numeral.toInt_text _ hint, intNumeral_text, toInt_intText]
      rfl
    refine ⟨.number (intNumeral n), ?_, hdenote, rfl, reads_number fun h ht => ?_⟩
    · rw [text, intNumeral_text]
      rfl
    · rw [parseNumber_numeral ft _ h ht, hdenote, intNumeral_text, toInt_intText]
      rfl
  | .num f, _, hf, _ => by
    obtain ⟨n, htext, hparts⟩ := hft.numeral f hf
    have hread := hft.reads f hf
    rw [htext] at hread
    have hfloat : n.isInt = false := by
      rcases hparts with h | h <;> simp [Numeral.isInt, h]
    have hdenote : n.denote ft = .num f := by
      rw [Numeral.denote, hfloat, if_neg (by decide), Numeral.float, hread]
      rfl
    refine ⟨.number n, ?_, hdenote, rfl, reads_number (parseNumber_denote ⟨f, hread, hf⟩)⟩
    rw [stringifyDepth, numStr, if_neg (by rw [hf]; decide), htext, text]
  | .str s, _, _, _ => by
    obtain ⟨parts, hvalue, htext⟩ := exists_parts s
    refine ⟨.string parts, ?_, ?_, rfl, reads_string ft parts⟩
    · rw [text, htext, stringifyDepth]
    · rw [denote, hvalue]
  | .arr xs, depth, hvalid, hdepth => by
    rw [nesting] at hdepth
    have hroom : ¬ depth + 1 > maxNestDepth := by omega
    rcases stringifyItems_reads hft xs (depth + 1) hvalid (by omega) with
      rfl | ⟨d, rest, htext, hdenote, hnest, hd, hrest⟩
    · exact ⟨.emptyArr Ws.none, by rw [stringifyDepth, if_neg hroom]; rfl, rfl, rfl,
        reads_emptyArr ft _⟩
    refine ⟨.arr Ws.none d Ws.none rest, ?_, ?_, ?_, reads_arr hd hrest⟩
    · rw [stringifyDepth, if_neg hroom, htext true]
      simp [text, comma, Ws.none]
    · rw [denote, hdenote]
    · rw [nest, hnest, nesting]
  | .obj m, depth, hvalid, hdepth => by
    rw [nesting] at hdepth
    have hroom : ¬ depth + 1 > maxNestDepth := by omega
    rcases stringifyEntries_reads hft m (depth + 1) hvalid.2 (by omega) with
      rfl | ⟨parts, d, rest, htext, hdenote, hnest, hd, hrest⟩
    · exact ⟨.emptyObj Ws.none, by rw [stringifyDepth, if_neg hroom]; rfl, rfl, rfl,
        reads_emptyObj ft _⟩
    refine ⟨.obj (printedLabel parts) d Ws.none rest, ?_, ?_, ?_, reads_obj hd hrest⟩
    · rw [stringifyDepth, if_neg hroom, htext true]
      simp [text, comma, Ws.none]
    · rw [denote, printedLabel, hdenote, lastWins_of_nodup hvalid.1]
    · rw [nest, hnest, nesting]

theorem stringifyItems_reads {ft} (hft : ft.Faithful) :
    ∀ (xs : List Json) (depth : Nat), ValidItems xs → depth + nestingItems xs ≤ maxNestDepth →
      xs = [] ∨ ∃ (d : Doc) (rest : List (Ws × Doc × Ws)),
        (∀ first, stringifyItems ft xs first depth =
          .ok (comma first ++ (d.text ++ textItems rest))) ∧
        d.denote ft :: denoteItems ft rest = xs ∧
        max d.nest (nestItems rest) = nestingItems xs ∧
        Reads ft d ∧ ∀ item ∈ rest, Reads ft item.2.1
  | [], _, _, _ => .inl rfl
  | x :: xs, depth, hvalid, hdepth => by
    rw [nestingItems] at hdepth
    obtain ⟨d, ht, rfl, hnest, hd⟩ := stringifyDepth_reads hft x depth hvalid.1 (by omega)
    refine .inr ?_
    rcases stringifyItems_reads hft xs depth hvalid.2 (by omega) with
      rfl | ⟨d', rest, htext, rfl, hnest', hd', hrest⟩
    · refine ⟨d, [], fun first => ?_, rfl, by rw [nestingItems, hnest]; rfl, hd, nofun⟩
      rw [stringifyItems, ht]
      rfl
    refine ⟨d, (Ws.none, d', Ws.none) :: rest, fun first => ?_, rfl, ?_, hd,
      forall_mem_cons.mpr ⟨hd', hrest⟩⟩
    · rw [stringifyItems, ht, htext false]
      simp [comma, textItems, Ws.none]
    · rw [nestingItems, nestItems, hnest, hnest']

theorem stringifyEntries_reads {ft} (hft : ft.Faithful) :
    ∀ (es : List (Text × Json)) (depth : Nat), ValidEntries es →
      depth + nestingEntries es ≤ maxNestDepth →
      es = [] ∨ ∃ (parts : List StrPart) (d : Doc) (rest : List (Label × Doc × Ws)),
        (∀ first, stringifyEntries ft es first depth =
          .ok (comma first ++ ((printedLabel parts).text ++ (d.text ++ textMembers rest)))) ∧
        (strValue parts, d.denote ft) :: denoteMembers ft rest = es ∧
        max d.nest (nestMembers rest) = nestingEntries es ∧
        Reads ft d ∧ ∀ item ∈ rest, Reads ft item.2.1
  | [], _, _, _ => .inl rfl
  | (k, x) :: es, depth, hvalid, hdepth => by
    rw [nestingEntries] at hdepth
    obtain ⟨d, ht, rfl, hnest, hd⟩ := stringifyDepth_reads hft x depth hvalid.1 (by omega)
    obtain ⟨parts, rfl, hkey⟩ := exists_parts k
    have hlabel : (printedLabel parts).text = escape (strValue parts) ++ [':'] := by
      rw [← hkey]
      rfl
    refine .inr ?_
    rcases stringifyEntries_reads hft es depth hvalid.2 (by omega) with
      rfl | ⟨parts', d', rest, htext, rfl, hnest', hd', hrest⟩
    · refine ⟨parts, d, [], fun first => ?_, rfl, by rw [nestingEntries, hnest]; rfl, hd, nofun⟩
      rw [stringifyEntries, ht, hlabel]
      simp [comma, stringifyEntries, textMembers]
    refine ⟨parts, d, (printedLabel parts', d', Ws.none) :: rest, fun first => ?_, rfl, ?_, hd,
      forall_mem_cons.mpr ⟨hd', hrest⟩⟩
    · rw [stringifyEntries, ht, htext false, hlabel]
      simp [comma, textMembers, Ws.none]
    · rw [nestingEntries, nestMembers, hnest, hnest']

end

/-- A printed tree is read to its end. -/
theorem parse_printed {ft} (hft : ft.Faithful) {j} (hvalid : Valid j)
    (hdepth : nesting j ≤ maxNestDepth) {t} (ht : stringify ft j = .ok t) :
    ∃ p, parse ft t = .ok j p := by
  obtain ⟨d, hprint, rfl, hnest, hd⟩ := stringifyDepth_reads hft j 0 hvalid (by omega)
  cases hprint.symm.trans ht
  exact @Reads.parse ft Ws.none d hd Ws.none _ (by simp [Ws.none]) (by omega)

/-- **Printing a tree and parsing it gives the tree back.** -/
theorem parse_stringify (ft : FloatText) (hft : ft.Faithful) (j : Json) (hvalid : Valid j)
    (hdepth : nesting j ≤ maxNestDepth) :
    ∃ t p, stringify ft j = .ok t ∧ parse ft t = .ok j p := by
  obtain ⟨d, hprint, -⟩ := stringifyDepth_reads hft j 0 hvalid (by omega)
  obtain ⟨p, hp⟩ := parse_printed hft hvalid hdepth hprint
  exact ⟨d.text, p, hprint, hp⟩

/-- A machine that prints the word of a float in decimal, with a fraction of zero. -/
def wordFloats : FloatText where
  render f := natText f.toNat ++ ['.', '0']
  read t := some (BitVec.ofNat 64 (digitsValue (t.take (t.length - 2))))

theorem wordFloats_faithful : wordFloats.Faithful where
  numeral f _ := by
    refine ⟨⟨[], natText f.toNat, ['.', '0'], [], .inl rfl, ⟨natText_digits _, natText_head _⟩,
      .inr ⟨['0'], ⟨by simp, forall_mem_singleton.mpr (by decide)⟩, rfl⟩, .inl rfl⟩, ?_, ?_⟩
    · simp [wordFloats, Numeral.text]
    · simp
  reads f _ := by
    simp [wordFloats, digitsValue_natText]

theorem parse_stringify_nested :
    let j : Json := .obj [(['\n'], .arr [.int (-7), .num 0x3ff8000000000000, .null]),
      (['"'], .obj [([], .str ['\\', '\t']), (['\n'], .bool true)])]
    nesting j = 2 ∧ ∃ t p, stringify wordFloats j = .ok t ∧ parse wordFloats t = .ok j p := by
  refine ⟨rfl, parse_stringify wordFloats wordFloats_faithful _ ?_ (by decide)⟩
  simp only [Valid, ValidEntries, ValidItems]
  decide

end ChezziLang.JsonText
