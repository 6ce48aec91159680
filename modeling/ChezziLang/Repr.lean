/-
  How strings and byte strings are shown inside other values: `slice.rs`, `str_repr`, `bytes_repr`
  and `bytearray_repr`.

  A `str` is the list of its characters.  Which characters outside ASCII print as they are is a
  parameter.  `readRepr` reads a quoted text back: it knows the escapes that the printers use.

  Proved:
  * `readBody_flatMap`: a text is read back piece by piece.
  * `repr_reads_back`: every string and every byte string is what its repr reads back as.
-/
import Mathlib.Data.Nat.Digits.Lemmas

namespace ChezziLang.Repr

open Function List Option

abbrev Text := List Char

/-! ## Printing -/

/-- The single quote. -/
def apostrophe : Char := '\x27'

def reprQuote (hasSingle hasDouble : Bool) : Char :=
  if hasSingle && !hasDouble then '"' else apostrophe

def hexDigits : Text := "0123456789abcdef".toList

/-- `{n:0width$x}`. -/
def hexPadded (width n : Nat) : Text :=
  ((Nat.digits 16 n).map fun d => hexDigits.getD d '0').reverse.leftpad width '0'

def bytePiece (quote : Char) (alwaysEscapeSingle : Bool) (b : UInt8) : Text :=
  let c := Char.ofNat b.toNat
  if c = '\n' then ['\\', 'n']
  else if c = '\t' then ['\\', 't']
  else if c = '\r' then ['\\', 'r']
  else if c = '\\' then ['\\', '\\']
  else if c = apostrophe ∧ (alwaysEscapeSingle ∨ quote = apostrophe) then ['\\', apostrophe]
  else if 0x20 ≤ b.toNat ∧ b.toNat ≤ 0x7E then [c]
  else '\\' :: 'x' :: hexPadded 2 b.toNat

def bytesReprQuoted (bytes : List UInt8) (alwaysEscapeSingle : Bool) : Text :=
  let quote := reprQuote (bytes.contains 0x27) (bytes.contains 0x22)
  'b' :: quote :: (bytes.flatMap (bytePiece quote alwaysEscapeSingle) ++ [quote])

def bytesRepr (bytes : List UInt8) : Text := bytesReprQuoted bytes false

def bytearrayRepr (bytes : List UInt8) : Text :=
  "bytearray(".toList ++ bytesReprQuoted bytes true ++ [')']

def charPiece (printable : Char → Bool) (quote c : Char) : Text :=
  if c = '\n' then ['\\', 'n']
  else if c = '\t' then ['\\', 't']
  else if c = '\r' then ['\\', 'r']
  else if c = '\\' then ['\\', '\\']
  else if c = quote then ['\\', c]
  else if c.toNat < 0x20 ∨ c.toNat = 0x7F ∨ (¬ c.toNat < 0x80 ∧ printable c = false) then
    if c.toNat ≤ 0xFF then '\\' :: 'x' :: hexPadded 2 c.toNat
    else if c.toNat ≤ 0xFFFF then '\\' :: 'u' :: hexPadded 4 c.toNat
    else '\\' :: 'U' :: hexPadded 8 c.toNat
  else [c]

def strRepr (printable : Char → Bool) (s : Text) : Text :=
  let quote := reprQuote (s.contains apostrophe) (s.contains '"')
  quote :: (s.flatMap (charPiece printable quote) ++ [quote])

/-! ## Reading back -/

/-- The character of `width` hex digits. -/
def readHex (width : Nat) (t : Text) : Option (Char × Text) :=
  let ds := (t.take width).map hexDigits.idxOf
  let n := Nat.ofDigits 16 ds.reverse
  if ds.length = width ∧ (∀ d ∈ ds, d < 16) ∧ n.isValidChar then
    some (Char.ofNat n, t.drop width)
  else none

/-- What stands after a backslash. -/
def readEscape : Text → Option (Char × Text)
  | [] => none
  | e :: t =>
    if e = 'n' then some ('\n', t)
    else if e = 't' then some ('\t', t)
    else if e = 'r' then some ('\r', t)
    else if e = 'x' then readHex 2 t
    else if e = 'u' then readHex 4 t
    else if e = 'U' then readHex 8 t
    else if e = '\\' ∨ e = apostrophe ∨ e = '"' then some (e, t)
    else none

/-- Reads up to the closing quote, which is the last character. -/
def readBody (quote : Char) : Nat → Text → Option Text
  | 0, _ => none
  | _, [] => none
  | fuel + 1, c :: t =>
    if c = quote then if t = [] then some [] else none
    else if c = '\\' then (readEscape t).bind fun r => (readBody quote fuel r.2).map (r.1 :: ·)
    else (readBody quote fuel t).map (c :: ·)

def readRepr : Text → Option Text
  | [] => none
  | quote :: t => if quote = apostrophe ∨ quote = '"' then readBody quote t.length t else none

/-- `b` and a quoted text. -/
def readBytes : Text → Option (List UInt8)
  | 'b' :: t => (readRepr t).map (map fun c => UInt8.ofNat c.toNat)
  | _ => none

/-- A byte string inside `bytearray(` and `)`. -/
def readBytearray (t : Text) : Option (List UInt8) :=
  if t.take 10 = "bytearray(".toList then readBytes (t.drop 10).dropLast else none

/-! ## Pieces -/

/-- How `t` can stand for `c` between two quotes. -/
def Spells (quote c : Char) (t : Text) : Prop :=
  t = [c] ∧ c ≠ quote ∧ c ≠ '\\' ∨
    ∃ e, t = '\\' :: e ∧ ∀ rest, readEscape (e ++ rest) = some (c, rest)

variable {α : Type} {quote : Char}

theorem readBody_flatMap (hquote : quote ≠ '\\') {char} {piece : α → Text} (s : List α)
    (h : ∀ a ∈ s, Spells quote (char a) (piece a)) {fuel} (hfuel : s.length < fuel) :
    readBody quote fuel (s.flatMap piece ++ [quote]) = some (s.map char) := by
  induction s generalizing fuel with
  | nil =>
    rcases fuel with _ | fuel
    · omega
    simp [readBody]
  | cons a s ih =>
    rcases fuel with _ | fuel
    · omega
    have hrest := ih (forall_mem_cons.mp h).2 (Nat.lt_of_succ_lt_succ hfuel)
    rw [flatMap_cons, append_assoc, map_cons]
    rcases h a mem_cons_self with ⟨hpiece, hq, hslash⟩ | ⟨e, hpiece, he⟩
    · rw [hpiece, singleton_append, readBody, if_neg hq, if_neg hslash, hrest]
      rfl
    · rw [hpiece, cons_append, readBody, if_neg (Ne.symm hquote), if_pos rfl, he, bind_some, hrest]
      rfl

theorem idxOf_hexDigit {d} (hd : d < 16) : hexDigits.idxOf (hexDigits.getD d '0') = d := by
  have hall : ∀ d : Fin 16, hexDigits.idxOf (hexDigits.getD d '0') = d := by decide
  exact hall ⟨d, hd⟩

theorem readHex_hexPadded {width c} (h : c.toNat < 16 ^ width) (rest) :
    readHex width (hexPadded width c.toNat ++ rest) = some (c, rest) := by
  have hlen : (Nat.digits 16 c.toNat).length ≤ width :=
    (Nat.digits_length_le_iff (by norm_num) _).mpr h
  have hwidth : (hexPadded width c.toNat).length = width := by
    rw [hexPadded, length_leftpad, length_reverse, length_map]
    omega
  have hback : (Nat.digits 16 c.toNat).map (hexDigits.idxOf ∘ fun d => hexDigits.getD d '0') =
      Nat.digits 16 c.toNat := by
    conv_rhs => rw [← map_id (Nat.digits 16 c.toNat)]
    exact map_congr_left fun d hd => idxOf_hexDigit (Nat.digits_lt_base (by norm_num) hd)
  -- the padding reads as zeros, which stand above the digits
  have hds : (hexPadded width c.toNat).map hexDigits.idxOf =
      replicate (width - (Nat.digits 16 c.toNat).length) 0 ++ (Nat.digits 16 c.toNat).reverse := by
    rw [hexPadded, List.leftpad, List.map_append, List.map_replicate, List.map_reverse,
      List.map_map, hback, List.length_reverse, List.length_map]
    rfl
  have hvalue : Nat.ofDigits 16 ((hexPadded width c.toNat).map hexDigits.idxOf).reverse =
      c.toNat := by
    rw [hds, reverse_append, reverse_reverse, reverse_replicate,
      Nat.ofDigits_append, Nat.ofDigits_digits, Nat.ofDigits_replicate_zero, Nat.mul_zero,
      Nat.add_zero]
  have hsmall : ∀ d ∈ (hexPadded width c.toNat).map hexDigits.idxOf, d < 16 := by
    rw [hds]
    intro d hd
    rcases mem_append.mp hd with hd | hd
    · rw [eq_of_mem_replicate hd]
      norm_num
    · exact Nat.digits_lt_base (by norm_num) (mem_reverse.mp hd)
  unfold readHex
  rw [take_left' hwidth, drop_left' hwidth]
  dsimp only
  rw [hvalue, if_pos ⟨by rw [length_map, hwidth], hsmall, c.valid⟩, Char.ofNat_toNat]

theorem Spells.escape {c e} (he : ∀ rest, readEscape (e ++ rest) = some (c, rest)) :
    Spells quote c ('\\' :: e) :=
  .inr ⟨e, rfl, he⟩

theorem Spells.hex {c x width} (hc : c.toNat < 16 ^ width)
    (hx : x = 'x' ∧ width = 2 ∨ x = 'u' ∧ width = 4 ∨ x = 'U' ∧ width = 8) :
    Spells quote c ('\\' :: x :: hexPadded width c.toNat) := by
  refine .escape fun rest => ?_
  rw [← readHex_hexPadded hc rest]
  rcases hx with ⟨rfl, rfl⟩ | ⟨rfl, rfl⟩ | ⟨rfl, rfl⟩ <;> simp [readEscape]

/-- The one quote that may be chosen although the text has it is the single quote. -/
theorem reprQuote_cases (hasSingle hasDouble : Bool) : reprQuote hasSingle hasDouble = apostrophe ∨
      reprQuote hasSingle hasDouble = '"' ∧ hasDouble = false := by
  cases hasSingle <;> cases hasDouble <;> simp [reprQuote]

theorem charPiece_spells (printable) (hquote : quote = apostrophe ∨ quote = '"') (c) :
    Spells quote c (charPiece printable quote c) := by
  have hvalid : c.toNat < 16 ^ 8 := c.val.toNat_lt
  unfold charPiece
  split_ifs with hn ht hr hs hq hp hx hu
  · exact .escape fun rest => by rw [hn]; rfl
  · exact .escape fun rest => by rw [ht]; rfl
  · exact .escape fun rest => by rw [hr]; rfl
  · exact .escape fun rest => by rw [hs]; rfl
  · refine .escape fun rest => ?_
    rcases hquote with rfl | rfl <;> rw [hq] <;> rfl
  · exact .hex (by omega) (.inl ⟨rfl, rfl⟩)
  · exact .hex (by omega) (.inr (.inl ⟨rfl, rfl⟩))
  · exact .hex hvalid (.inr (.inr ⟨rfl, rfl⟩))
  · exact .inl ⟨rfl, hq, hs⟩

theorem toNat_byteChar (b : UInt8) : (Char.ofNat b.toNat).toNat = b.toNat := by
  have := b.toNat_lt
  have hvalid : b.toNat.isValidChar := .inl (by omega)
  rw [Char.ofNat, dif_pos hvalid]
  rfl

theorem bytePiece_spells (always : Bool) {b}
    (hquote : quote = apostrophe ∨ quote = '"' ∧ b ≠ 0x22) :
    Spells quote (Char.ofNat b.toNat) (bytePiece quote always b) := by
  have hb := toNat_byteChar b
  have hlt := b.toNat_lt
  unfold bytePiece
  dsimp only
  split_ifs with hn ht hr hs hq hp
  · exact .escape fun rest => by rw [hn]; rfl
  · exact .escape fun rest => by rw [ht]; rfl
  · exact .escape fun rest => by rw [hr]; rfl
  · exact .escape fun rest => by rw [hs]; rfl
  · exact .escape fun rest => by rw [hq.1]; rfl
  · refine .inl ⟨rfl, fun hc => ?_, hs⟩
    rcases hquote with rfl | ⟨rfl, hne⟩
    · exact hq ⟨hc, .inr rfl⟩
    · refine hne (UInt8.toNat_inj.mp ?_)
      rw [← hb, hc]
      rfl
  · have := @Spells.hex quote (Char.ofNat b.toNat) 'x' 2 (by omega) (.inl ⟨rfl, rfl⟩)
    rwa [hb] at this

/-! ## Reprs -/

theorem le_length_flatMap {f : α → Text} {s : List α} (h : ∀ a ∈ s, f a ≠ []) :
    s.length ≤ (s.flatMap f).length := by
  induction s with
  | nil => exact Nat.le_refl 0
  | cons a s ih =>
    have hrest := ih (forall_mem_cons.mp h).2
    have hpos := length_pos_iff.mpr (h a mem_cons_self)
    rw [flatMap_cons, length_append, length_cons]
    omega

theorem readRepr_pieces (hquote : quote = apostrophe ∨ quote = '"') {char : α → Char}
    {piece : α → Text} {s : List α} (h : ∀ a ∈ s, Spells quote (char a) (piece a)) :
    readRepr (quote :: (s.flatMap piece ++ [quote])) = some (s.map char) := by
  have hne : ∀ a ∈ s, piece a ≠ [] := by
    intro a ha
    rcases h a ha with ⟨ht, -⟩ | ⟨e, ht, -⟩ <;> rw [ht] <;> exact cons_ne_nil _ _
  have hlen := le_length_flatMap hne
  rw [readRepr, if_pos hquote]
  refine readBody_flatMap ?_ s h ?_
  · rcases hquote with rfl | rfl <;> decide
  · rw [length_append, length_singleton]
    omega

theorem readRepr_strRepr (printable s) : readRepr (strRepr printable s) = some s := by
  have hquote := (reprQuote_cases (s.contains apostrophe) (s.contains '"')).imp id And.left
  have hread := readRepr_pieces hquote fun c (_ : c ∈ s) => charPiece_spells printable hquote c
  rwa [List.map_id'] at hread

theorem readBytes_bytesReprQuoted (bytes : List UInt8) (always) :
    readBytes (bytesReprQuoted bytes always) = some bytes := by
  have hcases := reprQuote_cases (bytes.contains 0x27) (bytes.contains 0x22)
  generalize hquote : reprQuote (bytes.contains 0x27) (bytes.contains 0x22) = quote at hcases
  have hspells : ∀ b ∈ bytes, Spells quote (Char.ofNat b.toNat) (bytePiece quote always b) := by
    refine fun b hb => bytePiece_spells always (hcases.imp id fun h => ⟨h.1, fun heq => ?_⟩)
    rw [heq, ← contains_iff_mem, h.2] at hb
    cases hb
  have hread := readRepr_pieces (hcases.imp id And.left) hspells
  have hback : bytes.map ((fun c : Char => UInt8.ofNat c.toNat) ∘ fun b => Char.ofNat b.toNat) =
      bytes := by
    conv_rhs => rw [← map_id bytes]
    refine map_congr_left fun b _ => ?_
    rw [comp_apply, toNat_byteChar]
    exact UInt8.ofNat_toNat
  show (readRepr _).map _ = _
  rw [hquote, hread, Option.map_some, List.map_map, hback]

theorem readBytearray_bytearrayRepr (bytes) : readBytearray (bytearrayRepr bytes) = some bytes := by
  have htake : (bytearrayRepr bytes).take 10 = "bytearray(".toList := rfl
  have hdrop : (bytearrayRepr bytes).drop 10 = bytesReprQuoted bytes true ++ [')'] := rfl
  rw [readBytearray, if_pos htake, hdrop, dropLast_concat, readBytes_bytesReprQuoted]

theorem injective_of_reads {print} {read : Text → Option α} (h : ∀ a, read (print a) = some a) :
    Injective print := by
  intro a b heq
  have hread := h a
  rw [heq, h b] at hread
  exact (some_inj.mp hread).symm

/-- **Reprs can be read back**, so that different values have different reprs. -/
theorem repr_reads_back (printable : Char → Bool) :
    (∀ s, readRepr (strRepr printable s) = some s) ∧ Function.Injective (strRepr printable) ∧
    (∀ bytes, readBytes (bytesRepr bytes) = some bytes) ∧ Function.Injective bytesRepr ∧
    (∀ bytes, readBytearray (bytearrayRepr bytes) = some bytes) ∧
      Function.Injective bytearrayRepr := by
  have hstr := readRepr_strRepr printable
  have hbytes : ∀ bytes, readBytes (bytesRepr bytes) = some bytes := fun bytes =>
    readBytes_bytesReprQuoted bytes false
  exact ⟨hstr, injective_of_reads hstr, hbytes, injective_of_reads hbytes,
    readBytearray_bytearrayRepr, injective_of_reads readBytearray_bytearrayRepr⟩

end ChezziLang.Repr
