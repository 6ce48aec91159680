/-
  `std.csv`: `parse` and `format` of `csv.chz`.

  `parse` is a character machine with three flags and one character of lookahead;
  `step` is one turn of its loop and `scan` the loop.  A `str` is its list of code
  points wherever the source walks it.

  Proved:
    * `scan_field`: from the start of a field the loop reads a written field back;
    * `scan_record`: from the start of a record it reads a written record back;
    * `parse_format`: reading back what was written gives the rows that were written.
-/
import Mathlib.Data.List.Basic

namespace ChezziLang.Stdlib.Csv

open List

/-! ## Reading -/

/-- The variables of `parse` between two turns of its loop. -/
structure Scan where
  rows : List (List String)
  row : List String
  field : List Char
  inQuotes : Bool
  started : Bool
  fieldStart : Bool
  deriving Repr, DecidableEq

namespace Scan

def start : Scan := ⟨[], [], [], false, false, true⟩

section

variable (s : Scan)

def push (c : Char) : Scan := { s with field := s.field ++ [c] }

/-- An ordinary character outside quotes. -/
def keep (c : Char) : Scan :=
  { s.push c with started := true, fieldStart := false }

/-- A comma outside quotes. -/
def endField : Scan :=
  { s with row := s.row ++ [String.ofList s.field], field := [], started := true,
           fieldStart := true }

/-- A record separator outside quotes. -/
def endRecord : Scan :=
  let row := if s.started then s.row ++ [String.ofList s.field] else s.row
  { s with rows := s.rows ++ [row], row := [], field := [], started := false,
           fieldStart := true }

/-- One turn of the loop on `c`, with the character after it; `true` when the turn
    consumes that one too. -/
def step (c : Char) (next : Option Char) : Scan × Bool :=
  if s.inQuotes then
    if c = '"' then
      if next = some '"' then (s.push '"', true)
      else ({ s with inQuotes := false }, false)
    else (s.push c, false)
  else if c = '"' ∧ s.fieldStart then
    ({ s with inQuotes := true, started := true, fieldStart := false }, false)
  else if c = ',' then (s.endField, false)
  -- a lone CR in the middle of the text is data
  else if c = '\r' ∧ next.isSome ∧ next ≠ some '\n' then (s.keep c, false)
  else if c = '\r' then (s.endRecord, next = some '\n')
  else if c = '\n' then (s.endRecord, false)
  else (s.keep c, false)

end

/-- The loop of `parse`, over the characters from `i` on. -/
def scan : Scan → List Char → Scan
  | s, [] => s
  | s, [c] => (s.step c none).1
  | s, c :: d :: rest =>
    if (s.step c (some d)).2 then scan (s.step c (some d)).1 rest
    else scan (s.step c (some d)).1 (d :: rest)

/-- The flush of a final record without a separator. -/
def flush (s : Scan) : List (List String) :=
  if s.started then s.rows ++ [s.row ++ [String.ofList s.field]] else s.rows

end Scan

def parse (text : String) : List (List String) := (Scan.start.scan text.toList).flush

/-! ## Writing -/

/-- The loop of `std.string.find`, from index `i` where `rest` begins. -/
def findLoop (sub : List Char) : List Char → Int → Int
  | [], _ => -1
  | c :: rest, i =>
    if sub.length ≤ (c :: rest).length then
      if (c :: rest).take sub.length = sub then i else findLoop sub rest (i + 1)
    else -1

/-- `std.string.index_of`; the empty text is found at once. -/
def indexOf (s sub : List Char) : Int := if sub.length = 0 then 0 else findLoop sub s 0

/-- `std.string.replace` of a one-character `old`. -/
def replace (s : List Char) (old : Char) (new : List Char) : List Char :=
  s.flatMap fun c => if c = old then new else [c]

def needsQuote (f : List Char) : Bool :=
  indexOf f [','] ≥ 0 || indexOf f ['"'] ≥ 0 || indexOf f ['\r'] ≥ 0 || indexOf f ['\n'] ≥ 0

def quoteField (f : List Char) : List Char :=
  if needsQuote f then ['"'] ++ replace f '"' ['"', '"'] ++ ['"'] else f

/-- What `format` writes for a row, before its CRLF. -/
def formatRow (row : List String) : List Char :=
  if row = [""] then ['"', '"']
  else [','].intercalate (row.map fun f => quoteField f.toList)

def format (rows : List (List String)) : String :=
  String.ofList (rows.flatMap fun row => formatRow row ++ ['\r', '\n'])

/-! ## The loop -/

namespace Scan

theorem scan_cons (s : Scan) (c rest) : s.scan (c :: rest) =
      (s.step c rest.head?).1.scan (if (s.step c rest.head?).2 then rest.tail else rest) := by
  cases rest with
  | nil =>
    rw [scan, head?_nil, tail_nil, ite_self, scan]
  | cons d rest =>
    rw [scan, head?_cons, tail_cons]
    split <;> rfl

/-- A turn that consumes one character. -/
theorem scan_step {s t : Scan} {c} {rest : List Char} (h : s.step c rest.head? = (t, false)) :
    s.scan (c :: rest) = t.scan rest := by
  rw [scan_cons, h]
  rfl

/-- Characters that mean nothing outside quotes. -/
def plain (c : Char) : Prop := c ≠ ',' ∧ c ≠ '"' ∧ c ≠ '\r' ∧ c ≠ '\n'

theorem step_plain {s : Scan} {c} {next : Option Char} (hq : s.inQuotes = false) (hc : plain c) :
    s.step c next = (s.keep c, false) := by
  obtain ⟨hcomma, hquote, hcr, hlf⟩ := hc
  simp [step, hq, hcomma, hquote, hcr, hlf]

/-- Outside quotes plain text goes to the field as it is. -/
theorem scan_plain {s : Scan} {cs tail} (hq : s.inQuotes = false) (hcs : ∀ c ∈ cs, plain c) :
    s.scan (cs ++ tail) =
      { s with field := s.field ++ cs, started := s.started || !cs.isEmpty,
               fieldStart := s.fieldStart && cs.isEmpty }.scan tail := by
  induction cs generalizing s with
  | nil => simp
  | cons c cs ih =>
    have hkeep : (s.keep c).inQuotes = false := hq
    rw [cons_append, scan_step (step_plain hq (hcs c mem_cons_self)),
      ih hkeep (forall_mem_cons.mp hcs).2]
    simp [keep, push]

/-- Inside quotes the doubled text and its closing quote go to the field, halved. -/
theorem scan_quoted {s : Scan} {cs tail} (hq : s.inQuotes = true) (htail : tail.head? ≠ some '"') :
    s.scan (replace cs '"' ['"', '"'] ++ '"' :: tail) =
      { s with field := s.field ++ cs, inQuotes := false }.scan tail := by
  induction cs generalizing s with
  | nil =>
    have hstep : s.step '"' tail.head? = ({ s with inQuotes := false }, false) := by
      simp [step, hq, htail]
    rw [replace, flatMap_nil, nil_append, scan_step hstep, append_nil]
  | cons c cs ih =>
    have hpush : (s.push c).inQuotes = true := hq
    rw [replace, flatMap_cons]
    split
    · next hc =>
      subst hc
      rw [append_assoc, cons_append, scan_cons]
      simp only [step, hq, cons_append, head?_cons, if_true, tail_cons,
        nil_append]
      rw [← replace, ih hpush]
      simp [push]
    · next hc =>
      have hstep : ∀ next, s.step c next = (s.push c, false) := by
        simp [step, hq, hc]
      rw [append_assoc, singleton_append, scan_step (hstep _), ← replace, ih hpush]
      simp [push]

end Scan

/-! ## Written fields -/

theorem findLoop_char (c s i) (hi : 0 ≤ i) : 0 ≤ findLoop [c] s i ↔ c ∈ s := by
  induction s generalizing i with
  | nil => simp [findLoop]
  | cons d s ih =>
    rw [findLoop, if_pos (by simp), length_singleton, take_succ_cons, take_zero]
    by_cases h : d = c
    · subst h
      simp [hi]
    · rw [if_neg (by simpa using h), ih (i + 1) (by omega)]
      simp [Ne.symm h]

theorem needsQuote_eq_false {f} : needsQuote f = false ↔ ∀ c ∈ f, Scan.plain c := by
  have hindex : ∀ c, indexOf f [c] ≥ 0 ↔ c ∈ f := fun c => findLoop_char c f 0 (by omega)
  simp only [needsQuote, Bool.or_eq_false_iff, decide_eq_false_iff_not, hindex, Scan.plain]
  constructor
  · rintro ⟨⟨⟨hcomma, hquote⟩, hcr⟩, hlf⟩ c hc
    refine ⟨?_, ?_, ?_, ?_⟩ <;> (rintro rfl; contradiction)
  · intro h
    exact ⟨⟨⟨fun hc => (h _ hc).1 rfl, fun hc => (h _ hc).2.1 rfl⟩,
      fun hc => (h _ hc).2.2.1 rfl⟩, fun hc => (h _ hc).2.2.2 rfl⟩

namespace Scan

/-- The start of a field of the record `row`. -/
def atField (rows : List (List String)) (row : List String) (started : Bool) : Scan :=
  ⟨rows, row, [], false, started, true⟩

variable (rows : List (List String))

/-- **From the start of a field the loop reads a written field back.** -/
theorem scan_field (row started f tail) (htail : tail.head? ≠ some '"') :
    ∃ fieldStart, (atField rows row started).scan (quoteField f ++ tail) =
      Scan.scan ⟨rows, row, f, false, started || !f.isEmpty, fieldStart⟩ tail := by
  rw [quoteField]
  split
  · next hq =>
    have hne : f.isEmpty = false := by
      cases f with
      | nil => cases hq
      | cons c f => rfl
    have hopen : ∀ next, (atField rows row started).step '"' next =
        (⟨rows, row, [], true, true, false⟩, false) := fun next => by simp [step, atField]
    refine ⟨false, ?_⟩
    rw [append_assoc, append_assoc, singleton_append, singleton_append,
      scan_step (hopen _), scan_quoted rfl htail]
    simp [hne]
  · next hq =>
    refine ⟨f.isEmpty, ?_⟩
    rw [scan_plain rfl (needsQuote_eq_false.mp (Bool.eq_false_iff.mpr hq))]
    simp [atField]

/-! ## Written records -/

theorem scan_comma (s : Scan) (hq : s.inQuotes = false) (tail) :
    s.scan (',' :: tail) = s.endField.scan tail := by
  apply scan_step
  simp [step, hq]

theorem scan_crlf (s : Scan) (hq : s.inQuotes = false) (tail) :
    s.scan ('\r' :: '\n' :: tail) = s.endRecord.scan tail := by
  rw [scan_cons]
  simp [step, hq]

/-- The fields of a record after the ones in `row`; the record has started unless a
    single empty field is all of it. -/
theorem scan_fields (row fields : List String) (f started)
    (hstarted : started = true ∨ f ≠ "" ∨ fields ≠ []) (tail) : (atField rows row started).scan
        ([','].intercalate ((f :: fields).map fun f => quoteField f.toList) ++
          '\r' :: '\n' :: tail) =
      (atField (rows ++ [row ++ f :: fields]) [] false).scan tail := by
  induction fields generalizing row f started with
  | nil =>
    obtain ⟨fs, hfield⟩ := scan_field rows row started f.toList ('\r' :: '\n' :: tail) (by simp)
    have hone : [','].intercalate ([f].map fun f => quoteField f.toList) =
        quoteField f.toList := by simp [intercalate]
    have hend : (started || !f.toList.isEmpty) = true := by
      rcases hstarted with h | h | h
      · rw [h]; rfl
      · have hne : f.toList ≠ [] := fun he => h (String.toList_eq_nil_iff.mp he)
        rw [isEmpty_eq_false_iff.mpr hne, Bool.not_false, Bool.or_true]
      · exact absurd rfl h
    rw [hone, hfield, scan_crlf _ rfl, hend]
    simp [endRecord, atField]
  | cons g fields ih =>
    have hmore : [','].intercalate ((f :: g :: fields).map fun f => quoteField f.toList) =
        quoteField f.toList ++ ',' ::
          [','].intercalate ((g :: fields).map fun f => quoteField f.toList) := by
      simp [intercalate]
    obtain ⟨fs, hfield⟩ := scan_field rows row started f.toList
      (',' :: ([','].intercalate ((g :: fields).map fun f => quoteField f.toList) ++
        '\r' :: '\n' :: tail)) (by simp)
    have hnext : Scan.endField ⟨rows, row, f.toList, false, started || !f.toList.isEmpty, fs⟩ =
        atField rows (row ++ [f]) true := by simp [endField, atField]
    rw [hmore, append_assoc, cons_append, hfield, scan_comma _ rfl, hnext,
      ih (row ++ [f]) g true (.inl rfl)]
    simp

/-- **From the start of a record the loop reads a written record back.** -/
theorem scan_record (row : List String) (tail) :
    (atField rows [] false).scan (formatRow row ++ ['\r', '\n'] ++ tail) =
      (atField (rows ++ [row]) [] false).scan tail := by
  rw [append_assoc, cons_append, singleton_append, formatRow]
  split
  · next h =>
    -- a quoted empty field: opened, then closed by a quote that no quote follows
    subst h
    have hopen : ∀ next, (atField rows [] false).step '"' next =
        (⟨rows, [], [], true, true, false⟩, false) := fun next => by simp [step, atField]
    have hclose : Scan.step ⟨rows, [], [], true, true, false⟩ '"' (some '\r') =
        (⟨rows, [], [], false, true, false⟩, false) := by simp [step]
    rw [cons_append, singleton_append, scan_step (hopen _), scan_step hclose,
      scan_crlf _ rfl]
    simp [endRecord, atField]
  · next h =>
    cases row with
    | nil =>
      rw [map_nil, intercalate_nil, nil_append, scan_crlf _ rfl]
      simp [endRecord, atField]
    | cons f fields =>
      refine scan_fields rows [] fields f false (.inr ?_) tail
      by_contra hnot
      obtain ⟨hf, hfields⟩ := not_or.mp hnot
      exact h (by rw [not_not.mp hf, not_not.mp hfields])

theorem scan_format (rows written) : (atField written [] false).scan
        (rows.flatMap fun row => formatRow row ++ ['\r', '\n']) =
      atField (written ++ rows) [] false := by
  induction rows generalizing written with
  | nil => simp [scan]
  | cons row rows ih =>
    rw [flatMap_cons, scan_record, ih, append_assoc, singleton_append]

end Scan

/-- **Reading back what was written gives the rows that were written.** -/
theorem parse_format (rows : List (List String)) : parse (format rows) = rows := by
  rw [parse, format, String.toList_ofList]
  have h := Scan.scan_format rows []
  rw [nil_append] at h
  rw [show Scan.start = Scan.atField [] [] false from rfl, h]
  rfl

/-- An empty record and a record of one empty field are told apart. -/
example : parse (format [[], [""], ["a\r", "b\"c"]]) = [[], [""], ["a\r", "b\"c"]] := by decide

end ChezziLang.Stdlib.Csv
