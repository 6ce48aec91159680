/-
  JSON trees, their printer and their parser: `std/json.chz`.

  A `str` is the list of its codepoints.  The parser is a cursor over the input's
  codepoints; a parse error carries its message with the line, column and index it points
  at.  The parser's loops and its recursion run on fuel; `Res.stuck` is running out of it.
  An index into the source is guarded where the code guards it, so `chr` is the one call
  that could fault.
  What a float prints as, and what a numeral reads as, is the machine's: `FloatText`.
-/
import ChezziLang.Lib.F64
import ChezziLang.Lib.I64
import Mathlib.Data.Nat.Digits.Defs

namespace ChezziLang.JsonText

open Lib

abbrev Text := List Char

inductive Json where
  | null
  | bool (b : Bool)
  | int (n : Int64)
  | num (f : BitVec 64)
  | str (s : Text)
  | arr (items : List Json)
  | obj (entries : List (Text × Json))

/-- `m[key] = value`: an existing key keeps its place. -/
def setKey (m : List (Text × Json)) (key : Text) (value : Json) : List (Text × Json) :=
  match m with
  | [] => [(key, value)]
  | (k, v) :: rest => if k = key then (k, value) :: rest else (k, v) :: setKey rest key value

/-- How floats are printed and numerals read. -/
structure FloatText where
  render : BitVec 64 → Text
  read : Text → Option (BitVec 64)

/-- `f - f != 0.0`, which holds of the infinities and the NaNs alone. -/
def nonFinite (f : BitVec 64) : Bool := decide (0x7ff0000000000000 ≤ F64.magnitude f)

/-- `MAX_NEST_DEPTH`. -/
def maxNestDepth : Nat := 2000

/-! ## Printing -/

/-- The digit of a number below sixteen. -/
def hexDigit (n : Nat) : Char := ("0123456789abcdef".toList).getD n '0'

/-- A natural number in decimal. -/
def natText (n : Nat) : Text :=
  if n = 0 then ['0'] else (Nat.digits 10 n).reverse.map hexDigit

/-- An int in decimal. -/
def intText (n : Int64) : Text :=
  if n < 0 then '-' :: natText n.toInt.natAbs else natText n.toInt.natAbs

/-- `xs[i..j]`. -/
def slice (xs : Text) (i j : Nat) : Text := (xs.take j).drop i

/-- Push the run before `i`, if there is one. -/
def pushRun (parts : List Text) (cs : Text) (run i : Nat) : List Text :=
  if run < i then parts ++ [slice cs run i] else parts

/-- What an escaped character is written as. -/
def escapeChar (c : Char) : Text :=
  if c = '"' then ['\\', '"']
  else if c = '\\' then ['\\', '\\']
  else if c.toNat = 10 then ['\\', 'n']
  else if c.toNat = 9 then ['\\', 't']
  else if c.toNat = 13 then ['\\', 'r']
  else if c.toNat = 8 then ['\\', 'b']
  else if c.toNat = 12 then ['\\', 'f']
  else ['\\', 'u', '0', '0', hexDigit (c.toNat / 16), hexDigit (c.toNat % 16)]

/-- The loop of `escape`, at the codepoints from `i` on. -/
def escapeLoop (cs : Text) : (left : Text) → (i run : Nat) → (parts : List Text) → Text
  | [], i, run, parts => ((pushRun parts cs run i) ++ [['"']]).flatten
  | c :: left, i, run, parts =>
    if c.toNat ≥ 32 ∧ c ≠ '"' ∧ c ≠ '\\' then escapeLoop cs left (i + 1) run parts
    else escapeLoop cs left (i + 1) (i + 1) (pushRun parts cs run i ++ [escapeChar c])

def escape (s : Text) : Text := escapeLoop s s 0 0 [['"']]

/-- `num_str`. -/
def numStr (ft : FloatText) (f : BitVec 64) : Except String Text :=
  if nonFinite f then .error "cannot serialize non-finite float to JSON" else .ok (ft.render f)

mutual

/-- `stringify_depth`: `depth` counts the containers around the tree. -/
def stringifyDepth (ft : FloatText) : Json → Nat → Except String Text
  | .null, _ => .ok ['n', 'u', 'l', 'l']
  | .bool b, _ => .ok (if b then ['t', 'r', 'u', 'e'] else ['f', 'a', 'l', 's', 'e'])
  | .int n, _ => .ok (intText n)
  | .num f, _ => numStr ft f
  | .str s, _ => .ok (escape s)
  | .arr xs, depth =>
    if depth + 1 > maxNestDepth then .error "json.stringify: exceeded max depth"
    else
      match stringifyItems ft xs true (depth + 1) with
      | .error e => .error e
      | .ok body => .ok ('[' :: (body ++ [']']))
  | .obj m, depth =>
    if depth + 1 > maxNestDepth then .error "json.stringify: exceeded max depth"
    else
      match stringifyEntries ft m true (depth + 1) with
      | .error e => .error e
      | .ok body => .ok ('\x7b' :: (body ++ ['\x7d']))

def stringifyItems (ft : FloatText) : List Json → (first : Bool) → Nat → Except String Text
  | [], _, _ => .ok []
  | x :: xs, first, depth =>
    match stringifyDepth ft x depth, stringifyItems ft xs false depth with
    | .ok t, .ok rest => .ok ((if first then [] else [',']) ++ (t ++ rest))
    | .error e, _ => .error e
    | .ok _, .error e => .error e

def stringifyEntries (ft : FloatText) :
    List (Text × Json) → (first : Bool) → Nat → Except String Text
  | [], _, _ => .ok []
  | (k, x) :: m, first, depth =>
    match stringifyDepth ft x depth, stringifyEntries ft m false depth with
    | .ok t, .ok rest => .ok ((if first then [] else [',']) ++ (escape k ++ ':' :: (t ++ rest)))
    | .error e, _ => .error e
    | .ok _, .error e => .error e

end

def stringify (ft : FloatText) (j : Json) : Except String Text := stringifyDepth ft j 0

/-! ## The cursor -/

structure Parser where
  src : Text
  pos : Nat
  depth : Nat

/-- How a parsing function ends: a result, an error value, a fault of the machine, or no
    fuel. -/
inductive Res (α : Type) where
  | ok (a : α) (p : Parser)
  | err (message : String)
  | fault (message : String)
  | stuck

def Res.andThen {α β : Type} (r : Res α) (k : α → Parser → Res β) : Res β :=
  match r with
  | .ok a p => k a p
  | .err message => .err message
  | .fault message => .fault message
  | .stuck => .stuck

namespace Parser

def rest (p : Parser) : Text := p.src.drop p.pos

def advance (p : Parser) (n : Nat) : Parser := { p with pos := p.pos + n }

/-- `peek`; `none` is the empty string past the end. -/
def peek (p : Parser) : Option Char := p.src[p.pos]?

def isWs (c : Char) : Bool := c = ' ' || c = '\t' || c = '\n' || c = '\r'

def skipWs (p : Parser) : Parser := p.advance (p.rest.takeWhile isWs).length

/-- The line and column of a position. -/
def lineCol : Text → Nat × Nat → Nat × Nat
  | [], at' => at'
  | c :: cs, (line, col) => lineCol cs (if c = '\n' then (line + 1, 1) else (line, col + 1))

def atPos (p : Parser) (msg : String) (pos : Nat) : String :=
  let lc := lineCol (p.src.take (min pos p.src.length)) (1, 1)
  msg ++ " at line " ++ toString lc.1 ++ " column " ++ toString lc.2 ++
    " (char " ++ toString pos ++ ")"

def here (p : Parser) (msg : String) : String := p.atPos msg p.pos

end Parser

/-- A `str` of at most one codepoint. -/
def charText (c : Option Char) : String := String.ofList c.toList

def isDigit (c : Option Char) : Bool :=
  match c with
  | some c => decide ('0' ≤ c) && decide (c ≤ '9')
  | none => false

def hexVal (c : Option Char) : Except String Nat :=
  match c with
  | some d =>
    if '0' ≤ d ∧ d ≤ '9' then .ok (d.toNat - '0'.toNat)
    else if 'a' ≤ d ∧ d ≤ 'f' then .ok (d.toNat - 'a'.toNat + 10)
    else if 'A' ≤ d ∧ d ≤ 'F' then .ok (d.toNat - 'A'.toNat + 10)
    else .error ("invalid hex digit '" ++ charText c ++ "'")
  | none => .error ("invalid hex digit '" ++ charText c ++ "'")

/-! ## Scalars -/

/-- The loop of `parse_lit`. -/
def litLoop (word : String) (val : Json) (start : Nat) : Text → Parser → Res Json
  | [], p => .ok val p
  | expected :: left, p =>
    if p.peek ≠ some expected then
      .err ((p.advance 1).atPos ("invalid literal, expected '" ++ word ++ "'") start)
    else litLoop word val start left (p.advance 1)

def parseLit (word : String) (val : Json) (p : Parser) : Res Json :=
  litLoop word val p.pos word.toList p

/-- The loop of `parse_hex4`. -/
def hex4Loop : Nat → Nat → Parser → Res Nat
  | 0, n, p => .ok n p
  | left + 1, n, p =>
    match hexVal p.peek with
    | .ok d => hex4Loop left (n * 16 + d) (p.advance 1)
    | .error m => .err ((p.advance 1).atPos m p.pos)

def parseHex4 (p : Parser) : Res Nat := hex4Loop 4 0 p

/-- `chr`, which faults on what is not a codepoint. -/
def chr (n : Nat) (p : Parser) : Res Text :=
  if n.isValidChar then .ok [Char.ofNat n] p
  else .fault ("chr(): " ++ toString n ++ " is not a valid Unicode codepoint")

/-- `parse_unicode`: a surrogate pair is one codepoint. -/
def parseUnicode (p : Parser) : Res Text :=
  (parseHex4 p).andThen fun hi p =>
    if 55296 ≤ hi ∧ hi ≤ 56319 then
      if p.peek ≠ some '\\' then .err ((p.advance 1).here "expected low surrogate")
      else if (p.advance 1).peek ≠ some 'u' then .err ((p.advance 2).here "expected low surrogate")
      else
        (parseHex4 (p.advance 2)).andThen fun lo p =>
          if lo < 56320 ∨ lo > 57343 then .err (p.here "invalid low surrogate")
          else chr (65536 + (hi - 55296) * 1024 + (lo - 56320)) p
    else if 56320 ≤ hi ∧ hi ≤ 57343 then .err (p.here "unexpected low surrogate")
    else chr hi p

/-- What the character after a backslash stands for; `p` is past it. -/
def parseEscape (e : Option Char) (p : Parser) : Res Text :=
  match e with
  | some '"' => .ok ['"'] p
  | some '\\' => .ok ['\\'] p
  | some '/' => .ok ['/'] p
  | some 'n' => .ok ['\n'] p
  | some 't' => .ok ['\t'] p
  | some 'r' => .ok ['\r'] p
  | some 'b' => chr 8 p
  | some 'f' => chr 12 p
  | some 'u' => parseUnicode p
  | _ => .err (p.atPos ("invalid escape '\\" ++ charText e ++ "'") (p.pos - 1))

/-- The loop of `parse_string`. -/
def stringLoop (openQuote : Nat) : Nat → (parts : List Text) → (run : Nat) → Parser → Res Text
  | 0, _, _, _ => .stuck
  | fuel + 1, parts, run, p =>
    match p.peek with
    | none => .err (p.atPos "unterminated string" openQuote)
    | some c =>
      if c = '"' then .ok (pushRun parts p.src run p.pos).flatten (p.advance 1)
      else if c = '\\' then
        (parseEscape (p.advance 1).peek (p.advance 2)).andThen fun t p' =>
          stringLoop openQuote fuel (pushRun parts p.src run p.pos ++ [t]) p'.pos p'
      else if c.toNat < 32 then .err (p.atPos "invalid control character in string" p.pos)
      else stringLoop openQuote fuel parts run (p.advance 1)

def parseString (p : Parser) : Res Text :=
  stringLoop p.pos (p.src.length + 1) [] (p.pos + 1) (p.advance 1)

/-- `while is_digit(peek())`, and how many. -/
def digitRun (p : Parser) : Nat := (p.rest.takeWhile fun c => isDigit (some c)).length

/-- `str.to_int` of an optional minus and digits. -/
def toInt (raw : Text) : Option Int64 :=
  let digits (ds : Text) : Nat := ds.foldl (fun n d => n * 10 + (d.toNat - '0'.toNat)) 0
  match raw with
  | '-' :: ds => I64.checked (-(digits ds : Int))
  | ds => I64.checked (digits ds)

def numFloat (ft : FloatText) (raw : Text) (start : Nat) (p : Parser) : Res Json :=
  match ft.read raw with
  | none => .err (p.atPos "invalid number" start)
  | some f =>
    if nonFinite f then .err (p.atPos "invalid number: value out of range" start)
    else .ok (.num f) p

/-- The fraction of a numeral: whether there is one. -/
def parseFraction (p : Parser) : Res Bool :=
  if p.peek = some '.' then
    let q := p.advance 1
    let frac := digitRun q
    if frac = 0 then .err ((q.advance frac).atPos "invalid number: digits required after '.'" p.pos)
    else .ok true (q.advance frac)
  else .ok false p

/-- The exponent of a numeral: whether there is one. -/
def parseExponent (p : Parser) : Res Bool :=
  if p.peek = some 'e' ∨ p.peek = some 'E' then
    let q := p.advance 1
    let q := if q.peek = some '+' ∨ q.peek = some '-' then q.advance 1 else q
    let exp := digitRun q
    if exp = 0 then
      .err ((q.advance exp).atPos "invalid number: digits required in exponent" p.pos)
    else .ok true (q.advance exp)
  else .ok false p

def parseNumber (ft : FloatText) (p : Parser) : Res Json :=
  let start := p.pos
  let q := if p.peek = some '-' then p.advance 1 else p
  let zeroFirst := q.peek = some '0'
  let intDigits := digitRun q
  let q := q.advance intDigits
  if intDigits = 0 then .err (q.atPos "invalid number: expected a digit" start)
  else if zeroFirst ∧ intDigits > 1 then .err (q.atPos "invalid number: leading zero" start)
  else
    (parseFraction q).andThen fun hasFrac q =>
      (parseExponent q).andThen fun hasExp q =>
        let raw := slice q.src start q.pos
        if !hasFrac && !hasExp then
          match toInt raw with
          | some i => .ok (.int i) q
          | none => numFloat ft raw start q
        else numFloat ft raw start q

/-! ## Values -/

/-- Leave a container. -/
def Parser.up (p : Parser) : Parser := { p with depth := p.depth - 1 }

mutual

def parseValue (ft : FloatText) : Nat → Parser → Res Json
  | 0, _ => .stuck
  | fuel + 1, p =>
    let p := p.skipWs
    match p.peek with
    | none => .err (p.here "unexpected end of input")
    | some c =>
      if c = '\x7b' then parseObject ft fuel p
      else if c = '[' then parseArray ft fuel p
      else if c = '"' then (parseString p).andThen fun s p => .ok (.str s) p
      else if c = 't' then parseLit "true" (.bool true) p
      else if c = 'f' then parseLit "false" (.bool false) p
      else if c = 'n' then parseLit "null" .null p
      else if c = '-' ∨ ('0' ≤ c ∧ c ≤ '9') then parseNumber ft p
      else .err (p.here ("unexpected character '" ++ charText (some c) ++ "'"))

def parseArray (ft : FloatText) : Nat → Parser → Res Json
  | 0, _ => .stuck
  | fuel + 1, p =>
    let p := { p with depth := p.depth + 1 }
    if p.depth > maxNestDepth then .err "exceeded max depth"
    else
      let p := (p.advance 1).skipWs
      if p.peek = some ']' then .ok (.arr []) (p.advance 1).up
      else arrayLoop ft fuel [] p

def arrayLoop (ft : FloatText) : Nat → List Json → Parser → Res Json
  | 0, _, _ => .stuck
  | fuel + 1, items, p =>
    (parseValue ft fuel p).andThen fun v p =>
      let p := p.skipWs
      let c := p.peek
      let p := p.advance 1
      if c = some ']' then .ok (.arr (items ++ [v])) p.up
      else if c ≠ some ',' then .err (p.atPos "expected ',' or ']' in array" (p.pos - 1))
      else arrayLoop ft fuel (items ++ [v]) p

def parseObject (ft : FloatText) : Nat → Parser → Res Json
  | 0, _ => .stuck
  | fuel + 1, p =>
    let p := { p with depth := p.depth + 1 }
    if p.depth > maxNestDepth then .err "exceeded max depth"
    else
      let p := (p.advance 1).skipWs
      if p.peek = some '\x7d' then .ok (.obj []) (p.advance 1).up
      else objectLoop ft fuel [] p

def objectLoop (ft : FloatText) : Nat → List (Text × Json) → Parser → Res Json
  | 0, _, _ => .stuck
  | fuel + 1, m, p =>
    let p := p.skipWs
    if p.peek ≠ some '"' then .err (p.here "expected string key in object")
    else
      (parseString p).andThen fun key p =>
        let p := p.skipWs
        let c := p.peek
        let p := p.advance 1
        if c ≠ some ':' then .err (p.atPos "expected ':' after object key" (p.pos - 1))
        else
          (parseValue ft fuel p).andThen fun v p =>
            let p := p.skipWs
            let c := p.peek
            let p := p.advance 1
            if c = some '\x7d' then .ok (.obj (setKey m key v)) p.up
            else if c ≠ some ',' then
              .err (p.atPos "expected ',' or '\x7d' in object" (p.pos - 1))
            else objectLoop ft fuel (setKey m key v) p

end

/-- `parse`.  An opening bracket takes three calls. -/
def parse (ft : FloatText) (s : Text) : Res Json :=
  (parseValue ft (3 * s.length + 1) ⟨s, 0, 0⟩).andThen fun v p =>
    let p := p.skipWs
    if p.pos < p.src.length then .err (p.here "trailing characters after JSON value")
    else .ok v p

end ChezziLang.JsonText
