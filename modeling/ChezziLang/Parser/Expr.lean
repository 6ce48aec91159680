/-
  The expression parser (`parser/expr.rs`): the precedence-climbing loop, prefix operators
  and ranges, over names and grouping.

  The recursion of the parser is bounded by its own limits, so the model needs no other
  bound: the first argument of `parseBp` and `parseUnary` is what is left of `MAX_DEPTH`,
  and the first counter of `infixLoop` is what is left of `MAX_AST_DEPTH` for one loop.
  The inner loop of `parse_bp` that collects a comparison chain is a state of `infixLoop`:
  a chain stays open until a token that does not continue it.

  Other primaries, the postfix chain, tuples and calls are not modelled: `outside` stands
  for them.  A `Dedent` is never consumed here, so `ended_at_block` is false throughout.
-/
import ChezziLang.Ast.ConstEval

namespace ChezziLang.Parser

/-! ## Trees and tokens -/

/-- Expressions up to ids and spans.  A chain has its first operand and its links, so it has
    one operand more than operators. -/
inductive Expr where
  | name (x : String)
  | unary (op : UnaryOp) (e : Expr)
  | binary (op : BinaryOp) (lhs rhs : Expr)
  | compare (first : Expr) (links : List (BinaryOp × Expr))
  | range (start stop : Option Expr) (inclusive : Bool)
  | coalesce (lhs rhs : Expr)

inductive Token where
  | ident (x : String)
  | not
  | minus
  | bang
  | question
  | dotDot
  | dotDotEq
  | pipe
  | or
  | and
  | eqEq
  | notEq
  | «in»
  | lt
  | ltEq
  | gt
  | gtEq
  | bitOr
  | caret
  | amp
  | shl
  | shr
  | plus
  | star
  | slash
  | percent
  | questionQuestion
  | lParen
  | rParen
  | lBracket
  | rBracket
  | lBrace
  | rBrace
  | dot
  | questionDot
  | comma
  | colon
  | newline
  | dedent
  | assign
  | else
  | elif
  | for
  | if
  | eof
  /-- Literals, the other keywords and the other assignment operators. -/
  | other (text : String)
  deriving DecidableEq, Repr

inductive InfixOp where
  | bin (op : BinaryOp)
  | range
  | pipe
  | coalesce
  deriving DecidableEq, Repr

/-- `NOT_BP`. -/
def notBp : Nat := 6

/-- `RANGE_BP`. -/
def rangeBp : Nat := 9

/-- `infix_op`: the operator with its left and right binding powers. -/
def infixOp : Token → Option (InfixOp × Nat × Nat)
  | .pipe => some (.pipe, 1, 2)
  | .or => some (.bin .or, 3, 4)
  | .and => some (.bin .and, 5, 6)
  | .eqEq => some (.bin .eq, 7, 8)
  | .notEq => some (.bin .notEq, 7, 8)
  | .in => some (.bin .in, 7, 8)
  | .lt => some (.bin .lt, 7, 8)
  | .ltEq => some (.bin .ltEq, 7, 8)
  | .gt => some (.bin .gt, 7, 8)
  | .gtEq => some (.bin .gtEq, 7, 8)
  | .bitOr => some (.bin .bitOr, 11, 12)
  | .caret => some (.bin .bitXor, 13, 14)
  | .amp => some (.bin .bitAnd, 15, 16)
  | .shl => some (.bin .shl, 17, 18)
  | .shr => some (.bin .shr, 17, 18)
  | .dotDot | .dotDotEq => some (.range, 9, 10)
  | .plus => some (.bin .add, 21, 22)
  | .minus => some (.bin .sub, 21, 22)
  | .star => some (.bin .mul, 23, 24)
  | .slash => some (.bin .div, 23, 24)
  | .percent => some (.bin .mod, 23, 24)
  | .questionQuestion => some (.coalesce, 25, 25)
  | _ => none

/-- `is_comparison`. -/
def isComparison : BinaryOp → Bool
  | .eq | .notEq | .in | .lt | .ltEq | .gt | .gtEq => true
  | _ => false

/-- `token_ends_range`. -/
def tokenEndsRange : Token → Bool
  | .colon | .rBracket | .rParen | .rBrace | .comma | .newline | .eof | .dedent | .and | .or
  | .pipe | .assign | .eqEq | .notEq | .lt | .ltEq | .gt | .gtEq | .in | .else | .elif | .for
  | .if | .bitOr | .caret | .amp | .shl | .shr | .plus | .star | .slash | .percent => true
  | _ => false

/-- The prefix operators of `parse_unary`. -/
def unaryOp : Token → Option UnaryOp
  | .minus => some .neg
  | .bang => some .errVal
  | .question => some .wrap
  | _ => none

/-- The tokens that continue a postfix chain. -/
def startsPostfix : Token → Bool
  | .lParen | .dot | .lBracket | .question | .questionDot => true
  | _ => false

/-! ## The parser -/

inductive ParseError where
  | tooDeep
  /-- "a range has no third bound; write `Range(a, b, step)` for a step" -/
  | thirdBound
  /-- "an inclusive range needs an end" -/
  | rangeNeedsEnd
  /-- "right side of '|>' must be a function call" -/
  | pipeNeedsCall
  /-- "unexpected ')' in expression" -/
  | emptyGroup
  /-- A missing `)`. -/
  | expectedRParen
  /-- Not modelled. -/
  | outside
  deriving DecidableEq, Repr

structure Limits where
  maxDepth : Nat
  maxAstDepth : Nat

/-- `MAX_DEPTH` and `MAX_AST_DEPTH`. -/
def limits : Limits := ⟨512, 16000⟩

/-- The tokens from the cursor on, and `fold_depth`. -/
structure State where
  toks : List Token
  fold : Nat

namespace State

def peek (st : State) : Token := st.toks.headD .eof

/-- `advance`: the cursor stays on the last token. -/
def advance (st : State) : State :=
  match st.toks with
  | _ :: t :: rest => { st with toks := t :: rest }
  | _ => st

end State

/-- A parsing function of the source. -/
abbrev ParseFn := State → Except ParseError (Expr × State)

/-- `parse_range_end`. -/
def parseRangeEnd (operand : Nat → ParseFn) (inclusive : Bool) (st : State) :
    Except ParseError (Option Expr × State) :=
  if tokenEndsRange st.peek then
    if inclusive then .error .rangeNeedsEnd else .ok (none, st)
  else do
    let (stop, st) ← operand (rangeBp + 1) st
    return (some stop, st)

/-- What `parse_bp` has built so far: an expression, or a comparison chain that the next
    token may continue. -/
inductive Lhs where
  | expr (e : Expr)
  | chain (first : Expr) (op : BinaryOp) (second : Expr) (rest : List (BinaryOp × Expr))

namespace Lhs

/-- One comparison is a binary expression, several are a chain. -/
def close : Lhs → Expr
  | .expr e => e
  | .chain first op second [] => .binary op first second
  | .chain first op second (link :: rest) => .compare first ((op, second) :: link :: rest)

/-- The next comparison. -/
def link (lhs : Lhs) (op : BinaryOp) (rhs : Expr) : Lhs :=
  match lhs with
  | .expr e => .chain e op rhs []
  | .chain first op1 second rest => .chain first op1 second (rest ++ [(op, rhs)])

end Lhs

/-- A range has no third bound. -/
def Expr.isRange : Expr → Bool
  | .range _ _ _ => true
  | _ => false

/-- One round of the loop of `parse_bp`, with the operator consumed. -/
def infixFold (operand : Nat → ParseFn) (op : InfixOp) (rBp : Nat)
    (inclusive : Bool) (lhs : Lhs) (st : State) : Except ParseError (Lhs × State) :=
  match op with
  | .range =>
    if lhs.close.isRange then .error .thirdBound
    else do
      let (stop, st) ← parseRangeEnd operand inclusive st
      return (.expr (.range (some lhs.close) stop inclusive), st)
  | .bin op => do
    let (rhs, st) ← operand rBp st
    return (if isComparison op then lhs.link op rhs else .expr (.binary op lhs.close rhs), st)
  | .coalesce => do
    let (rhs, st) ← operand rBp st
    return (.expr (.coalesce lhs.close rhs), st)
  | .pipe => do
    -- No modelled expression is a call.
    let _ ← operand rBp st
    .error .pipeNeedsCall

/-- The loop of `parse_bp`.  `left` is `MAX_AST_DEPTH` minus the folds made so far; the
    result has the folds left. -/
def infixLoop (lim : Limits) (operand : Nat → ParseFn) (minBp depth : Nat) :
    Nat → Lhs → State → Except ParseError ((Expr × Nat) × State)
  | left, lhs, st =>
    match infixOp st.peek with
    | none => .ok ((lhs.close, left), st)
    | some (op, lBp, rBp) =>
      if lBp < minBp then .ok ((lhs.close, left), st)
      else
        match left with
        | 0 => .error .tooDeep
        | left + 1 =>
          if depth + st.fold + (lim.maxAstDepth - left) > lim.maxAstDepth then .error .tooDeep
          else do
            let (lhs, st) ←
              infixFold operand op rBp (decide (st.peek = .dotDotEq)) lhs st.advance
            infixLoop lim operand minBp depth left lhs st

/-- `parse_primary`: a name or a group. -/
def parsePrimary (group : ParseFn) (st : State) : Except ParseError (Expr × State) :=
  match st.peek with
  | .ident x => .ok (.name x, st.advance)
  | .lParen =>
    if st.advance.peek = .rParen then .error .emptyGroup
    else do
      let (e, st) ← group st.advance
      if st.peek = .comma then .error .outside
      else if st.peek = .rParen then return (e, st.advance)
      else .error .expectedRParen
  | _ => .error .outside

/-- `parse_postfix` up to the first round of its loop. -/
def parsePostfix (lim : Limits) (group : ParseFn) (depth : Nat) (st : State) :
    Except ParseError (Expr × State) := do
  let (e, st') ← parsePrimary group { st with fold := 0 }
  if depth + st'.fold + 1 > lim.maxAstDepth then .error .tooDeep
  else if startsPostfix st'.peek then .error .outside
  else return (e, { st' with fold := max st.fold (st'.fold + 1) })

/-- The first operand of `parse_bp`: `not`, a range with no start, or a prefix operator. -/
def parseLead (operand : Nat → ParseFn) (unary : ParseFn)
    (minBp : Nat) (st : State) : Except ParseError (Expr × State) :=
  if st.peek = .not ∧ minBp ≤ notBp then do
    let (e, st) ← operand notBp st.advance
    return (.unary .not e, st)
  else if (st.peek = .dotDot ∨ st.peek = .dotDotEq) ∧ minBp ≤ rangeBp then do
    let inclusive := decide (st.peek = .dotDotEq)
    let (stop, st) ← parseRangeEnd operand inclusive st.advance
    return (.range none stop inclusive, st)
  else unary st

mutual

/-- `parse_bp`; `budget` is `MAX_DEPTH` minus the depth. -/
def parseBp (lim : Limits) : Nat → Nat → State → Except ParseError (Expr × State)
  | 0, _, _ => .error .tooDeep
  | budget + 1, minBp, st => do
    let (lhs, st1) ←
      parseLead (parseBp lim budget) (parseUnary lim budget) minBp { st with fold := 0 }
    let ((e, left), st2) ←
      infixLoop lim (parseBp lim budget) minBp (lim.maxDepth - budget) lim.maxAstDepth
        (.expr lhs) st1
    return (e, { st2 with fold := max st.fold (st2.fold + (lim.maxAstDepth - left)) })

/-- `parse_unary`. -/
def parseUnary (lim : Limits) : Nat → State → Except ParseError (Expr × State)
  | 0, _ => .error .tooDeep
  | budget + 1, st =>
    match unaryOp st.peek with
    | some op => do
      let (e, st) ← parseUnary lim budget st.advance
      return (.unary op e, st)
    | none => parsePostfix lim (parseBp lim budget 0) (lim.maxDepth - budget) st

end

/-- `parse_expr` with the cursor at `toks` and `depth` levels already open. -/
def parseExpr (lim : Limits) (depth fold : Nat) (toks : List Token) :
    Except ParseError (Expr × State) :=
  parseBp lim (lim.maxDepth - depth) 0 ⟨toks, fold⟩

/-! ## Spelling a tree -/

/-- The token of an infix operator. -/
def binaryToken : BinaryOp → Token
  | .or => .or
  | .and => .and
  | .eq => .eqEq
  | .notEq => .notEq
  | .in => .in
  | .lt => .lt
  | .ltEq => .ltEq
  | .gt => .gt
  | .gtEq => .gtEq
  | .bitOr => .bitOr
  | .bitXor => .caret
  | .bitAnd => .amp
  | .shl => .shl
  | .shr => .shr
  | .add => .plus
  | .sub => .minus
  | .mul => .star
  | .div => .slash
  | .mod => .percent

/-- The token of a range. -/
def rangeToken (inclusive : Bool) : Token :=
  if inclusive then .dotDotEq else .dotDot

/-- The level of an infix operator in the precedence table. -/
def level : BinaryOp → Nat
  | .or => 3
  | .and => 5
  | .eq | .notEq | .in | .lt | .ltEq | .gt | .gtEq => 7
  | .bitOr => 11
  | .bitXor => 13
  | .bitAnd => 15
  | .shl | .shr => 17
  | .add | .sub => 21
  | .mul | .div | .mod => 23

def unaryToken : UnaryOp → Token
  | .not => .not
  | .neg => .minus
  | .errVal => .bang
  | .wrap => .question

namespace Expr

/-- The level of a tree's outermost operator; the prefix operators are above the infix ones,
    `not` is between `and` and the comparisons. -/
def lvl : Expr → Nat
  | .name _ => 28
  | .unary .not _ => 6
  | .unary _ _ => 27
  | .binary op _ _ => level op
  | .compare _ _ => 7
  | .range _ _ _ => 9
  | .coalesce _ _ => 25

/-- Parentheses where the position asks for a tighter level. -/
def group (loose : Bool) (toks : List Token) : List Token :=
  if loose then .lParen :: (toks ++ [.rParen]) else toks

mutual

/-- The spelling at a position that takes levels from `pos` on. -/
def spell (pos : Nat) : Expr → List Token
  | .name x => group (28 < pos) [.ident x]
  | .unary op e =>
    group (lvl (.unary op e) < pos) (unaryToken op :: spell (if op = .not then 6 else 27) e)
  | .binary op lhs rhs =>
    -- Comparisons do not associate: a comparison inside a comparison has parentheses.
    group (level op < pos)
      (spell (if isComparison op then 8 else level op) lhs ++
        binaryToken op :: spell (level op + 1) rhs)
  | .compare first links => group (7 < pos) (spell 8 first ++ spellLinks links)
  | .range start stop inclusive =>
    group (9 < pos) (spellBound start ++ rangeToken inclusive :: spellBound stop)
  | .coalesce lhs rhs =>
    group (25 < pos) (spell 26 lhs ++ .questionQuestion :: spell 25 rhs)

def spellLinks : List (BinaryOp × Expr) → List Token
  | [] => []
  | (op, e) :: rest => binaryToken op :: (spell 8 e ++ spellLinks rest)

def spellBound : Option Expr → List Token
  | none => []
  | some e => spell 10 e

end

mutual

/-- The trees that the grammar has: chains of comparisons with at least two links, ranges
    without a range as a bound, and an end where a range is inclusive. -/
def Formed : Expr → Prop
  | .name _ => True
  | .unary _ e => e.Formed
  | .binary _ lhs rhs => lhs.Formed ∧ rhs.Formed
  | .compare first links => first.Formed ∧ 2 ≤ links.length ∧ FormedLinks links
  | .range start stop inclusive =>
    FormedBound start ∧ FormedBound stop ∧ (inclusive = true → stop ≠ none)
  | .coalesce lhs rhs => lhs.Formed ∧ rhs.Formed

def FormedLinks : List (BinaryOp × Expr) → Prop
  | [] => True
  | (op, e) :: rest => isComparison op = true ∧ e.Formed ∧ FormedLinks rest

def FormedBound : Option Expr → Prop
  | none => True
  | some e => e.Formed ∧ e.isRange = false

end

mutual

/-- The number of nodes. -/
def size : Expr → Nat
  | .name _ => 1
  | .unary _ e => e.size + 1
  | .binary _ lhs rhs => lhs.size + rhs.size + 1
  | .compare first links => first.size + sizeLinks links + 1
  | .range start stop _ => sizeBound start + sizeBound stop + 1
  | .coalesce lhs rhs => lhs.size + rhs.size + 1

def sizeLinks : List (BinaryOp × Expr) → Nat
  | [] => 0
  | (_, e) :: rest => e.size + 1 + sizeLinks rest

def sizeBound : Option Expr → Nat
  | none => 0
  | some e => e.size

end

end Expr

end ChezziLang.Parser
