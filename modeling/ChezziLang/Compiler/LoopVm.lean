/-
  What the code of a `for` over ints does: the values it handles and the machine that runs it
  (`vm/step.rs`), and the loop as it is meant.

  A body is any list of instructions with `break`s and `continue`s in it.  One of its own
  instructions sees the loop's variable and may change the cells and everything else the program
  has (`Shared`); the loop's other slots are hidden and no name resolves to them.  Its jumps stay
  in the body.
-/
import ChezziLang.Compiler.Loops
import ChezziLang.Lib.Code
import ChezziLang.Stdlib.Range

namespace ChezziLang.Compiler

open Lib

/-! ## Values and bodies -/

inductive Val where
  | nil
  | int (n : Int64)
  | bool (b : Bool)
  | none
  | some (v : Val)
  | cell (h : Nat)
  | range (r : Stdlib.Range)
  | gen (g : Nat)

/-- What the body shares with the loop: the cells made so far, and everything else. -/
structure Shared (W : Type) where
  cells : List Val
  world : W

/-- Where a body's instruction goes: to the next one, to one of the body's positions (its end is
    one), or out of the loop with a fault or a `return`. -/
inductive After (X : Type) (size : Nat) where
  | next
  | goto (j : Fin (size + 1))
  | leave (x : X)

inductive Item (B : Type) where
  | code (u : B)
  | brk
  | cont

/-- A loop's body and the code of its bounds, with what they do. -/
structure Program (B W X : Type) where
  items : List (Item B)
  act : B → Option Val → Shared W → Shared W × After X items.length
  eval : B → Shared W → Shared W × Except X Int64
  /-- No cell is lost while the loop runs. -/
  act_keeps : ∀ u view s, s.cells.length ≤ (act u view s).1.cells.length

/-- How a loop ends: at its exit, with a fault of its own, or as the body or a bound says. -/
inductive Outcome (W X : Type) where
  | exit (s : Shared W)
  | fault (f : Stdlib.Fault) (s : Shared W)
  | leave (x : X) (s : Shared W)
  | crash

/-! ## Compiling bodies -/

section

variable {B : Type}

/-- `resolve_local`: the innermost local of the name. -/
def resolveLocal {U : Type} (name : String) : Comp U (Option Nat) := do
  let fc ← get
  return (fc.locals.reverse.findIdx? (· == name)).map (fc.locals.length - 1 - ·)

/-- The slot that a target's name means. -/
def Target.resolve {U : Type} : Target → Comp U (Option Nat)
  | .ident name => resolveLocal name
  | _ => return none

/-- One item of a body that starts at `base`, with the loop's variable in `view`. -/
def compileItem (view : Option Nat) (base : Nat) :
    Item B → Comp (B × Option Nat) Unit
  | .code u => emit (.code (u, view) base)
  | .brk => emitBreak
  | .cont => emitContinue

def compileBody (target : Target) (items : List (Item B)) : Comp (B × Option Nat) Unit := do
  let base ← here
  let view ← target.resolve
  items.forM (compileItem view base)

def compileUnit (u : B) : Comp (B × Option Nat) Unit := emit (.expr (u, none))

end

/-! ## The machine -/

structure Config (W : Type) where
  pc : Nat
  stack : List Val
  slots : Nat → Val
  gens : List (Stdlib.Range × Stdlib.Range.Point)
  shared : Shared W

namespace Config

variable {W : Type}

def push (c : Config W) (v : Val) (stack : List Val) : Config W :=
  { c with pc := c.pc + 1, stack := v :: stack }

def jump (c : Config W) (pc : Nat) (stack : List Val) : Config W :=
  { c with pc := pc, stack := stack }

def set (c : Config W) (slot : Nat) (v : Val) (stack : List Val) : Config W :=
  { c with pc := c.pc + 1, slots := Function.update c.slots slot v, stack := stack }

end Config

section

variable {B W X : Type}

/-- A `T?` of ints, as one of the two bounds of a range. -/
def Val.bound? : Val → Option (Option Int)
  | .none => Option.some Option.none
  | .some (.int n) => Option.some (Option.some n.toInt)
  | _ => Option.none

/-- `next()` on a generator of a range. -/
def callNext (c : Config W) (g : Nat) (stack : List Val) : Move (Config W) (Outcome W X) :=
  match c.gens[g]? with
  | none => .stop .crash
  | some (r, p) =>
    match r.resume p with
    | .error f => .stop (.fault f c.shared)
    | .ok (item, p') =>
      let v := match item with
        | some n => Val.some (.int (Int64.ofInt n))
        | none => Val.none
      .next { c.push v stack with gens := c.gens.set g (r, p') }

/-- `Add` on ints. -/
def addInts (c : Config W) (a b : Int64) (stack : List Val) : Move (Config W) (Outcome W X) :=
  match Stdlib.add a.toInt b.toInt with
  | .ok n => .next (c.push (.int (Int64.ofInt n)) stack)
  | .error f => .stop (.fault f c.shared)

/-- One instruction.  A value of the wrong kind stops the machine with a crash, and so does an
    instruction that a loop over ints has no use for. -/
def exec (p : Program B W X) (op : Op (B × Option Nat)) (c : Config W) :
    Move (Config W) (Outcome W X) :=
  match op, c.stack with
  | .constInt n, s => .next (c.push (.int n) s)
  | .true, s => .next (c.push (.bool Bool.true) s)
  | .false, s => .next (c.push (.bool Bool.false) s)
  | .getLocal slot, s => .next (c.push (c.slots slot) s)
  | .setLocal slot, v :: s => .next (c.set slot v s)
  | .add, .int b :: .int a :: s => addInts c a b s
  | .lt, .int b :: .int a :: s => .next (c.push (.bool (a.toInt < b.toInt)) s)
  | .ltEq, .int b :: .int a :: s => .next (c.push (.bool (a.toInt ≤ b.toInt)) s)
  | .notEq, .int b :: .int a :: s => .next (c.push (.bool (a.toInt ≠ b.toInt)) s)
  | .asInt, .int n :: s => .next (c.push (.int n) s)
  | .jump t, s => .next (c.jump t s)
  | .jumpIfFalse t, .bool b :: s => .next (c.jump (if b then c.pc + 1 else t) s)
  | .newEnum .none 0, s => .next (c.push .none s)
  | .newEnum .some 1, v :: s => .next (c.push (.some v) s)
  | .newRange, .bool inclusive :: .int step :: stop :: start :: s =>
    match start.bound?, stop.bound? with
    | some start, some stop => .next (c.push (.range ⟨start, stop, step.toInt, inclusive⟩) s)
    | _, _ => .stop .crash
  | .newCell, v :: s =>
    .next { c.push (.cell c.shared.cells.length) s with
      shared := { c.shared with cells := c.shared.cells ++ [v] } }
  -- `iter` of a range makes a generator that has not started
  | .iterableToCursor, .range r :: s =>
    .next { c.push (.gen c.gens.length) s with gens := c.gens ++ [(r, .enter)] }
  | .isChannel, _ :: s => .next (c.push (.bool Bool.false) s)
  | .hasNextHook, _ :: s => .next (c.push (.bool Bool.false) s)
  | .isCursor, _ :: s => .next (c.push (.bool Bool.false) s)
  | .isGenerator, v :: s =>
    .next (c.push (.bool (match v with | .gen _ => Bool.true | _ => Bool.false)) s)
  | .callNext, .gen g :: s => callNext c g s
  | .ensureEnum slot, s =>
    match c.slots slot with
    | .none => .next (c.jump (c.pc + 1) s)
    | .some _ => .next (c.jump (c.pc + 1) s)
    | _ => .stop .crash
  | .matchArm scrut .none 0 _ next, s =>
    match c.slots scrut with
    | .none => .next (c.jump (c.pc + 1) s)
    | _ => .next (c.jump next s)
  | .matchArm scrut .some 1 bindStart next, s =>
    match c.slots scrut with
    | .some v => .next (c.set bindStart v s)
    | _ => .next (c.jump next s)
  | .expr (u, _), s =>
    match p.eval u c.shared with
    | (shared, .ok n) => .next { c.push (.int n) s with shared := shared }
    | (shared, .error x) => .stop (.leave x shared)
  | .code (u, view) base, s =>
    match p.act u (view.map c.slots) c.shared with
    | (shared, .next) => .next { c.jump (c.pc + 1) s with shared := shared }
    | (shared, .goto j) => .next { c.jump (base + j) s with shared := shared }
    | (shared, .leave x) => .stop (.leave x shared)
  | _, _ => .stop .crash

/-- Past the last instruction the loop has ended. -/
def offEnd (code : List (Op (B × Option Nat))) (c : Config W) : Move (Config W) (Outcome W X) :=
  .stop (if c.pc = code.length then .exit c.shared else .crash)

def step (p : Program B W X) (code : List (Op (B × Option Nat))) (c : Config W) :
    Move (Config W) (Outcome W X) :=
  fetch Config.pc (exec p) (offEnd code) code c

end

/-! ## The loop as it is meant -/

/-- How an iteration has its variable: there is none, it is in a slot, or it is in a cell. -/
inductive Binding where
  | unnamed
  | slot
  | cell
  deriving DecidableEq

/-- Inside the end bound, on exact integers. -/
def within (stop : Option Int64) (inclusive : Bool) (n : Int) : Bool :=
  match stop with
  | none => true
  | some e => if inclusive then n ≤ e.toInt else n < e.toInt

/-- A loop over a literal range: its bounds and how it binds. -/
structure Header (B : Type) where
  start : B
  stop : Option B
  inclusive : Bool
  binding : Binding

/-- Before the bounds are read, or at position `j` of the body, in iteration `k` with the value
    `cur`. -/
inductive LoopState (W : Type) where
  | enter (s : Shared W)
  | body (k j : Nat) (cur : Int64) (stop : Option Int64) (view : Option Val) (s : Shared W)

namespace Header

variable {B W X : Type}

/-- What an iteration sees as its variable, and the cells with its own among them. -/
def bind (h : Header B) (cur : Int64) (s : Shared W) : Option Val × Shared W :=
  match h.binding with
  | .unnamed => (none, s)
  | .slot => (some (.int cur), s)
  | .cell => (some (.cell s.cells.length), { s with cells := s.cells ++ [.int cur] })

/-- Iteration `k` has the value `n`, if that is inside the bound; a value that no int is faults. -/
def open' (h : Header B) (k : Nat) (n : Int) (stop : Option Int64) (s : Shared W) :
    Move (LoopState W) (Outcome W X) :=
  if within stop h.inclusive n then
    if I64.Fits n then
      let (view, s') := h.bind (Int64.ofInt n) s
      .next (.body k 0 (Int64.ofInt n) stop view s')
    else .stop (.fault (.int (.overflow (.bin .add))) s)
  else .stop (.exit s)

/-- The bounds are read once, the start first; the values are `start`, `start + 1`, ... -/
def run (h : Header B) (p : Program B W X) : LoopState W → Move (LoopState W) (Outcome W X)
  | .enter s =>
    match p.eval h.start s with
    | (s, .error x) => .stop (.leave x s)
    | (s, .ok start) =>
      match h.stop with
      | none => h.open' 0 start.toInt none s
      | some stop =>
        match p.eval stop s with
        | (s, .error x) => .stop (.leave x s)
        | (s, .ok stop) => h.open' 0 start.toInt (some stop) s
  | .body k j cur stop view s =>
    match p.items[j]? with
    | none => h.open' (k + 1) (cur.toInt + 1) stop s
    | some .cont => h.open' (k + 1) (cur.toInt + 1) stop s
    | some .brk => .stop (.exit s)
    | some (.code u) =>
      match p.act u view s with
      | (s, .next) => .next (.body k (j + 1) cur stop view s)
      | (s, .goto j) => .next (.body k j cur stop view s)
      | (s, .leave x) => .stop (.leave x s)

end Header

end ChezziLang.Compiler
