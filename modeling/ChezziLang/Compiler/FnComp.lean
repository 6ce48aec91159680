/-
  The compiler's state for one function: the code emitted so far, the slots in use, the open
  loops and scopes (`compiler/fncomp.rs`), and the instructions that statements compile to.

  Straight-line code that the compiler emits for an expression is one instruction, `expr u`:
  what it does is the machine's to say.  Names of locals are strings; a hidden slot has the
  empty one, which no name of a program is.
-/
import Mathlib.Data.List.Basic

namespace ChezziLang.Compiler

/-! ## Instructions -/

/-- The native variants that compiled code makes and tests. -/
inductive Carrier where
  | ok
  | err
  | some
  | none
  deriving DecidableEq, Repr

inductive Op (U : Type) where
  | constInt (n : Int64)
  | true
  | false
  | nil
  | pop
  | getLocal (slot : Nat)
  | setLocal (slot : Nat)
  | add
  | lt
  | ltEq
  | notEq
  | asBool
  | asInt
  | jump (target : Nat)
  | jumpIfFalse (target : Nat)
  | pushHandler (target : Nat)
  | popHandler
  | ret
  | deferCall
  | enterDeferScope
  | leaveDeferScope
  | drainHandlerDefers
  /-- `e?`, on the value of `e`. -/
  | tryOp
  /-- `NewStruct("Range", 4)`. -/
  | newRange
  | newCell
  | newEnum (variant : Carrier) (argc : Nat)
  | getIndex
  | listClone
  | arrLen
  | hasNextHook
  | isGenerator
  | isCursor
  | iterableToCursor
  | isChannel
  | chanRecvOrClosed
  /-- `CallMethod` of the hook `next`, with no arguments. -/
  | callNext
  | ensureEnum (slot : Nat)
  | matchArm (scrut : Nat) (variant : Carrier) (nbind bindStart next : Nat)
  | matchNoArm (slot : Nat)
  | enterNursery
  | joinNursery
  | reclaimNursery
  /-- The parts of a slot's tuple, into the given slots. -/
  | unpack (elem : Nat) (slots : List Nat)
  /-- The code of an expression. -/
  | expr (u : U)
  /-- A test of a pattern, that goes on at `next` when it fails. -/
  | test (u : U) (next : Nat)
  /-- An instruction of a piece of code that starts at `base`. -/
  | code (u : U) (base : Nat)

/-- What `patch_jump_to` does to the instruction it patches. -/
def Op.retarget {U : Type} (t : Nat) : Op U → Op U
  | .jump _ => .jump t
  | .jumpIfFalse _ => .jumpIfFalse t
  | .pushHandler _ => .pushHandler t
  | .matchArm scrut variant nbind bindStart _ => .matchArm scrut variant nbind bindStart t
  | .test u _ => .test u t
  | op => op

/-! ## The state -/

structure LoopCtx where
  continueJumps : List Nat := []
  breakJumps : List Nat := []
  deferFloor : Nat
  nurseryFloor : Nat

/-- The locals in scope are the list of their names; a slot is an index into it. -/
structure FnComp (U : Type) where
  code : List (Op U)
  locals : List String
  boxedNames : List String
  /-- The innermost loop is first. -/
  loops : List LoopCtx
  deferScopes : Nat
  nurseryScopes : Nat
  /-- The innermost level is first. -/
  nurseryDeferMarks : List Nat

/-- Compiling: the state is read and changed. -/
abbrev Comp (U : Type) := StateM (FnComp U)

variable {U : Type}

def emit (op : Op U) : Comp U Unit := modify fun fc => { fc with code := fc.code ++ [op] }

def here : Comp U Nat := do return (← get).code.length

def emitJump (op : Op U) : Comp U Nat := do
  let at' ← here
  emit op
  return at'

def patchJumpTo (at' target : Nat) : Comp U Unit :=
  modify fun fc => { fc with code := fc.code.modify at' (Op.retarget target) }

def patchJump (at' : Nat) : Comp U Unit := do patchJumpTo at' (← here)

def addLocal (name : String) : Comp U Nat := do
  let slot := (← get).locals.length
  modify fun fc => { fc with locals := fc.locals ++ [name] }
  return slot

def addHidden : Comp U Nat := addLocal ""

/-- The locals of a scope go when it ends. -/
def inScope {α : Type} (body : Comp U α) : Comp U α := do
  let floor := (← get).locals.length
  let a ← body
  modify fun fc => { fc with locals := fc.locals.take floor }
  return a

def isBoxedSlot (slot : Nat) : Comp U Bool := do
  let fc ← get
  return fc.locals[slot]?.any (fc.boxedNames.contains ·)

/-- `loopvar_raw_slot`: a boxed variable is counted in a slot of its own. -/
def loopvarRawSlot (user : Nat) : Comp U Nat := do
  if ← isBoxedSlot user then addHidden else return user

/-- `emit_loopvar_refresh`: a boxed variable gets a fresh cell. -/
def emitLoopvarRefresh (user raw : Nat) : Comp U Unit := do
  if ← isBoxedSlot user then
    emit (.getLocal raw)
    emit .newCell
    emit (.setLocal user)

def pushLoop : Comp U Unit :=
  modify fun fc =>
    { fc with loops := { deferFloor := fc.deferScopes, nurseryFloor := fc.nurseryScopes } :: fc.loops }

/-- Pop the loop and send its jumps to the exit, here, and to `incTarget`. -/
def patchLoop (incTarget : Nat) : Comp U Unit := do
  match (← get).loops with
  | [] => return
  | ctx :: rest =>
    modify fun fc => { fc with loops := rest }
    let exitTarget ← here
    ctx.breakJumps.forM fun j => patchJumpTo j exitTarget
    ctx.continueJumps.forM fun j => patchJumpTo j incTarget

/-- A jump of the innermost loop, to be patched when the loop ends. -/
def emitBreak : Comp U Unit := do
  let j ← emitJump (.jump 0)
  modify fun fc =>
    match fc.loops with
    | [] => fc
    | ctx :: rest => { fc with loops := { ctx with breakJumps := ctx.breakJumps ++ [j] } :: rest }

def emitContinue : Comp U Unit := do
  let j ← emitJump (.jump 0)
  modify fun fc =>
    match fc.loops with
    | [] => fc
    | ctx :: rest =>
      { fc with loops := { ctx with continueJumps := ctx.continueJumps ++ [j] } :: rest }

end ChezziLang.Compiler
