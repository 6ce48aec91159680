/-
  The control-flow summary of `checker/flow.rs` and the block rules of
  `checker/boundary.rs`, on the syntax they read.

  `block` and `stmt` summarise a body: can control reach its end, and does a
  `break` leave it?  Their one input beyond the syntax is the divergence oracle.
  `checkStmt` is the part of the checker that the summary leans on: what may cross
  a `spawn:`, `defer:` or `recover:` block, `break` and `continue` outside a loop,
  and `else` guards that must leave.  `checkFn` adds the missing-return check of
  `check_fn_body_inner`.

  An expression is kept as far as control goes: the literal `true`, the operands of
  a node, `?`, and the statements inside a `recover:`.  Everything else about a
  node is its label, an arbitrary type.
-/
import ChezziLang.Checker.TyUtil

namespace ChezziLang.Checker.ControlFlow

abbrev Span := Nat

/-! ## Syntax -/

mutual

inductive Expr (X : Type) where
  | bool (b : Bool)
  /-- Any other kind, with its operand expressions. -/
  | node (x : X) (operands : List (Expr X))
  | try (e : Expr X)
  | closure (body : Expr X)
  | recover (body : List (Stmt X))

/-- `StmtKind`.  `other` stands for the statements that evaluate operands and go
    on: `Assign`, `Assert`, `Yield`, `Pass` and the declarations. -/
inductive Stmt (X : Type) where
  | ret
  | retVal (value : Expr X)
  | cont
  | brk (span : Span)
  | ifs (branches : List (Arm X)) (elseBlock : Option (List (Stmt X)))
  | cases (scrutinee : Expr X) (arms : List (Arm X))
  | wait (arms : List (Arm X)) (elseBlock : Option (List (Stmt X)))
  | loop (cond : Expr X) (body : List (Stmt X))
  | forIn (target : X) (iter : Expr X) (body : List (Stmt X))
  | parallel (body : List (Stmt X))
  | spawnCall (x : X) (operands : List (Expr X))
  | spawnBlock (body : List (Stmt X))
  | deferCall (x : X) (operands : List (Expr X))
  | deferBlock (body : List (Stmt X))
  | fn (decl : FnDecl X)
  | expr (e : Expr X)
  | letVal (target : X) (value : Expr X)
  | letGuard (target : X) (value : Expr X) (body : List (Stmt X))
  | other (x : X) (operands : List (Expr X))

/-- A branch of `if` (whose condition is its guard) or an arm of `match` (whose
    pattern is its head) or `wait:` (whose operands are its channel and value). -/
inductive Arm (X : Type) where
  | mk (head : X) (guard : Option (Expr X)) (operands : List (Expr X)) (body : List (Stmt X))

/-- What the checker reads of a declaration; `ret` is the resolved type of its
    return annotation. -/
inductive FnDecl (X : Type) where
  | mk (isGenerator inlineExprBody : Bool) (ret : Option Ty) (body : List (Stmt X))

end

variable {X : Type}

def FnDecl.isGenerator : FnDecl X → Bool
  | .mk g _ _ _ => g

def FnDecl.inlineExprBody : FnDecl X → Bool
  | .mk _ i _ _ => i

def FnDecl.ret : FnDecl X → Option Ty
  | .mk _ _ r _ => r

def FnDecl.body : FnDecl X → List (Stmt X)
  | .mk _ _ _ b => b

/-! ## The summary -/

/-- The control-flow summary of a statement or block. -/
structure Flow where
  fallsThrough : Bool
  breaks : Option Span
  deriving DecidableEq, Repr

namespace Flow

/-- `Flow::NEXT`: falls through, escapes nowhere. -/
def next : Flow := ⟨true, none⟩

/-- `Flow::STOP`: cannot fall through, escapes nowhere. -/
def stop : Flow := ⟨false, none⟩

/-- `self` followed by `g`. -/
def andThen (f g : Flow) : Flow := ⟨f.fallsThrough && g.fallsThrough, f.breaks.or g.breaks⟩

/-- Either `self` or `g` runs. -/
def join (f g : Flow) : Flow := ⟨f.fallsThrough || g.fallsThrough, f.breaks.or g.breaks⟩

end Flow

/-- `matches!(cond.kind, ExprKind::Bool(true))`. -/
def Expr.isTrue : Expr X → Bool
  | .bool true => true
  | _ => false

mutual

/-- The flow of one statement. -/
def stmt (diverges : Expr X → Bool) : Stmt X → Flow
  | .ret => .stop
  | .retVal _ => .stop
  | .cont => .stop
  | .brk span => { Flow.stop with breaks := some span }
  | .ifs branches elseBlock => joinArms diverges (optBlock diverges .next elseBlock) branches
  | .cases _ arms => joinArms diverges .stop arms
  | .wait arms elseBlock =>
    (joinArms diverges .stop arms).join (optBlock diverges .stop elseBlock)
  | .loop cond body =>
    { Flow.next with
      fallsThrough := !cond.isTrue || (seqFrom diverges .next body).breaks.isSome }
  | .forIn _ _ _ => .next
  | .parallel body => seqFrom diverges .next body
  | .spawnCall _ _ => .next
  | .spawnBlock _ => .next
  | .deferCall _ _ => .next
  | .deferBlock _ => .next
  | .fn _ => .next
  | .expr e => { Flow.next with fallsThrough := !diverges e }
  | .letVal _ _ => .next
  | .letGuard _ _ body => { Flow.next with breaks := (seqFrom diverges .next body).breaks }
  | .other _ _ => .next

/-- The fold of `block`, from an accumulator. -/
def seqFrom (diverges : Expr X → Bool) (acc : Flow) : List (Stmt X) → Flow
  | [] => acc
  | s :: ss => seqFrom diverges (acc.andThen (stmt diverges s)) ss

/-- The fold of the branches of `if`, `match` and `wait:`. -/
def joinArms (diverges : Expr X → Bool) (acc : Flow) : List (Arm X) → Flow
  | [] => acc
  | .mk _ _ _ body :: arms => joinArms diverges (acc.join (seqFrom diverges .next body)) arms

def optBlock (diverges : Expr X → Bool) (default : Flow) : Option (List (Stmt X)) → Flow
  | none => default
  | some body => seqFrom diverges .next body

end

/-- The flow of a body: its statements in sequence. -/
def block (diverges : Expr X → Bool) (body : List (Stmt X)) : Flow :=
  seqFrom diverges .next body

/-! ## Block rules -/

/-- A block that limits the constructs inside it. -/
inductive Block where
  | spawn
  | defer
  | recover
  | generator
  deriving DecidableEq, Repr

/-- A construct a block can limit. -/
inductive Construct where
  | brk
  | cont
  | ret
  | try
  | defer
  | spawn
  | parallel
  | wait
  deriving DecidableEq, Repr

/-- One cell of `RULES`.  A construct with no cell in a block's row crosses it. -/
inductive Rule where
  | target (reason : String)
  | rejected (reason : String)
  deriving DecidableEq, Repr

def spawnLoop : Rule := .rejected "a spawned task runs outside the loop"

def deferLoop : Rule := .rejected "a deferred block runs at scope exit, outside the loop"

def recoverLoop : Rule :=
  .rejected "a recover block produces a value and cannot leave to the loop"

def genConcurrency : Rule :=
  .rejected "a suspended generator does not manage structured-concurrency state"

/-- The rows of `RULES`. -/
def Block.cells : Block → List (Construct × Rule)
  | .spawn =>
    [(.brk, spawnLoop), (.cont, spawnLoop),
      (.ret, .rejected "a spawned task has no caller to return to"),
      (.try, .rejected "a spawned task has no caller to propagate to")]
  | .defer =>
    [(.brk, deferLoop), (.cont, deferLoop),
      (.ret, .rejected "a deferred block has no caller to return to"),
      (.try, .rejected ("a deferred block has no caller to propagate to; handle the error in " ++
        "the block with `match` or `??`"))]
  | .recover =>
    [(.brk, recoverLoop), (.cont, recoverLoop),
      (.ret, .rejected "a recover block produces a value and cannot leave the function"),
      (.try, .target ("the operand is a `T?` value, and the block's result is a `T!E` value; " ++
        "use `match` instead"))]
  | .generator =>
    [(.defer, .rejected "a suspended generator does not manage frame defers"),
      (.spawn, genConcurrency), (.parallel, genConcurrency), (.wait, genConcurrency)]

/-- The cell of `c` in this block's row; `none`: `c` crosses the block. -/
def Block.rule (b : Block) (c : Construct) : Option Rule :=
  (b.cells.find? fun cell => cell.1 == c).map Prod.snd

/-- What the blocks around a construct say about it. -/
inductive Verdict where
  | free
  | target (b : Block) (reason : String)
  | rejected (b : Block) (c : Construct) (reason : String)
  deriving DecidableEq, Repr

/-- What the walk knows where it stands; `blocks` has the innermost first, each
    with the `loop_depth` at its entry. -/
structure Ctx where
  blocks : List (Block × Nat)
  loopDepth : Nat
  inFnBody : Bool
  deriving DecidableEq, Repr

namespace Ctx

/-- A fn or closure body: its own frame. -/
def ownFrame : Ctx := ⟨[], 0, true⟩

def inBlock (ctx : Ctx) (b : Block) : Ctx :=
  { ctx with blocks := (b, ctx.loopDepth) :: ctx.blocks }

def inLoop (ctx : Ctx) : Ctx := { ctx with loopDepth := ctx.loopDepth + 1 }

end Ctx

def Construct.loopExit (c : Construct) : Bool := c == .brk || c == .cont

/-- The loop of `block_verdict`, innermost block first. -/
def verdictFrom (loopDepth : Nat) (c : Construct) : List (Block × Nat) → Verdict
  | [] => .free
  | (b, depth) :: rest =>
    if c.loopExit && depth != loopDepth then .free
    else
      match b.rule c with
      | none => verdictFrom loopDepth c rest
      | some (.target reason) => .target b reason
      | some (.rejected reason) => .rejected b c reason

def blockVerdict (ctx : Ctx) (c : Construct) : Verdict :=
  if c.loopExit && ctx.loopDepth == 0 then .free
  else verdictFrom ctx.loopDepth c ctx.blocks

/-! ## The checks the summary leans on -/

inductive Diag where
  /-- `message(b, c, reason)`. -/
  | crosses (b : Block) (c : Construct) (reason : String)
  | breakOutsideLoop
  | continueOutsideLoop
  | returnOutsideFunction
  | elseMustLeave
  | canFallOff (ret : Ty)

def Construct.label : Construct → String
  | .brk => "'break'"
  | .cont => "'continue'"
  | .ret => "'return'"
  | .try => "'?'"
  | .defer => "'defer'"
  | .spawn => "'spawn'"
  | .parallel => "'parallel:'"
  | .wait => "'wait:'"

def Block.noun : Block → String
  | .spawn => "spawn block"
  | .defer => "defer block"
  | .recover => "recover block"
  | .generator => "generator body"

/-- The one message shape. -/
def message (b : Block) (c : Construct) (reason : String) : String :=
  c.label ++ " is not allowed inside a " ++ b.noun ++ ": " ++ reason

/-- `reject_in_block`. -/
def rejectInBlock (ctx : Ctx) (c : Construct) : List Diag :=
  match blockVerdict ctx c with
  | .rejected b c reason => [.crosses b c reason]
  | _ => []

/-- `break` and `continue`: a block rejects it, or there is no loop. -/
def checkLoopExit (ctx : Ctx) (c : Construct) (outside : Diag) : List Diag :=
  match rejectInBlock ctx c with
  | [] => if ctx.loopDepth == 0 then [outside] else []
  | ds => ds

/-- The part of `check_return` before the types are looked at. -/
def checkReturn (ctx : Ctx) : List Diag :=
  match rejectInBlock ctx .ret with
  | [] => if ctx.inFnBody then [] else [.returnOutsideFunction]
  | ds => ds

def Ty.isNil : Ty → Bool
  | .nil => true
  | _ => false

/-- The declared return must be met on every path. -/
def FnDecl.mustReturn (d : FnDecl X) : Bool :=
  !d.isGenerator && !d.inlineExprBody && d.ret.any fun t => !Ty.isNil t

/-- A `None!E` function's end is a success. -/
def FnDecl.okNil (d : FnDecl X) : Bool :=
  match d.ret with
  | some (.result t e) => Ty.isNil t && tyFullyConcrete (.result t e)
  | _ => false

def missingReturn (diverges : Expr X → Bool) (d : FnDecl X) : List Diag :=
  match d.ret with
  | some ret =>
    if d.mustReturn && (block diverges d.body).fallsThrough && !d.okNil && !d.body.isEmpty then
      [.canFallOff ret]
    else []
  | none => []

mutual

def checkExpr (diverges : Expr X → Bool) (ctx : Ctx) : Expr X → List Diag
  | .bool _ => []
  | .node _ es => checkExprs diverges ctx es
  | .try e => checkExpr diverges ctx e ++ rejectInBlock ctx .try
  | .closure body => checkExpr diverges .ownFrame body
  | .recover body => checkSeq diverges (ctx.inBlock .recover) body

def checkExprs (diverges : Expr X → Bool) (ctx : Ctx) : List (Expr X) → List Diag
  | [] => []
  | e :: es => checkExpr diverges ctx e ++ checkExprs diverges ctx es

def checkGuard (diverges : Expr X → Bool) (ctx : Ctx) : Option (Expr X) → List Diag
  | none => []
  | some e => checkExpr diverges ctx e

/-- `check_stmt`. -/
def checkStmt (diverges : Expr X → Bool) (ctx : Ctx) : Stmt X → List Diag
  | .ret => checkReturn ctx
  | .retVal e => checkReturn ctx ++ checkExpr diverges ctx e
  | .cont => checkLoopExit ctx .cont .continueOutsideLoop
  | .brk _ => checkLoopExit ctx .brk .breakOutsideLoop
  | .ifs branches elseBlock =>
    checkArms diverges ctx branches ++ checkOpt diverges ctx elseBlock
  | .cases scrutinee arms => checkExpr diverges ctx scrutinee ++ checkArms diverges ctx arms
  | .wait arms elseBlock => checkArms diverges ctx arms ++ checkOpt diverges ctx elseBlock
  | .loop cond body => checkExpr diverges ctx cond ++ checkSeq diverges ctx.inLoop body
  | .forIn _ iter body => checkExpr diverges ctx iter ++ checkSeq diverges ctx.inLoop body
  | .parallel body => checkSeq diverges ctx body
  | .spawnCall _ es => checkExprs diverges ctx es
  | .spawnBlock body => checkSeq diverges (ctx.inBlock .spawn) body
  | .deferCall _ es => checkExprs diverges ctx es
  | .deferBlock body => checkSeq diverges (ctx.inBlock .defer) body
  | .fn d => checkFn diverges d
  | .expr e => checkExpr diverges ctx e
  | .letVal _ e => checkExpr diverges ctx e
  | .letGuard _ e body =>
    checkExpr diverges ctx e ++ checkSeq diverges ctx body ++
      (if (block diverges body).fallsThrough then [.elseMustLeave] else [])
  | .other _ es => checkExprs diverges ctx es

def checkSeq (diverges : Expr X → Bool) (ctx : Ctx) : List (Stmt X) → List Diag
  | [] => []
  | s :: ss => checkStmt diverges ctx s ++ checkSeq diverges ctx ss

def checkArms (diverges : Expr X → Bool) (ctx : Ctx) : List (Arm X) → List Diag
  | [] => []
  | .mk _ guard es body :: arms =>
    checkGuard diverges ctx guard ++ checkExprs diverges ctx es ++ checkSeq diverges ctx body ++
      checkArms diverges ctx arms

def checkOpt (diverges : Expr X → Bool) (ctx : Ctx) : Option (List (Stmt X)) → List Diag
  | none => []
  | some body => checkSeq diverges ctx body

/-- `check_fn_body_inner`, as far as control goes. -/
def checkFn (diverges : Expr X → Bool) : FnDecl X → List Diag
  | .mk isGenerator inlineExprBody ret body =>
    checkSeq diverges .ownFrame body ++
      missingReturn diverges (.mk isGenerator inlineExprBody ret body)

end

end ChezziLang.Checker.ControlFlow
