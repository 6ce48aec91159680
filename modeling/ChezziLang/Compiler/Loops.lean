/-
  `for` loops: `compile_for` of `compiler/loops.rs`, with its counting path and its general
  path, and the literal of a range (`compiler/expr.rs`).

  How an expression and the loop's body are compiled is given: `compileFor` runs what it is
  given where the source calls `compile_expr` and `compile_defer_scoped_block`.
-/
import ChezziLang.Compiler.FnComp

namespace ChezziLang.Compiler

variable {U : Type}

/-- What a `for` binds. -/
inductive Target where
  | ident (name : String)
  | wildcard
  | tuple (names : List String)

def Target.isOneSlot : Target → Bool
  | .ident _ => true
  | .wildcard => true
  | .tuple _ => false

def Target.binders : Target → List String
  | .ident name => [name]
  | .wildcard => []
  | .tuple names => names

/-- What a `for` goes over: the literal of a range, or anything else. -/
inductive Iterand (E : Type) where
  | range (start stop : Option E) (inclusive : Bool)
  | other (e : E)

/-- `counting_range`. -/
def countingRange {E : Type} (target : Target) (iter : Iterand E) : Option (E × Option E × Bool) :=
  match iter with
  | .range (some start) stop inclusive =>
    if target.isOneSlot then some (start, stop, inclusive) else none
  | _ => none

/-- One bound of the literal of a range, as a `T?`. -/
def compileBound (bound : Option (Comp U Unit)) : Comp U Unit :=
  match bound with
  | some e => do
    e
    emit (.newEnum .some 1)
  | none => emit (.newEnum .none 0)

/-- The iterand, as `compile_expr` compiles it. -/
def compileIterand (iter : Iterand (Comp U Unit)) : Comp U Unit :=
  match iter with
  | .other e => e
  | .range start stop inclusive => do
    compileBound start
    compileBound stop
    emit (.constInt 1)
    emit (if inclusive then .true else .false)
    emit .newRange

/-! ## The counting path -/

/-- The bounds land in hidden slots, the start first. -/
def countingBounds (start : Comp U Unit) (stop : Option (Comp U Unit)) :
    Comp U (Nat × Option Nat) := do
  start
  emit .asInt
  let startSlot ← addHidden
  emit (.setLocal startSlot)
  match stop with
  | some stop => do
    stop
    emit .asInt
    let slot ← addHidden
    emit (.setLocal slot)
    return (startSlot, some slot)
  | none => return (startSlot, none)

/-- The variable's slot, and the counter: that same slot, unless it holds a cell. -/
def countingVar (target : Target) : Comp U (Nat × Nat) := do
  let iSlot ← match target with
    | .ident name => addLocal name
    | _ => addHidden
  let counter ← loopvarRawSlot iSlot
  return (iSlot, counter)

/-- Compare the counter with the end, if there is one; the jump out is to be patched. -/
def exitUnless (op : Op U) (counter : Nat) (endSlot : Option Nat) : Comp U (List Nat) :=
  match endSlot with
  | some endSlot => do
    emit (.getLocal counter)
    emit (.getLocal endSlot)
    emit op
    let exit ← emitJump (.jumpIfFalse 0)
    return [exit]
  | none => return []

/-- The last value of `a..=b` is `b`: leave before the increment. -/
def exitAfterLast (inclusive : Bool) (counter : Nat) (endSlot : Option Nat) : Comp U (List Nat) :=
  if inclusive then exitUnless .notEq counter endSlot else return []

/-- Add one to a slot and go back. -/
def emitIncrement (slot loopStart : Nat) : Comp U Unit := do
  emit (.getLocal slot)
  emit (.constInt 1)
  emit .add
  emit (.setLocal slot)
  emit (.jump loopStart)

/-- The counting path of `compile_for`. -/
def compileCounting (target : Target) (start : Comp U Unit) (stop : Option (Comp U Unit))
    (inclusive : Bool) (body : Comp U Unit) : Comp U Unit := do
  let (startSlot, endSlot) ← countingBounds start stop
  let (iSlot, counter) ← countingVar target
  emit (.getLocal startSlot)
  emit (.setLocal counter)
  let loopStart ← here
  let exits ← exitUnless (if inclusive then .ltEq else .lt) counter endSlot
  emitLoopvarRefresh iSlot counter
  body
  -- `continue` comes here
  let incTarget ← here
  let exits' ← exitAfterLast inclusive counter endSlot
  emitIncrement counter loopStart
  (exits ++ exits').forM patchJump
  patchLoop incTarget

/-! ## The general path -/

/-- The iterand, or the cursor that its `iter` gives. -/
def generalIter (iter : Iterand (Comp U Unit)) : Comp U Nat := do
  compileIterand iter
  let iterSlot ← addHidden
  emit (.setLocal iterSlot)
  emit (.getLocal iterSlot)
  emit .iterableToCursor
  emit (.setLocal iterSlot)
  return iterSlot

/-- Set a slot when the iterand passes a test. -/
def setIf (test : Op U) (iterSlot slot : Nat) : Comp U Unit := do
  emit (.getLocal iterSlot)
  emit test
  let skip ← emitJump (.jumpIfFalse 0)
  emit .true
  emit (.setLocal slot)
  patchJump skip

/-- Two slots that say how the iterand steps: as a channel, or by `next()`. -/
def generalModes (iterSlot : Nat) : Comp U (Nat × Nat) := do
  emit (.getLocal iterSlot)
  emit .isChannel
  let chanModeSlot ← addHidden
  emit (.setLocal chanModeSlot)
  emit (.getLocal iterSlot)
  emit .hasNextHook
  let structModeSlot ← addHidden
  emit (.setLocal structModeSlot)
  setIf .isGenerator iterSlot structModeSlot
  setIf .isCursor iterSlot structModeSlot
  return (chanModeSlot, structModeSlot)

/-- The variables' slots, the slots that steps write, and where an element lands: the one name's
    slot, or a hidden one that is unpacked. -/
def generalVars (target : Target) : Comp U (List Nat × List Nat × Nat) := do
  let varSlots ← target.binders.mapM addLocal
  let varRaws ← varSlots.mapM loopvarRawSlot
  let elem ← match target, varRaws with
    | .ident _, raw :: _ => pure raw
    | _, _ => addHidden
  return (varSlots, varRaws, elem)

/-- The hidden slots of the general path. -/
structure Cursor where
  iterSlot : Nat
  chanModeSlot : Nat
  structModeSlot : Nat
  elem : Nat
  lstSlot : Nat
  lenSlot : Nat
  idxSlot : Nat
  optSlot : Nat

/-- A sequence is copied first; the lazy paths skip that. -/
def generalSeqInit (s : Cursor) : Comp U Unit := do
  emit (.getLocal s.chanModeSlot)
  let chanToCheckStruct ← emitJump (.jumpIfFalse 0)
  let chanSkipInit ← emitJump (.jump 0)
  patchJump chanToCheckStruct
  emit (.getLocal s.structModeSlot)
  let toSeqInit ← emitJump (.jumpIfFalse 0)
  let structSkipInit ← emitJump (.jump 0)
  patchJump toSeqInit
  emit (.getLocal s.iterSlot)
  emit .listClone
  emit (.setLocal s.lstSlot)
  emit (.getLocal s.lstSlot)
  emit .arrLen
  emit (.setLocal s.lenSlot)
  emit (.constInt 0)
  emit (.setLocal s.idxSlot)
  patchJump chanSkipInit
  patchJump structSkipInit

/-- One step: the next element lands in `elem`, or a jump leaves the loop. -/
def generalStep (s : Cursor) : Comp U (Nat × Nat) := do
  -- the channel's step
  emit (.getLocal s.chanModeSlot)
  let chanToStruct ← emitJump (.jumpIfFalse 0)
  emit (.getLocal s.iterSlot)
  emit .chanRecvOrClosed
  emit (.setLocal s.optSlot)
  let chanToOpt ← emitJump (.jump 0)
  patchJump chanToStruct
  -- the struct's step
  emit (.getLocal s.structModeSlot)
  let toSeqStep ← emitJump (.jumpIfFalse 0)
  emit (.getLocal s.iterSlot)
  emit .callNext
  emit (.setLocal s.optSlot)
  -- what either gave: `None` ends the loop, `Some` is the element
  patchJump chanToOpt
  emit (.ensureEnum s.optSlot)
  let noneArm ← emitJump (.matchArm s.optSlot .none 0 0 0)
  let lazyExit ← emitJump (.jump 0)
  patchJump noneArm
  let someArm ← emitJump (.matchArm s.optSlot .some 1 s.elem 0)
  let toBody ← emitJump (.jump 0)
  patchJump someArm
  emit (.matchNoArm s.optSlot)
  -- the sequence's step
  patchJump toSeqStep
  emit (.getLocal s.idxSlot)
  emit (.getLocal s.lenSlot)
  emit .lt
  let seqExit ← emitJump (.jumpIfFalse 0)
  emit (.getLocal s.lstSlot)
  emit (.getLocal s.idxSlot)
  emit .getIndex
  emit (.setLocal s.elem)
  patchJump toBody
  return (lazyExit, seqExit)

/-- A tuple's parts go to the slots of the names. -/
def emitUnpack (target : Target) (elem : Nat) (varRaws : List Nat) : Comp U Unit :=
  match target with
  | .tuple _ => emit (.unpack elem varRaws)
  | _ => return

/-- Go back; a sequence's index goes on first. -/
def generalAdvance (s : Cursor) (loopHead : Nat) : Comp U Unit := do
  emit (.getLocal s.chanModeSlot)
  let incCheckStruct ← emitJump (.jumpIfFalse 0)
  emit (.jump loopHead)
  patchJump incCheckStruct
  emit (.getLocal s.structModeSlot)
  let toSeqInc ← emitJump (.jumpIfFalse 0)
  emit (.jump loopHead)
  patchJump toSeqInc
  emitIncrement s.idxSlot loopHead

section

variable (target : Target) (iter : Iterand (Comp U Unit)) (body : Comp U Unit)

/-- The general path of `compile_for`. -/
def compileGeneral :
    Comp U Unit := do
  let iterSlot ← generalIter iter
  let (chanModeSlot, structModeSlot) ← generalModes iterSlot
  let (varSlots, varRaws, elem) ← generalVars target
  let lstSlot ← addHidden
  let lenSlot ← addHidden
  let idxSlot ← addHidden
  let optSlot ← addHidden
  let s : Cursor := { iterSlot, chanModeSlot, structModeSlot, elem, lstSlot, lenSlot, idxSlot, optSlot }
  generalSeqInit s
  let loopHead ← here
  let (lazyExit, seqExit) ← generalStep s
  emitUnpack target elem varRaws
  (varSlots.zip varRaws).forM fun v => emitLoopvarRefresh v.1 v.2
  body
  -- `continue` comes here
  let incTarget ← here
  generalAdvance s loopHead
  patchJump lazyExit
  patchJump seqExit
  patchLoop incTarget

/-- `compile_for`. -/
def compileFor :
    Comp U Unit :=
  inScope do
    pushLoop
    match countingRange target iter with
    | some (start, stop, inclusive) => compileCounting target start stop inclusive body
    | none => compileGeneral target iter body

/-- The same statement with the general path taken. -/
def compileForGeneral :
    Comp U Unit :=
  inScope do
    pushLoop
    compileGeneral target iter body

end

end ChezziLang.Compiler
