/-
  The code that `compile_for` leaves for a literal range of ints, on its counting path and on its
  general path, with every jump patched.

  `a` is where the loop's code starts and `b` the first free slot.

  Proved:
  * `run_compileCounting`, `run_compileGeneral`: the code of the two paths, in pieces.
-/
import ChezziLang.Compiler.Emission
import ChezziLang.Compiler.LoopVm

namespace ChezziLang.Compiler

open Lib List Header Item

variable {B : Type}

/-! ## Bodies -/

def Item.isBrk : Item B → Bool
  | .brk => true
  | _ => false

def Item.isCont : Item B → Bool
  | .cont => true
  | _ => false

/-- An item's instruction, with the jumps of its loop. -/
def Item.op (view : Option Nat) (base brk cont : Nat) : Item B → Op (B × Option Nat)
  | .code u => .code (u, view) base
  | .brk => .jump brk
  | .cont => .jump cont

/-- The slot that a target's name means among these locals. -/
def Target.view (target : Target) (locals : List String) : Option Nat :=
  match target with
  | .ident name => (locals.reverse.findIdx? (· == name)).map (locals.length - 1 - ·)
  | _ => none

section

variable (code : List (Op (B × Option Nat))) (locals boxedNames : List String) (ctx : LoopCtx)
  (rest : List LoopCtx) (ds ns : Nat) (marks : List Nat)

theorem run_forM_compileItem (view base) (items : List (Item B)) :
    (items.forM (compileItem view base)).run
      ⟨code, locals, boxedNames, ctx :: rest, ds, ns, marks⟩ =
      ((), ⟨code ++ items.map (Item.op view base 0 0), locals, boxedNames, { ctx with
          breakJumps := ctx.breakJumps ++ places isBrk items code.length
          continueJumps := ctx.continueJumps ++ places isCont items code.length } :: rest,
        ds, ns, marks⟩) := by
  induction items generalizing code ctx with
  | nil =>
    rw [run_forM_nil]
    simp [places]
  | cons item items ih =>
    rw [run_forM_cons]
    cases item with
    | code u =>
      refine (ih (code ++ [.code (u, view) base]) ctx).trans ?_
      simp [places, Item.op, isBrk, isCont]
    | brk =>
      refine (ih (code ++ [.jump 0])
        { ctx with breakJumps := ctx.breakJumps ++ [code.length] }).trans ?_
      simp [places, Item.op, isBrk, isCont]
    | cont =>
      refine (ih (code ++ [.jump 0])
        { ctx with continueJumps := ctx.continueJumps ++ [code.length] }).trans ?_
      simp [places, Item.op, isBrk, isCont]

theorem run_compileBody (target : Target) (items : List (Item B)) :
    (compileBody target items).run ⟨code, locals, boxedNames, ctx :: rest, ds, ns, marks⟩ =
      ((), ⟨code ++ items.map (Item.op (target.view locals) code.length 0 0), locals, boxedNames,
        { ctx with
          breakJumps := ctx.breakJumps ++ places isBrk items code.length
          continueJumps := ctx.continueJumps ++ places isCont items code.length } :: rest,
        ds, ns, marks⟩) := by
  rw [← run_forM_compileItem]
  cases target <;> rfl

end

/-- **The jumps of a body are patched to the exit and to the next iteration.** -/
theorem patches_body (view base brk cont) (items : List (Item B)) (before after) :
    patches (Op.retarget cont) (places isCont items before.length)
      (patches (Op.retarget brk) (places isBrk items before.length)
        (before ++ (items.map (Item.op view base 0 0) ++ after))) =
      before ++ (items.map (Item.op view base brk cont) ++ after) := by
  rw [patches_places, patches_places]
  congr 2
  apply map_congr_left
  intro item _
  cases item <;> rfl

/-! ## The variable -/

/-- How a target's variable is kept. -/
def Target.binding (boxedNames : List String) : Target → Binding
  | .ident name => if boxedNames.contains name then .cell else .slot
  | _ => .unnamed

/-- The locals of a loop's variable: the one it is named by, and a hidden one beside a cell. -/
def varLocals (target : Target) (binding : Binding) : List String :=
  match target, binding with
  | .ident name, .cell => [name, ""]
  | .ident name, _ => [name]
  | _, _ => [""]

/-- How many slots a loop's variable takes. -/
def Binding.size : Binding → Nat
  | .cell => 2
  | _ => 1

/-- The slot that the value of an iteration is written to. -/
def Binding.raw (binding : Binding) (slot : Nat) : Nat :=
  match binding with
  | .cell => slot + 1
  | _ => slot

/-- The slot that the variable's name means. -/
def Binding.view (binding : Binding) (slot : Nat) : Option Nat :=
  match binding with
  | .unnamed => none
  | _ => some slot

/-- No program spells the empty name. -/
structure Spelled (boxedNames : List String) (target : Target) : Prop where
  boxed : "" ∉ boxedNames
  target : ∀ name, target = .ident name → name ≠ ""

theorem length_varLocals (target boxedNames) :
    (varLocals target (target.binding boxedNames)).length = (target.binding boxedNames).size := by
  cases target with
  | ident name =>
    rw [Target.binding]
    split <;> rfl
  | wildcard | tuple names => rfl

variable {boxedNames : List String}

theorem boxedAt_varLocals (target) (hs : "" ∉ boxedNames) (locals post) :
    boxedAt (locals ++ (varLocals target (target.binding boxedNames) ++ post)) boxedNames
      locals.length = decide (target.binding boxedNames = .cell) := by
  have hhidden : boxedNames.contains "" = false := by simpa using hs
  cases target with
  | ident name =>
    rw [Target.binding]
    cases h : boxedNames.contains name <;> exact (boxedAt_append ..).trans h
  | wildcard | tuple names => exact (boxedAt_append ..).trans hhidden

theorem view_last {pre post name} (hpost : name ∉ post) :
    (Target.ident name).view (pre ++ name :: post) = some pre.length := by
  have hfind : (pre ++ name :: post).reverse.findIdx? (· == name) = some post.length := by
    have hnone : post.reverse.findIdx? (· == name) = none := by
      rw [findIdx?_eq_none_iff]
      intro x hx
      rw [beq_eq_false_iff_ne]
      rintro rfl
      exact hpost (mem_reverse.mp hx)
    simp [findIdx?_append, hnone, findIdx?_cons]
  rw [Target.view, hfind]
  simp

variable {target : Target} {U : Type}

/-- A body's name of the variable means its slot: the locals after it are hidden. -/
theorem view_varLocals (hs : Spelled boxedNames target) (pre post) (hpost : ∀ x ∈ post, x = "") :
    target.view (pre ++ (varLocals target (target.binding boxedNames) ++ post)) =
      (target.binding boxedNames).view pre.length := by
  cases target with
  | ident name =>
    have hne := hs.target name rfl
    have hmem : name ∉ post := fun hmem => hne (hpost name hmem)
    rw [Target.binding]
    split
    · have hmem' : name ∉ "" :: post := by simp [hne, hmem]
      exact view_last hmem'
    · exact view_last hmem
  | wildcard | tuple names => rfl

/-! ## The counting path -/

/-- The locals of the bounds. -/
def boundLocals (stop : Option B) : List String :=
  match stop with
  | none => [""]
  | some _ => ["", ""]

def boundOps (slot : Nat) : Option B → List (Op (B × Option Nat))
  | none => []
  | some e => [.expr (e, none), .asInt, .setLocal slot]

def testOps {U : Type} (op : Op U) (counter exit : Nat) : Option Nat → List (Op U)
  | none => []
  | some endSlot => [.getLocal counter, .getLocal endSlot, op, .jumpIfFalse exit]

/-- Where the jump out is, in a test that starts at `p`. -/
def testExits (endSlot : Option Nat) (p : Nat) : List Nat :=
  match endSlot with
  | none => []
  | some _ => [p + 3]

def incrementOps {U : Type} (slot loopStart : Nat) : List (Op U) :=
  [.getLocal slot, .constInt 1, .add, .setLocal slot, .jump loopStart]

namespace Header

variable (h : Header B) (items : List (Item B)) (a b : Nat)

def endSlot : Option Nat := h.stop.map fun _ => b + 1

def varSlot : Nat := b + (boundLocals h.stop).length

def counter : Nat := h.binding.raw (h.varSlot b)

def setup : List (Op (B × Option Nat)) :=
  boundOps b (some h.start) ++ (boundOps (b + 1) h.stop ++ [.getLocal b, .setLocal (h.counter b)])

def test (exit : Nat) : List (Op (B × Option Nat)) :=
  testOps (if h.inclusive then .ltEq else .lt) (h.counter b) exit (h.endSlot b)

def lastTest (exit : Nat) : List (Op (B × Option Nat)) :=
  testOps .notEq (h.counter b) exit (if h.inclusive then h.endSlot b else none)

/-- The fresh cell of an iteration whose variable has the slot `slot`. -/
def fresh (slot : Nat) : List (Op (B × Option Nat)) :=
  refresh (h.binding = .cell) slot (h.binding.raw slot)

def loopStart : Nat := a + (h.setup b).length

def bodyStart : Nat := a + (h.setup b ++ (h.test b 0 ++ h.fresh (h.varSlot b))).length

def incTarget : Nat :=
  a + (h.setup b ++ (h.test b 0 ++ (h.fresh (h.varSlot b) ++
    items.map (Item.op none 0 0 0)))).length

def exit : Nat :=
  a + (h.setup b ++ (h.test b 0 ++ (h.fresh (h.varSlot b) ++ (items.map (Item.op none 0 0 0) ++
    (h.lastTest b 0 ++ incrementOps (h.counter b) 0))))).length

def countingCode : List (Op (B × Option Nat)) :=
  h.setup b ++ (h.test b (h.exit items a b) ++ (h.fresh (h.varSlot b) ++
    (items.map (Item.op (h.binding.view (h.varSlot b)) (h.bodyStart a b) (h.exit items a b)
      (h.incTarget items a b)) ++
      (h.lastTest b (h.exit items a b) ++ incrementOps (h.counter b) (h.loopStart a b)))))

end Header

theorem run_exitUnless (op : Op U) (counter endSlot fc) :
    (exitUnless op counter endSlot).run fc = (testExits endSlot fc.code.length,
      { fc with code := fc.code ++ testOps op counter 0 endSlot }) := by
  cases endSlot <;> simp [exitUnless, testExits, testOps]

theorem run_exitAfterLast (inclusive counter endSlot) (fc : FnComp U) :
    (exitAfterLast inclusive counter endSlot).run fc =
      (exitUnless .notEq counter (if inclusive then endSlot else none)).run fc := by
  cases inclusive <;> rfl

theorem run_emitIncrement (slot loopStart) (fc : FnComp U) : (emitIncrement slot loopStart).run fc =
      ((), { fc with code := fc.code ++ incrementOps slot loopStart }) := by
  simp [emitIncrement, incrementOps]

theorem run_countingBounds (start : B) (stop fc) :
    (countingBounds (compileUnit start) (stop.map compileUnit)).run fc =
      ((fc.locals.length, stop.map fun _ => fc.locals.length + 1), { fc with
        code := fc.code ++
          (boundOps fc.locals.length (some start) ++ boundOps (fc.locals.length + 1) stop)
        locals := fc.locals ++ boundLocals stop }) := by
  cases stop <;> simp [countingBounds, compileUnit, boundOps, boundLocals]

theorem run_countingVar (target) (fc : FnComp U) (hs : "" ∉ fc.boxedNames) :
    (countingVar target).run fc =
      ((fc.locals.length, (target.binding fc.boxedNames).raw fc.locals.length),
        { fc with locals := fc.locals ++ varLocals target (target.binding fc.boxedNames) }) := by
  cases target with
  | ident name =>
    by_cases h : name ∈ fc.boxedNames <;>
      simp [countingVar, Target.binding, varLocals, Binding.raw, h]
  | wildcard | tuple names => simp [countingVar, Target.binding, varLocals, Binding.raw, hs]

theorem patches_test (op : Op U) (counter exit endSlot before after) :
    patches (Op.retarget exit) (testExits endSlot before.length)
      (before ++ (testOps op counter 0 endSlot ++ after)) =
      before ++ (testOps op counter exit endSlot ++ after) := by
  cases endSlot with
  | none => rfl
  | some endSlot => exact modify_append_right before _ 3 _

theorem length_testOps (op : Op U) (counter exit exit' endSlot) :
    (testOps op counter exit endSlot).length = (testOps op counter exit' endSlot).length := by
  cases endSlot <;> rfl

/-- The patches of the counting path: first the tests' jumps, then the body's. -/
theorem patches_counting (op : Op (B × Option Nat))
    (counter exit inc base endSlot endSlot' view items setup fresh incr) : patches (Op.retarget inc)
      (places isCont items (setup ++ (testOps op counter 0 endSlot ++ fresh)).length)
      (patches (Op.retarget exit)
        (places isBrk items (setup ++ (testOps op counter 0 endSlot ++ fresh)).length)
        (patches (Op.retarget exit)
          (testExits endSlot setup.length ++
            testExits endSlot' (setup ++ (testOps op counter 0 endSlot ++
              (fresh ++ items.map (Item.op view base 0 0)))).length)
          (setup ++ (testOps op counter 0 endSlot ++ (fresh ++ (items.map (Item.op view base 0 0) ++
              (testOps .notEq counter 0 endSlot' ++ incr))))))) =
      setup ++ (testOps op counter exit endSlot ++ (fresh ++
        (items.map (Item.op view base exit inc) ++
          (testOps .notEq counter exit endSlot' ++ incr)))) := by
  have hlen := length_testOps op counter 0 exit endSlot
  have hlast := patches_test .notEq counter exit endSlot'
    (setup ++ (testOps op counter exit endSlot ++ (fresh ++ items.map (Item.op view base 0 0))))
    incr
  have hbody := patches_body view base exit inc items
    (setup ++ (testOps op counter exit endSlot ++ fresh))
    (testOps .notEq counter exit endSlot' ++ incr)
  rw [patches_append, patches_test]
  simp only [append_assoc, length_append, hlen] at hlast hbody ⊢
  rw [hlast, hbody]

/-- **The code of the counting path.** -/
theorem run_compileCounting (target) (start : B)
    (stop inclusive items code locals boxedNames df nf rest ds ns marks)
    (hs : Spelled boxedNames target) :
    ((compileCounting target (compileUnit start) (stop.map compileUnit) inclusive
      (compileBody target items)).run
        ⟨code, locals, boxedNames, ⟨[], [], df, nf⟩ :: rest, ds, ns, marks⟩).2.code =
      code ++ countingCode ⟨start, stop, inclusive, target.binding boxedNames⟩ items
        code.length locals.length := by
  have hbox := boxedAt_varLocals target hs.boxed (locals ++ boundLocals stop) []
  have hview := view_varLocals hs (locals ++ boundLocals stop) [] (by simp)
  rw [append_nil] at hbox hview
  rw [compileCounting, run_bind, run_countingBounds, run_bind, run_countingVar _ _ hs.boxed]
  simp only [run_bind, run_emit, run_here, run_exitUnless, run_emitLoopvarRefresh,
    run_exitAfterLast, run_emitIncrement, run_compileBody, run_forM_patchJump, run_patchLoop, hbox,
    hview, length_patches]
  have hcode := fun exit inc base view counter fresh loopStart =>
    patches_counting (if inclusive = true then .ltEq else .lt) counter exit inc base
      (stop.map fun _ => locals.length + 1)
      (if inclusive = true then stop.map fun _ => locals.length + 1 else none) view items
      (code ++ (boundOps locals.length (some start) ++ (boundOps (locals.length + 1) stop ++
        [.getLocal locals.length, .setLocal counter])))
      fresh (incrementOps counter loopStart)
  simp only [append_assoc, cons_append, nil_append] at hcode ⊢
  simp only [hcode]
  -- the positions are lengths of the same pieces on both sides
  simp only [countingCode, setup, test, fresh, lastTest,
    exit, incTarget, bodyStart, loopStart, counter,
    varSlot, endSlot, incrementOps, append_assoc, cons_append, nil_append,
    length_append, length_cons, length_nil, length_map, Nat.zero_add, Nat.reduceAdd, Nat.add_assoc]

/-! ## The general path -/

def literalBound : Option B → List (Op (B × Option Nat))
  | none => [.newEnum .none 0]
  | some e => [.expr (e, none), .newEnum .some 1]

section

variable {U : Type} (p : Nat)

def modesOps (b : Nat) : List (Op U) :=
  [.getLocal b, .isChannel, .setLocal (b + 1), .getLocal b, .hasNextHook, .setLocal (b + 2),
    .getLocal b, .isGenerator, .jumpIfFalse (p + 11), .true, .setLocal (b + 2),
    .getLocal b, .isCursor, .jumpIfFalse (p + 16), .true, .setLocal (b + 2)]

def seqInitOps (s : Cursor) : List (Op U) :=
  [.getLocal s.chanModeSlot, .jumpIfFalse (p + 3), .jump (p + 14),
    .getLocal s.structModeSlot, .jumpIfFalse (p + 6), .jump (p + 14),
    .getLocal s.iterSlot, .listClone, .setLocal s.lstSlot, .getLocal s.lstSlot, .arrLen,
    .setLocal s.lenSlot, .constInt 0, .setLocal s.idxSlot]

def stepOps (exit : Nat) (s : Cursor) : List (Op U) :=
  [.getLocal s.chanModeSlot, .jumpIfFalse (p + 6),
    .getLocal s.iterSlot, .chanRecvOrClosed, .setLocal s.optSlot, .jump (p + 11),
    .getLocal s.structModeSlot, .jumpIfFalse (p + 17),
    .getLocal s.iterSlot, .callNext, .setLocal s.optSlot,
    .ensureEnum s.optSlot, .matchArm s.optSlot .none 0 0 (p + 14), .jump exit,
    .matchArm s.optSlot .some 1 s.elem (p + 16), .jump (p + 25), .matchNoArm s.optSlot,
    .getLocal s.idxSlot, .getLocal s.lenSlot, .lt, .jumpIfFalse exit,
    .getLocal s.lstSlot, .getLocal s.idxSlot, .getIndex, .setLocal s.elem]

def advanceOps (head : Nat) (s : Cursor) : List (Op U) :=
  [.getLocal s.chanModeSlot, .jumpIfFalse (p + 3), .jump head,
    .getLocal s.structModeSlot, .jumpIfFalse (p + 6), .jump head] ++ incrementOps s.idxSlot head

end

theorem length_modesOps (p b) : (modesOps p b : List (Op U)).length = 16 := rfl

theorem length_seqInitOps (p s) : (seqInitOps p s : List (Op U)).length = 14 := rfl

theorem length_stepOps (p exit s) : (stepOps p exit s : List (Op U)).length = 25 := rfl

theorem length_advanceOps (p head s) : (advanceOps p head s : List (Op U)).length = 11 := rfl

namespace Header

variable (h : Header B) (items : List (Item B)) (a b : Nat)

def iterOps : List (Op (B × Option Nat)) :=
  literalBound (some h.start) ++ (literalBound h.stop ++
    [.constInt 1, if h.inclusive then .true else .false, .newRange, .setLocal b, .getLocal b,
      .iterableToCursor, .setLocal b])

def cursor : Cursor :=
  { iterSlot := b
    chanModeSlot := b + 1
    structModeSlot := b + 2
    elem := h.binding.raw (b + 3)
    lstSlot := b + (h.binding.size + 3)
    lenSlot := b + (h.binding.size + 4)
    idxSlot := b + (h.binding.size + 5)
    optSlot := b + (h.binding.size + 6) }

def modesAt : Nat := a + (h.iterOps b).length

def initAt : Nat := h.modesAt a b + 16

def headAt : Nat := h.initAt a b + 14

def bodyAt : Nat := h.initAt a b + (14 + (25 + (h.fresh (b + 3)).length))

def nextAt : Nat := h.bodyAt a b + items.length

def exitAt : Nat := h.nextAt items a b + 11

def generalCode : List (Op (B × Option Nat)) :=
  h.iterOps b ++ (modesOps (h.modesAt a b) b ++ (seqInitOps (h.initAt a b) (h.cursor b) ++
    (stepOps (h.headAt a b) (h.exitAt items a b) (h.cursor b) ++ (h.fresh (b + 3) ++
      (items.map (Item.op (h.binding.view (b + 3)) (h.bodyAt a b) (h.exitAt items a b)
        (h.nextAt items a b)) ++
        advanceOps (h.nextAt items a b) (h.headAt a b) (h.cursor b))))))

end Header

theorem run_compileBound (bound : Option B) (fc) : (compileBound (bound.map compileUnit)).run fc =
      ((), { fc with code := fc.code ++ literalBound bound }) := by
  cases bound <;> simp [compileBound, compileUnit, literalBound]

theorem run_generalIter (h : Header B) (fc : FnComp (B × Option Nat)) :
    (generalIter (.range (some (compileUnit h.start)) (h.stop.map compileUnit) h.inclusive)).run
      fc = (fc.locals.length, { fc with
        code := fc.code ++ h.iterOps fc.locals.length
        locals := fc.locals ++ [""] }) := by
  have hstart := run_compileBound (some h.start)
  simp only [Option.map] at hstart
  simp [generalIter, compileIterand, hstart, run_compileBound, iterOps]

theorem run_setIf (test : Op U) (iterSlot slot fc) :
    (setIf test iterSlot slot).run fc = ((), { fc with code := fc.code ++
      [.getLocal iterSlot, test, .jumpIfFalse (fc.code.length + 5), .true, .setLocal slot] }) := by
  simp [setIf, modify_append_right, Op.retarget]

theorem run_generalModes (b) (fc : FnComp U) (hb : fc.locals.length = b + 1) :
    (generalModes b).run fc = ((b + 1, b + 2), { fc with
      code := fc.code ++ modesOps fc.code.length b
      locals := fc.locals ++ ["", ""] }) := by
  simp [generalModes, run_setIf, modesOps, hb]

theorem run_generalVars (hone : target.isOneSlot = true) (fc : FnComp U) :
    (generalVars target).run fc = ((target.binders.map fun _ => fc.locals.length,
        target.binders.map fun _ => (target.binding fc.boxedNames).raw fc.locals.length,
        (target.binding fc.boxedNames).raw fc.locals.length),
        { fc with locals := fc.locals ++ varLocals target (target.binding fc.boxedNames) }) := by
  cases target with
  | ident name =>
    have hrun : (generalVars (.ident name)).run fc =
        let r := (loopvarRawSlot fc.locals.length).run { fc with locals := fc.locals ++ [name] }
        (([fc.locals.length], [r.1], r.1), r.2) := rfl
    rw [hrun]
    by_cases h : name ∈ fc.boxedNames <;>
      simp [Target.binding, Target.binders, varLocals, Binding.raw, h]
  | wildcard => rfl
  | tuple names => cases hone

theorem run_generalSeqInit (s) (fc : FnComp U) : (generalSeqInit s).run fc =
      ((), { fc with code := fc.code ++ seqInitOps fc.code.length s }) := by
  simp [generalSeqInit, seqInitOps, modify_append_right, Op.retarget]

theorem run_generalStep (s) (fc : FnComp U) :
    (generalStep s).run fc = ((fc.code.length + 13, fc.code.length + 20),
      { fc with code := fc.code ++ stepOps fc.code.length 0 s }) := by
  simp [generalStep, stepOps, modify_append_right, Op.retarget]

theorem run_generalAdvance (s) (head : Nat) (fc : FnComp U) : (generalAdvance s head).run fc =
      ((), { fc with code := fc.code ++ advanceOps fc.code.length head s }) := by
  simp [generalAdvance, run_emitIncrement, advanceOps, modify_append_right, Op.retarget]

theorem run_emitUnpack (hone : target.isOneSlot = true) (elem raws) (fc : FnComp U) :
    (emitUnpack target elem raws).run fc = ((), fc) := by
  cases target with
  | ident name | wildcard => rfl
  | tuple names => cases hone

theorem run_refreshes (hone : target.isOneSlot = true) (hs : "" ∉ boxedNames) (code : List (Op U))
    (locals post loops ds ns marks raw) :
    (((target.binders.map fun _ => locals.length).zip (target.binders.map fun _ => raw)).forM
      fun v => emitLoopvarRefresh v.1 v.2).run
        ⟨code, locals ++ (varLocals target (target.binding boxedNames) ++ post), boxedNames,
          loops, ds, ns, marks⟩ =
      ((), ⟨code ++ refresh (target.binding boxedNames = .cell) locals.length raw,
        locals ++ (varLocals target (target.binding boxedNames) ++ post), boxedNames,
        loops, ds, ns, marks⟩) := by
  cases target with
  | ident name =>
    have hrun := run_emitLoopvarRefresh locals.length raw
      ⟨code, locals ++ (varLocals (.ident name) ((Target.ident name).binding boxedNames) ++ post),
        boxedNames, loops, ds, ns, marks⟩
    rw [boxedAt_varLocals _ hs] at hrun
    exact hrun
  | wildcard =>
    have hnil : code ++ refresh false locals.length raw = code := append_nil code
    exact congrArg (fun c => ((), (⟨c, locals ++ ([""] ++ post), boxedNames, loops, ds, ns,
      marks⟩ : FnComp U))) hnil.symm
  | tuple names => cases hone

theorem patches_step (exit s) (before after : List (Op U)) :
    patches (Op.retarget exit) [before.length + 13, before.length + 20]
      (before ++ (stepOps before.length 0 s ++ after)) =
      before ++ (stepOps before.length exit s ++ after) := by
  rw [patches, foldl_cons, foldl_cons, modify_append_right, modify_append_right]
  rfl

/-- The patches of the general path: first the step's jumps, then the body's. -/
theorem patches_general (inc exit base s view) (items : List (Item B)) (before fresh after) :
    patches (Op.retarget inc)
      (places isCont items (before ++ (stepOps before.length 0 s ++ fresh)).length)
      (patches (Op.retarget exit)
        (places isBrk items (before ++ (stepOps before.length 0 s ++ fresh)).length)
        (patches (Op.retarget exit) [before.length + 13, before.length + 20]
          (before ++ (stepOps before.length 0 s ++
            (fresh ++ (items.map (Item.op view base 0 0) ++ after)))))) =
      before ++ (stepOps before.length exit s ++
        (fresh ++ (items.map (Item.op view base exit inc) ++ after))) := by
  have hbody := patches_body view base exit inc items
    (before ++ (stepOps before.length exit s ++ fresh)) after
  simp only [append_assoc, length_append, length_stepOps] at hbody ⊢
  rw [patches_step, hbody]

/-- **The code of the general path.** -/
theorem run_compileGeneral (hone : target.isOneSlot = true) (start : B)
    (stop inclusive items code locals boxedNames df nf rest ds ns marks)
    (hs : Spelled boxedNames target) :
    ((compileGeneral target (.range (some (compileUnit start)) (stop.map compileUnit) inclusive)
      (compileBody target items)).run
        ⟨code, locals, boxedNames, ⟨[], [], df, nf⟩ :: rest, ds, ns, marks⟩).2.code =
      code ++ generalCode ⟨start, stop, inclusive, target.binding boxedNames⟩ items
        code.length locals.length := by
  have hiter := run_generalIter ⟨start, stop, inclusive, target.binding boxedNames⟩
    ⟨code, locals, boxedNames, ⟨[], [], df, nf⟩ :: rest, ds, ns, marks⟩
  have hview := view_varLocals hs (locals ++ ["", "", ""]) ["", "", "", ""] (by simp)
  have hfresh := fun code : List (Op (B × Option Nat)) =>
    run_refreshes hone hs.boxed code (locals ++ ["", "", ""]) ["", "", "", ""]
  rw [compileGeneral, run_bind, hiter, run_bind, run_generalModes _ _ (by simp), run_bind,
    run_generalVars hone]
  simp only [run_bind, run_addHidden, run_here, run_generalSeqInit, run_generalStep,
    run_emitUnpack hone]
  simp only [append_assoc, cons_append, nil_append, length_append,
    length_cons, length_nil, Nat.zero_add, Nat.reduceAdd] at hview hfresh ⊢
  simp only [hfresh, hview, run_compileBody, run_generalAdvance, run_patchJump, run_patchLoop]
  have hcode := fun inc exit base s view fresh after =>
    patches_general inc exit base s view items
      (code ++ (iterOps ⟨start, stop, inclusive, target.binding boxedNames⟩ locals.length ++
        (modesOps (modesAt ⟨start, stop, inclusive, target.binding boxedNames⟩ code.length
          locals.length) locals.length ++
          seqInitOps (initAt ⟨start, stop, inclusive, target.binding boxedNames⟩
            code.length locals.length) s))) fresh after
  simp only [patches, foldl_cons, foldl_nil, modesAt, initAt,
    length_modesOps, length_seqInitOps, length_stepOps, length_advanceOps, append_assoc,
    nil_append, length_append, length_modify, length_varLocals, Nat.add_assoc,
    Nat.reduceAdd] at hcode ⊢
  -- the positions are lengths of the same pieces on both sides
  simp only [hcode, generalCode, modesAt, initAt, headAt,
    bodyAt, nextAt, exitAt, cursor, fresh, length_map,
    Nat.add_assoc, Nat.reduceAdd]

end ChezziLang.Compiler
