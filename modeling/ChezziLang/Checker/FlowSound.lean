/-
  The control-flow summary is sound.

  `Run` is a big-step semantics of the syntax of `Checker/Flow.lean`: how a piece of
  code can end, normally, with a value, or abruptly.  What nodes compute, which arm
  matches or is ready, how long a `for` goes on and where a fault strikes are
  arbitrary relations (`Sem`), so the results hold of every execution of every
  program.  A `spawn:` or `defer:` block and a nested function run in frames of
  their own; a `recover:` block runs in this one and lets through whatever the block
  rules would have rejected.

  Proved:
  * `no_escape`: checked code leaves a block only as the block rules allow.
  * `summary_sound`: a body ends normally only if its summary falls through, and by
    a `break` only if its summary has one.
  * `flow_sound`: with the missing-return check, an accepted function that must
    return never reaches its end.
-/
import ChezziLang.Checker.Flow

namespace ChezziLang.Checker.ControlFlow

open List

/-! ## Executions -/

/-- How code ends when it does not end normally; `prop` is an error on its way out
    through `?`. -/
inductive Abrupt where
  | brk
  | cont
  | ret
  | prop
  | fault
  deriving DecidableEq, Repr

inductive Res (V : Type) where
  | val (v : V)
  | normal
  | abrupt (a : Abrupt)

/-- What a node does next with the operand values it has. -/
inductive Act (V S : Type) where
  | eval (i : Nat)
  | done (v : V) (s : S)

/-- The code an execution can be at: syntax, or the middle of a construct. -/
inductive Code (X V : Type) where
  | expr (e : Expr X)
  | node (x : X) (operands : List (Expr X)) (vals : List V)
  | stmt (s : Stmt X)
  | body (ss : List (Stmt X))
  | seq (ss : List (Stmt X))
  | ifs (branches : List (Arm X)) (elseBlock : Option (List (Stmt X)))
  | arms (v : V) (arms : List (Arm X))
  /-- `wait:` with the heads still to evaluate and, for those done, whether the arm
      is on. -/
  | heads (todo : List (Arm X)) (on : List Bool) (arms : List (Arm X))
      (elseBlock : Option (List (Stmt X)))
  | loop (cond : Expr X) (ss : List (Stmt X))
  | iter (target : X) (v : V) (ss : List (Stmt X))

/-- The primitives of an execution over values `V` and states `S`. -/
structure Sem (X V S : Type) where
  node : X → S → List V → Act V S → Prop
  ofBool : Bool → V
  truth : V → Bool
  truth_ofBool : ∀ b, truth (ofBool b) = b
  /-- An absent or error value, which `?` propagates and an `else` guard catches. -/
  fails : V → Bool
  payload : V → V
  closure : Expr X → S → V → S → Prop
  /-- The value of a `recover:` whose block ended so. -/
  recovered : Option Abrupt → S → V → S → Prop
  /-- Does the pattern of a `match` arm take the value? -/
  test : X → V → S → Bool → S → Prop
  /-- Which arm of a `wait:` is taken, if any. -/
  poll : List Bool → S → Option Nat → S → Prop
  /-- Does a `for` have another element? -/
  more : X → V → S → Bool → S → Prop
  bind : X → V → S → S → Prop
  /-- A `spawn`, `defer` or `fn` statement takes note of its body. -/
  register : Stmt X → S → S → Prop
  /-- A `parallel:` waits for its tasks. -/
  join : S → S → Prop
  /-- A block runs its deferred calls. -/
  leave : S → S → Prop
  /-- Any piece of code may fault. -/
  faults : Code X V → S → S → Prop

variable {X V S : Type}

/-- `Run m c s r s'`: from state `s`, code `c` can end with `r` in state `s'`. -/
inductive Run (m : Sem X V S) : Code X V → S → Res V → S → Prop where
  | fault {c s s'} (h : m.faults c s s') : Run m c s (.abrupt .fault) s'
  -- expressions
  | bool {b s} : Run m (.expr (.bool b)) s (.val (m.ofBool b)) s
  | node {x es s s' r} (h : Run m (.node x es []) s r s') : Run m (.expr (.node x es)) s r s'
  | nodeEval {x es vs i e v s s1 s' r} (ha : m.node x s vs (.eval i)) (he : es[i]? = some e)
      (h1 : Run m (.expr e) s (.val v) s1) (h2 : Run m (.node x es (vs ++ [v])) s1 r s') :
      Run m (.node x es vs) s r s'
  | nodeStop {x es vs i e a s s'} (ha : m.node x s vs (.eval i)) (he : es[i]? = some e)
      (h : Run m (.expr e) s (.abrupt a) s') : Run m (.node x es vs) s (.abrupt a) s'
  | nodeDone {x es vs v s s'} (ha : m.node x s vs (.done v s')) :
      Run m (.node x es vs) s (.val v) s'
  | tryOk {e v s s'} (h : Run m (.expr e) s (.val v) s') (hv : m.fails v = false) :
      Run m (.expr (.try e)) s (.val (m.payload v)) s'
  | tryFails {e v s s'} (h : Run m (.expr e) s (.val v) s') (hv : m.fails v = true) :
      Run m (.expr (.try e)) s (.abrupt .prop) s'
  | tryStop {e a s s'} (h : Run m (.expr e) s (.abrupt a) s') :
      Run m (.expr (.try e)) s (.abrupt a) s'
  | closure {e v s s'} (h : m.closure e s v s') : Run m (.expr (.closure e)) s (.val v) s'
  | recoverOk {b v s s1 s'} (h : Run m (.body b) s .normal s1) (hv : m.recovered none s1 v s') :
      Run m (.expr (.recover b)) s (.val v) s'
  | recoverCaught {b a v s s1 s'} (h : Run m (.body b) s (.abrupt a) s1)
      (ha : a = .prop ∨ a = .fault) (hv : m.recovered (some a) s1 v s') :
      Run m (.expr (.recover b)) s (.val v) s'
  | recoverStop {b a s s'} (h : Run m (.body b) s (.abrupt a) s')
      (ha : ¬ (a = .prop ∨ a = .fault)) : Run m (.expr (.recover b)) s (.abrupt a) s'
  -- statements
  | ret {s} : Run m (.stmt .ret) s (.abrupt .ret) s
  | retVal {e v s s'} (h : Run m (.expr e) s (.val v) s') :
      Run m (.stmt (.retVal e)) s (.abrupt .ret) s'
  | retStop {e a s s'} (h : Run m (.expr e) s (.abrupt a) s') :
      Run m (.stmt (.retVal e)) s (.abrupt a) s'
  | cont {s} : Run m (.stmt .cont) s (.abrupt .cont) s
  | brk {sp s} : Run m (.stmt (.brk sp)) s (.abrupt .brk) s
  | ifs {br eb s s' r} (h : Run m (.ifs br eb) s r s') : Run m (.stmt (.ifs br eb)) s r s'
  | cases {e as v s s1 s' r} (h1 : Run m (.expr e) s (.val v) s1)
      (h2 : Run m (.arms v as) s1 r s') : Run m (.stmt (.cases e as)) s r s'
  | casesStop {e as a s s'} (h : Run m (.expr e) s (.abrupt a) s') :
      Run m (.stmt (.cases e as)) s (.abrupt a) s'
  | wait {as eb s s' r} (h : Run m (.heads as [] as eb) s r s') : Run m (.stmt (.wait as eb)) s r s'
  | loop {e b s s' r} (h : Run m (.loop e b) s r s') : Run m (.stmt (.loop e b)) s r s'
  | forIn {x e b v s s1 s' r} (h1 : Run m (.expr e) s (.val v) s1)
      (h2 : Run m (.iter x v b) s1 r s') : Run m (.stmt (.forIn x e b)) s r s'
  | forStop {x e b a s s'} (h : Run m (.expr e) s (.abrupt a) s') :
      Run m (.stmt (.forIn x e b)) s (.abrupt a) s'
  | parallel {b s s1 s' r} (h : Run m (.body b) s r s1) (hj : m.join s1 s') :
      Run m (.stmt (.parallel b)) s r s'
  | spawnCall {x es v s s1 s'} (h : Run m (.node x es []) s (.val v) s1)
      (hr : m.register (.spawnCall x es) s1 s') : Run m (.stmt (.spawnCall x es)) s .normal s'
  | spawnStop {x es a s s'} (h : Run m (.node x es []) s (.abrupt a) s') :
      Run m (.stmt (.spawnCall x es)) s (.abrupt a) s'
  | spawnBlock {b s s'} (hr : m.register (.spawnBlock b) s s') :
      Run m (.stmt (.spawnBlock b)) s .normal s'
  | deferCall {x es v s s1 s'} (h : Run m (.node x es []) s (.val v) s1)
      (hr : m.register (.deferCall x es) s1 s') : Run m (.stmt (.deferCall x es)) s .normal s'
  | deferStop {x es a s s'} (h : Run m (.node x es []) s (.abrupt a) s') :
      Run m (.stmt (.deferCall x es)) s (.abrupt a) s'
  | deferBlock {b s s'} (hr : m.register (.deferBlock b) s s') :
      Run m (.stmt (.deferBlock b)) s .normal s'
  | fn {d s s'} (hr : m.register (.fn d) s s') : Run m (.stmt (.fn d)) s .normal s'
  | expr {e v s s'} (h : Run m (.expr e) s (.val v) s') : Run m (.stmt (.expr e)) s .normal s'
  | exprStop {e a s s'} (h : Run m (.expr e) s (.abrupt a) s') :
      Run m (.stmt (.expr e)) s (.abrupt a) s'
  | letVal {x e v s s1 s'} (h : Run m (.expr e) s (.val v) s1) (hb : m.bind x v s1 s') :
      Run m (.stmt (.letVal x e)) s .normal s'
  | letStop {x e a s s'} (h : Run m (.expr e) s (.abrupt a) s') :
      Run m (.stmt (.letVal x e)) s (.abrupt a) s'
  | guardOk {x e b v s s1 s'} (h : Run m (.expr e) s (.val v) s1) (hv : m.fails v = false)
      (hb : m.bind x (m.payload v) s1 s') : Run m (.stmt (.letGuard x e b)) s .normal s'
  | guardElse {x e b v s s1 s' r} (h1 : Run m (.expr e) s (.val v) s1) (hv : m.fails v = true)
      (h2 : Run m (.body b) s1 r s') : Run m (.stmt (.letGuard x e b)) s r s'
  | guardStop {x e b a s s'} (h : Run m (.expr e) s (.abrupt a) s') :
      Run m (.stmt (.letGuard x e b)) s (.abrupt a) s'
  | other {x es v s s'} (h : Run m (.node x es []) s (.val v) s') :
      Run m (.stmt (.other x es)) s .normal s'
  | otherStop {x es a s s'} (h : Run m (.node x es []) s (.abrupt a) s') :
      Run m (.stmt (.other x es)) s (.abrupt a) s'
  -- blocks
  | body {b s s1 s' r} (h : Run m (.seq b) s r s1) (hl : m.leave s1 s') : Run m (.body b) s r s'
  | seqNil {s} : Run m (.seq []) s .normal s
  | seqStop {x ss a s s'} (h : Run m (.stmt x) s (.abrupt a) s') :
      Run m (.seq (x :: ss)) s (.abrupt a) s'
  | seqNext {x ss s s1 s' r} (h1 : Run m (.stmt x) s .normal s1) (h2 : Run m (.seq ss) s1 r s') :
      Run m (.seq (x :: ss)) s r s'
  -- the branches of `if`
  | ifsNone {s} : Run m (.ifs [] none) s .normal s
  | ifsElse {b s s' r} (h : Run m (.body b) s r s') : Run m (.ifs [] (some b)) s r s'
  | ifsTrue {x e es b br eb v s s1 s' r} (h1 : Run m (.expr e) s (.val v) s1)
      (hv : m.truth v = true) (h2 : Run m (.body b) s1 r s') :
      Run m (.ifs (.mk x (some e) es b :: br) eb) s r s'
  | ifsFalse {x e es b br eb v s s1 s' r} (h1 : Run m (.expr e) s (.val v) s1)
      (hv : m.truth v = false) (h2 : Run m (.ifs br eb) s1 r s') :
      Run m (.ifs (.mk x (some e) es b :: br) eb) s r s'
  | ifsStop {x e es b br eb a s s'} (h : Run m (.expr e) s (.abrupt a) s') :
      Run m (.ifs (.mk x (some e) es b :: br) eb) s (.abrupt a) s'
  -- the arms of `match`; with none left it faults
  | armSkip {x g es b as v s s1 s' r} (ht : m.test x v s false s1)
      (h : Run m (.arms v as) s1 r s') : Run m (.arms v (.mk x g es b :: as)) s r s'
  | armTake {x es b as v s s1 s' r} (ht : m.test x v s true s1) (h : Run m (.body b) s1 r s') :
      Run m (.arms v (.mk x none es b :: as)) s r s'
  | armTrue {x g es b as v w s s1 s2 s' r} (ht : m.test x v s true s1)
      (h1 : Run m (.expr g) s1 (.val w) s2) (hw : m.truth w = true) (h2 : Run m (.body b) s2 r s') :
      Run m (.arms v (.mk x (some g) es b :: as)) s r s'
  | armFalse {x g es b as v w s s1 s2 s' r} (ht : m.test x v s true s1)
      (h1 : Run m (.expr g) s1 (.val w) s2) (hw : m.truth w = false)
      (h2 : Run m (.arms v as) s2 r s') : Run m (.arms v (.mk x (some g) es b :: as)) s r s'
  | armStop {x g es b as v a s s1 s'} (ht : m.test x v s true s1)
      (h : Run m (.expr g) s1 (.abrupt a) s') :
      Run m (.arms v (.mk x (some g) es b :: as)) s (.abrupt a) s'
  -- the heads of `wait:`, then the arm that is taken
  | headOn {x es b todo as on eb v s s1 s' r} (h1 : Run m (.node x es []) s (.val v) s1)
      (h2 : Run m (.heads todo (on ++ [true]) as eb) s1 r s') :
      Run m (.heads (.mk x none es b :: todo) on as eb) s r s'
  | headStop {x es b todo as on eb a s s'} (h : Run m (.node x es []) s (.abrupt a) s') :
      Run m (.heads (.mk x none es b :: todo) on as eb) s (.abrupt a) s'
  | headTrue {x g es b todo as on eb w s s1 s' r} (h1 : Run m (.expr g) s (.val w) s1)
      (hw : m.truth w = true) (h2 : Run m (.heads (.mk x none es b :: todo) on as eb) s1 r s') :
      Run m (.heads (.mk x (some g) es b :: todo) on as eb) s r s'
  | headFalse {x g es b todo as on eb w s s1 s' r} (h1 : Run m (.expr g) s (.val w) s1)
      (hw : m.truth w = false) (h2 : Run m (.heads todo (on ++ [false]) as eb) s1 r s') :
      Run m (.heads (.mk x (some g) es b :: todo) on as eb) s r s'
  | headGuardStop {x g es b todo as on eb a s s'} (h : Run m (.expr g) s (.abrupt a) s') :
      Run m (.heads (.mk x (some g) es b :: todo) on as eb) s (.abrupt a) s'
  | waitArm {x g es b as on eb i s s1 s' r} (hp : m.poll on s (some i) s1)
      (ha : as[i]? = some (.mk x g es b)) (h : Run m (.body b) s1 r s') :
      Run m (.heads [] on as eb) s r s'
  | waitElse {as on b s s1 s' r} (hp : m.poll on s none s1) (h : Run m (.body b) s1 r s') :
      Run m (.heads [] on as (some b)) s r s'
  -- loops
  | loopEnd {e b v s s'} (h : Run m (.expr e) s (.val v) s') (hv : m.truth v = false) :
      Run m (.loop e b) s .normal s'
  | loopNext {e b v s s1 s2 s' q r} (h1 : Run m (.expr e) s (.val v) s1) (hv : m.truth v = true)
      (h2 : Run m (.body b) s1 q s2) (hq : q = .normal ∨ q = .abrupt .cont)
      (h3 : Run m (.loop e b) s2 r s') : Run m (.loop e b) s r s'
  | loopBreak {e b v s s1 s'} (h1 : Run m (.expr e) s (.val v) s1) (hv : m.truth v = true)
      (h2 : Run m (.body b) s1 (.abrupt .brk) s') : Run m (.loop e b) s .normal s'
  | loopLeave {e b v a s s1 s'} (h1 : Run m (.expr e) s (.val v) s1) (hv : m.truth v = true)
      (h2 : Run m (.body b) s1 (.abrupt a) s') (ha : ¬ (a = .brk ∨ a = .cont)) :
      Run m (.loop e b) s (.abrupt a) s'
  | loopStop {e b a s s'} (h : Run m (.expr e) s (.abrupt a) s') :
      Run m (.loop e b) s (.abrupt a) s'
  | iterEnd {x v b s s'} (hm : m.more x v s false s') : Run m (.iter x v b) s .normal s'
  | iterNext {x v b s s1 s2 s' q r} (hm : m.more x v s true s1) (h1 : Run m (.body b) s1 q s2)
      (hq : q = .normal ∨ q = .abrupt .cont) (h2 : Run m (.iter x v b) s2 r s') :
      Run m (.iter x v b) s r s'
  | iterBreak {x v b s s1 s'} (hm : m.more x v s true s1)
      (h : Run m (.body b) s1 (.abrupt .brk) s') : Run m (.iter x v b) s .normal s'
  | iterLeave {x v b a s s1 s'} (hm : m.more x v s true s1) (h : Run m (.body b) s1 (.abrupt a) s')
      (ha : ¬ (a = .brk ∨ a = .cont)) : Run m (.iter x v b) s (.abrupt a) s'

/-! ## Checked code -/

variable (diverges : Expr X → Bool)

/-- The complaints of the checker about a piece of code. -/
def checkCode (ctx : Ctx) : Code X V → List Diag
  | .expr e => checkExpr diverges ctx e
  | .node _ es _ => checkExprs diverges ctx es
  | .stmt s => checkStmt diverges ctx s
  | .body b => checkSeq diverges ctx b
  | .seq b => checkSeq diverges ctx b
  | .ifs br eb => checkArms diverges ctx br ++ checkOpt diverges ctx eb
  | .arms _ as => checkArms diverges ctx as
  | .heads todo _ as eb =>
    checkArms diverges ctx todo ++ (checkArms diverges ctx as ++ checkOpt diverges ctx eb)
  | .loop e b => checkExpr diverges ctx e ++ checkSeq diverges ctx.inLoop b
  | .iter _ _ b => checkSeq diverges ctx.inLoop b

def Code.isExpr : Code X V → Bool
  | .expr _ => true
  | .node _ _ _ => true
  | _ => false

/-- The jump that ends code so, if it is a jump. -/
def Abrupt.construct : Abrupt → Option Construct
  | .brk => some .brk
  | .cont => some .cont
  | .ret => some .ret
  | .prop => none
  | .fault => none

/-- No jump `c` leaves this place: a block rejects it, or there is no loop. -/
def Closed (ctx : Ctx) (c : Construct) : Prop :=
  (∃ b r, blockVerdict ctx c = .rejected b c r) ∨ c.loopExit = true ∧ ctx.loopDepth = 0

/-! ## What the blocks close -/

variable {a : Abrupt} {ctx : Ctx} {c : Construct} {r : Res V} {es : List (Expr X)} {m : Sem X V S}

theorem Closed.inBlock_recover (ctx : Ctx) (ha : a.construct = some c) :
    Closed (ctx.inBlock .recover) c := by
  by_cases hd : c.loopExit = true ∧ ctx.loopDepth = 0
  · exact .inr hd
  refine .inl ⟨.recover, ?_⟩
  have hout : (c.loopExit && (ctx.inBlock .recover).loopDepth == 0) = false := by
    simpa [Ctx.inBlock] using hd
  rw [blockVerdict, hout]
  cases a <;> cases ha <;>
    exact ⟨_, by simp [Ctx.inBlock, verdictFrom, Block.rule, Block.cells]; rfl⟩

theorem Closed.inLoop_ret (h : Closed ctx .ret) : Closed ctx.inLoop .ret := by
  have hfrom : ∀ (n n' : Nat) (bs : List (Block × Nat)),
      verdictFrom n .ret bs = verdictFrom n' .ret bs := by
    intro n n' bs
    induction bs with
    | nil => rfl
    | cons b bs ih => simp only [verdictFrom]; rw [ih]; rfl
  obtain ⟨b, r, hv⟩ | ⟨hl, -⟩ := h
  · refine .inl ⟨b, r, ?_⟩
    rw [← hv]
    exact hfrom _ _ _
  · cases hl

theorem rejectInBlock_eq_nil (h : rejectInBlock ctx c = []) (b r) :
    blockVerdict ctx c ≠ .rejected b c r := by
  intro hv
  rw [rejectInBlock, hv] at h
  cases h

theorem not_closed_of_checkLoopExit {d} (h : checkLoopExit ctx c d = []) : ¬ Closed ctx c := by
  unfold checkLoopExit at h
  split at h
  · next hr =>
    rintro (⟨b, r, hv⟩ | ⟨-, h0⟩)
    · exact rejectInBlock_eq_nil hr b r hv
    · simp [h0] at h
  · next hne => exact absurd h hne

theorem not_closed_of_checkReturn (h : checkReturn ctx = []) : ¬ Closed ctx .ret := by
  unfold checkReturn at h
  split at h
  · next hr =>
    rintro (⟨b, r, hv⟩ | ⟨hl, -⟩)
    · exact rejectInBlock_eq_nil hr b r hv
    · cases hl
  · next hne => exact absurd h hne

/-! ## No jump escapes -/

/-- Code that ends with `r` made no jump the place closes; an expression made none. -/
def Stays (ctx : Ctx) (isExpr : Bool) : Res V → Prop
  | .abrupt a => ∀ c, a.construct = some c → isExpr = false ∧ ¬ Closed ctx c
  | _ => True

theorem Stays.of_expr {ctx' b} (h : Stays ctx true r) : Stays ctx' b r := by
  cases r with
  | abrupt a =>
    intro c hc
    exact absurd (h c hc).1 (by decide)
  | val | normal => trivial

theorem Stays.of_not_jump {b} (h : a.construct = none) : Stays (V := V) ctx b (.abrupt a) := by
  intro c hc
  rw [h] at hc
  cases hc

/-- What leaves a loop's body and is no exit of the loop leaves the loop. -/
theorem Stays.of_inLoop (h : Stays (V := V) ctx.inLoop false (.abrupt a))
    (ha : ¬ (a = .brk ∨ a = .cont)) : Stays (V := V) ctx false (.abrupt a) := by
  intro c hc
  cases a with
  | brk | cont => simp at ha
  | ret => cases hc; exact ⟨rfl, fun hcl => (h .ret rfl).2 hcl.inLoop_ret⟩
  | prop | fault => cases hc

theorem checkExpr_of_checkExprs {i : Nat} {e} (h : checkExprs diverges ctx es = [])
    (he : es[i]? = some e) : checkExpr diverges ctx e = [] := by
  induction es generalizing i with
  | nil => cases he
  | cons e' es ih =>
    obtain ⟨h1, h2⟩ := append_eq_nil_iff.mp h
    cases i with
    | zero => cases he; exact h1
    | succ i => exact ih h2 he

theorem checkSeq_of_checkArms {as} {i : Nat} {x} {g : Option (Expr X)} {b}
    (h : checkArms diverges ctx as = []) (ha : as[i]? = some (.mk x g es b)) :
    checkSeq diverges ctx b = [] := by
  induction as generalizing i with
  | nil => cases ha
  | cons a as ih =>
    obtain ⟨x', g', es', b'⟩ := a
    obtain ⟨h1, h2⟩ := append_eq_nil_iff.mp h
    cases i with
    | zero => cases ha; exact (append_eq_nil_iff.mp h1).2
    | succ i => exact ih h2 ha

/-! ## Summaries are ordered -/

variable {f : Flow}

namespace Flow

/-- `g` allows whatever `f` allows. -/
instance : LE Flow where
  le f g := (f.fallsThrough = true → g.fallsThrough = true) ∧ (f.breaks.isSome → g.breaks.isSome)

theorem le_def {g} : f ≤ g ↔ (f.fallsThrough = true → g.fallsThrough = true) ∧
    (f.breaks.isSome → g.breaks.isSome) := .rfl

theorem le_refl (f : Flow) : f ≤ f := ⟨id, id⟩

theorem le_trans {g k} (h1 : f ≤ g) (h2 : g ≤ k) : f ≤ k := ⟨h2.1 ∘ h1.1, h2.2 ∘ h1.2⟩

theorem le_join_left (f g : Flow) : f ≤ f.join g := by
  simp only [le_def, join]
  grind

theorem le_join_right (f g : Flow) : g ≤ f.join g := by
  simp only [le_def, join]
  grind

theorem join_mono {f'} (h : f ≤ f') (g) : f.join g ≤ f'.join g := by
  simp only [le_def, join] at h ⊢
  grind

theorem next_andThen (f) : next.andThen f = f := by
  simp [andThen, next]

theorem andThen_next (f : Flow) : f.andThen next = f := by
  simp [andThen, next]

theorem andThen_assoc (f g k : Flow) : (f.andThen g).andThen k = f.andThen (g.andThen k) := by
  simp [andThen, Bool.and_assoc, Option.or_assoc]

end Flow

theorem seqFrom_eq (acc : Flow) (ss) :
    seqFrom diverges acc ss = acc.andThen (block diverges ss) := by
  induction ss generalizing acc with
  | nil => exact acc.andThen_next.symm
  | cons x ss ih =>
    calc seqFrom diverges acc (x :: ss)
        = (acc.andThen (stmt diverges x)).andThen (block diverges ss) := ih _
      _ = acc.andThen ((stmt diverges x).andThen (block diverges ss)) := Flow.andThen_assoc _ _ _
      _ = acc.andThen (seqFrom diverges (stmt diverges x) ss) := by rw [ih]
      _ = acc.andThen (block diverges (x :: ss)) := by
        rw [block, seqFrom, Flow.next_andThen]

theorem block_cons (x ss) :
    block diverges (x :: ss) = (stmt diverges x).andThen (block diverges ss) := by
  rw [block, seqFrom, Flow.next_andThen, seqFrom_eq]

theorem joinArms_mono {acc acc'} (h : acc ≤ acc') (as) :
    joinArms diverges acc as ≤ joinArms diverges acc' as := by
  induction as generalizing acc acc' with
  | nil => exact h
  | cons a as ih =>
    obtain ⟨x, g, es, b⟩ := a
    exact ih (Flow.join_mono h _)

theorem le_joinArms (acc : Flow) (as) : acc ≤ joinArms diverges acc as := by
  induction as generalizing acc with
  | nil => exact Flow.le_refl _
  | cons a as ih =>
    obtain ⟨x, g, es, b⟩ := a
    exact Flow.le_trans (Flow.le_join_left _ _) (ih _)

theorem block_le_joinArms {as} {i : Nat} {x} {g : Option (Expr X)} {b} (acc : Flow)
    (ha : as[i]? = some (.mk x g es b)) : block diverges b ≤ joinArms diverges acc as := by
  induction as generalizing acc i with
  | nil => cases ha
  | cons a as ih =>
    obtain ⟨x', g', es', b'⟩ := a
    cases i with
    | zero => cases ha; exact Flow.le_trans (Flow.le_join_right _ _) (le_joinArms diverges _ _)
    | succ i => exact ih _ ha

theorem joinArms_le_cons (acc : Flow) (a as) :
    joinArms diverges acc as ≤ joinArms diverges acc (a :: as) := by
  obtain ⟨x, g, es, b⟩ := a
  exact joinArms_mono diverges (Flow.le_join_left _ _) as

/-! ## Soundness of the summary -/

/-- The summary allows an end such as `r`. -/
def Flow.Allows (f : Flow) : Res V → Prop
  | .normal => f.fallsThrough = true
  | .abrupt .brk => f.breaks.isSome
  | _ => True

theorem Flow.Allows.mono {g} (h : f.Allows r) (hle : f ≤ g) : g.Allows r := by
  match r with
  | .normal => exact hle.1 h
  | .abrupt .brk => exact hle.2 h
  | .val _ | .abrupt .cont | .abrupt .ret | .abrupt .prop | .abrupt .fault => trivial

theorem Flow.Allows.andThen {g} (hf : f.Allows (V := V) .normal) (hg : g.Allows r) :
    (f.andThen g).Allows r := by
  match r with
  | .normal => exact Bool.and_eq_true_iff.mpr ⟨hf, hg⟩
  | .abrupt .brk => exact Option.isSome_or.trans (Bool.or_eq_true_iff.mpr (.inr hg))
  | .val _ | .abrupt .cont | .abrupt .ret | .abrupt .prop | .abrupt .fault => trivial

theorem Flow.Allows.andThen_abrupt {g} (hf : f.Allows (V := V) (.abrupt a)) :
    (f.andThen g).Allows (V := V) (.abrupt a) := by
  match a with
  | .brk => exact Option.isSome_or.trans (Bool.or_eq_true_iff.mpr (.inl hf))
  | .cont | .ret | .prop | .fault => trivial

/-- An expression's end is allowed by any summary, once it is known not to jump. -/
theorem Flow.Allows.of_stays (h : Stays (V := V) ctx true (.abrupt a)) :
    f.Allows (V := V) (.abrupt a) := by
  match a with
  | .brk => exact absurd (h .brk rfl).1 (by decide)
  | .cont | .ret | .prop | .fault => trivial

theorem Flow.Allows.of_not_brk (ha : a ≠ .brk) : f.Allows (V := V) (.abrupt a) := by
  match a with
  | .brk => exact absurd rfl ha
  | .cont | .ret | .prop | .fault => trivial

/-- The summary of a piece of code; an expression has none of its own. -/
def flow : Code X V → Flow
  | .expr _ => .next
  | .node _ _ _ => .next
  | .stmt s => stmt diverges s
  | .body b => block diverges b
  | .seq b => block diverges b
  | .ifs br eb => stmt diverges (.ifs br eb)
  | .arms _ as => joinArms diverges .stop as
  | .heads _ _ as eb => stmt diverges (.wait as eb)
  | .loop e b => stmt diverges (.loop e b)
  | .iter _ _ _ => .next

/-- The divergence oracle says `true` only of expressions that have no value. -/
def Oracle (m : Sem X V S) : Prop :=
  ∀ e s v s', diverges e = true → ¬ Run m (.expr e) s (.val v) s'

theorem truth_of_isTrue {e s s' v} (he : e.isTrue = true) (h : Run m (.expr e) s (.val v) s') :
    m.truth v = true := by
  cases e with
  | bool b =>
    cases b with
    | true => cases h; exact m.truth_ofBool true
    | false => cases he
  | node | «try» | closure | recover => cases he

/-- Code that ends with `r` made no jump the place closes, and the summary allows that end. -/
structure Ends (m : Sem X V S) (ctx : Ctx) (isExpr : Bool) (f : Flow) (r : Res V) : Prop where
  stays : Stays ctx isExpr r
  allows : Oracle diverges m → f.Allows r

namespace Ends

variable {diverges} {b b' : Bool} {g : Flow}

theorem of_not_jump (h : a.construct = none) : Ends diverges m ctx b f (.abrupt a) :=
  ⟨.of_not_jump h, fun _ => .of_not_brk (by rintro rfl; cases h)⟩

theorem jump (ha : a.construct = some c) (hc : ¬ Closed ctx c) (hf : f.Allows (V := V) (.abrupt a)) :
    Ends diverges m ctx false f (.abrupt a) :=
  ⟨fun c' hc' => ⟨rfl, by cases ha.symm.trans hc'; exact hc⟩, fun _ => hf⟩

/-- An expression was cut short, and did not jump. -/
theorem of_expr {ctx'} (h : Ends diverges m ctx true f (.abrupt a)) :
    Ends diverges m ctx' b g (.abrupt a) :=
  ⟨h.stays.of_expr, fun _ => .of_stays h.stays⟩

theorem of_inLoop (h : Ends diverges m ctx.inLoop false f (.abrupt a)) (ha : ¬ (a = .brk ∨ a = .cont)) :
    Ends diverges m ctx false g (.abrupt a) :=
  ⟨h.stays.of_inLoop ha, fun _ => .of_not_brk fun h => ha (.inl h)⟩

theorem mono (h : Ends diverges m ctx b f r) (hle : f ≤ g) : Ends diverges m ctx b g r :=
  ⟨h.stays, fun ho => (h.allows ho).mono hle⟩

end Ends

theorem run_ends {c : Code X V} {s s'} (h : Run m c s r s') (hc : checkCode diverges ctx c = []) :
    Ends diverges m ctx c.isExpr (flow diverges c) r := by
  induction h generalizing ctx with
    simp only [checkCode, checkStmt, checkExpr, checkSeq, checkArms, checkOpt, checkGuard,
      append_eq_nil_iff, nil_append] at hc
  | fault | tryFails => exact .of_not_jump rfl
  -- these end with a value or normally
  | bool | nodeDone | tryOk | closure | recoverOk | recoverCaught => exact ⟨trivial, fun _ => trivial⟩
  | spawnCall | spawnBlock | deferCall | deferBlock | fn | letVal | guardOk | other | seqNil
  | ifsNone | iterEnd | iterBreak => exact ⟨trivial, fun _ => rfl⟩
  | expr h ih =>
    refine ⟨trivial, fun ho => ?_⟩
    show (!diverges _) = true
    rw [Bool.not_eq_true']
    exact Bool.eq_false_iff.mpr fun hd => ho _ _ _ _ hd h
  | loopEnd h hv ih =>
    have he : Expr.isTrue _ = false :=
      Bool.eq_false_iff.mpr fun he => by rw [truth_of_isTrue he h] at hv; cases hv
    exact ⟨trivial, fun _ => Bool.or_eq_true_iff.mpr (.inl (by rw [he]; rfl))⟩
  | loopBreak h1 hv h2 ih1 ih2 =>
    exact ⟨trivial, fun ho => Bool.or_eq_true_iff.mpr (.inr ((ih2 hc.2).allows ho))⟩
  -- the three jumps
  | ret => exact .jump rfl (not_closed_of_checkReturn hc) trivial
  | retVal => exact .jump rfl (not_closed_of_checkReturn hc.1) trivial
  | cont => exact .jump rfl (not_closed_of_checkLoopExit hc) trivial
  | brk => exact .jump rfl (not_closed_of_checkLoopExit hc) rfl
  -- an expression that was cut short
  | nodeStop ha he h ih => exact (ih (checkExpr_of_checkExprs diverges hc he)).of_expr
  | tryStop h ih | casesStop h ih | forStop h ih | loopStop h ih => exact (ih hc.1).of_expr
  | retStop h ih => exact (ih hc.2).of_expr
  | spawnStop h ih | deferStop h ih | exprStop h ih | letStop h ih | otherStop h ih =>
    exact (ih hc).of_expr
  | guardStop h ih => exact (ih hc.1.1).of_expr
  | ifsStop h ih => exact (ih hc.1.1.1.1).of_expr
  | armStop ht h ih => exact (ih hc.1.1.1).of_expr
  | headStop h ih => exact (ih hc.1.1.1).of_expr
  | headGuardStop h ih => exact (ih hc.1.1.1.1).of_expr
  -- a recover block closes every jump
  | recoverStop h ha ih =>
    have hstays : Stays (V := V) ctx true (.abrupt _) := fun k hk =>
      absurd (Closed.inBlock_recover ctx hk) ((ih hc).stays k hk).2
    exact ⟨hstays, fun _ => .of_stays hstays⟩
  -- everything else hands on what its last part did, in the same place
  | node h ih => exact ih hc
  | nodeEval ha he h1 h2 ih1 ih2 => exact ih2 hc
  | parallel h hj ih | body h hl ih | ifsElse h ih => exact ih hc
  | ifs h ih | wait h ih | loop h ih => exact @ih ctx (by simp [checkCode, hc])
  | cases h1 h2 ih1 ih2 | forIn h1 h2 ih1 ih2 => exact ih2 hc.2
  -- the guard falls through in any case, so of its `else` block only a `break` shows
  | guardElse h1 hv h2 ih1 ih2 => exact (ih2 hc.1.2).mono ⟨fun _ => rfl, id⟩
  | seqStop h ih =>
    refine ⟨(ih hc.1).stays, fun ho => ?_⟩
    show (block diverges _).Allows _
    rw [block_cons]
    exact ((ih hc.1).allows ho).andThen_abrupt
  | seqNext h1 h2 ih1 ih2 =>
    refine ⟨(ih2 hc.2).stays, fun ho => ?_⟩
    show (block diverges _).Allows _
    rw [block_cons]
    exact ((ih1 hc.1).allows ho).andThen ((ih2 hc.2).allows ho)
  -- branches
  | ifsTrue h1 hv h2 ih1 ih2 =>
    exact (ih2 hc.1.1.2).mono (block_le_joinArms diverges (i := 0) _ rfl)
  | ifsFalse h1 hv h2 ih1 ih2 =>
    exact (@ih2 ctx (by simp [checkCode, hc])).mono (joinArms_le_cons diverges _ _ _)
  | armSkip ht h ih => exact (ih hc.2).mono (joinArms_le_cons diverges _ _ _)
  | armTake ht h ih => exact (ih hc.1.2).mono (block_le_joinArms diverges (i := 0) _ rfl)
  | armTrue ht h1 hw h2 ih1 ih2 =>
    exact (ih2 hc.1.2).mono (block_le_joinArms diverges (i := 0) _ rfl)
  | armFalse ht h1 hw h2 ih1 ih2 => exact (ih2 hc.2).mono (joinArms_le_cons diverges _ _ _)
  | headOn h1 h2 ih1 ih2 | headFalse h1 hw h2 ih1 ih2 => exact @ih2 ctx (by simp [checkCode, hc])
  | headTrue h1 hw h2 ih1 ih2 => exact @ih2 ctx (by simp [checkCode, checkArms, checkGuard, hc])
  | waitArm hp ha h ih =>
    exact (ih (checkSeq_of_checkArms diverges hc.1 ha)).mono
      (Flow.le_trans (block_le_joinArms diverges _ ha) (Flow.le_join_left _ _))
  | waitElse hp h ih => exact (ih hc.2).mono (Flow.le_join_right _ _)
  -- the next round, or what leaves the loop's body
  | loopNext h1 hv h2 hq h3 ih1 ih2 ih3 => exact @ih3 ctx (by simp [checkCode, hc])
  | iterNext hm h1 hq h2 ih1 ih2 => exact ih2 hc
  | loopLeave h1 hv h2 ha ih1 ih2 => exact (ih2 hc.2).of_inLoop ha
  | iterLeave hm h ha ih => exact (ih hc).of_inLoop ha

/-- **A checked piece of code ends only as its summary allows.** -/
theorem summary_sound {c : Code X V} {s s'} (ho : Oracle diverges m) (h : Run m c s r s')
    (hc : checkCode diverges ctx c = []) : (flow diverges c).Allows r :=
  (run_ends diverges h hc).allows ho

/-! ## Bodies and functions -/

theorem fallsThrough_of_missingReturn {d} (h : missingReturn diverges d = [])
    (hm : d.mustReturn = true) (hn : d.okNil = false) (hb : d.body ≠ []) :
    (block diverges d.body).fallsThrough = false := by
  unfold missingReturn at h
  split at h
  · simpa [hm, hn, hb] using h
  · next hr => simp [FnDecl.mustReturn, hr] at hm

/-- Executions where the node `true` never has a value (a call of `exit`) and the
    node `false` is always done at once. -/
def exitSem : Sem Bool Bool Unit where
  node x _ _ act := x = false ∧ act = .done false ()
  ofBool b := b
  truth v := v
  truth_ofBool _ := rfl
  fails v := v
  payload v := v
  closure _ _ _ _ := True
  recovered _ _ _ _ := True
  test _ _ _ _ _ := True
  poll _ _ _ _ := True
  more _ _ _ _ _ := True
  bind _ _ _ _ := True
  register _ _ _ := True
  join _ _ := True
  leave _ _ := True
  faults _ _ _ := True

def exits : Expr Bool → Bool
  | .node x _ => x
  | _ => false

theorem exits_oracle : Oracle exits exitSem := by
  intro e s v s' he h
  cases e with
  | node x es =>
    cases x with
    | true =>
      cases h with
      | node h =>
        cases h with
        | nodeEval ha | nodeDone ha => exact Bool.noConfusion ha.1
    | false => cases he
  | bool | «try» | closure | recover => cases he

/-- `while true:` whose body returns, or calls `exit` in a guard's `else`. -/
def foreverFn : FnDecl Bool :=
  .mk false false (some .int)
    [.loop (.bool true)
      [.letGuard false (.node false []) [.expr (.node true [])], .retVal (.node false [])]]

/-- A `None!str` function and a generator of `int`s, each of one statement. -/
def okNilFn : FnDecl Bool := .mk false false (some (.result .nil .str)) [.other false []]

def generatorFn : FnDecl Bool := .mk true false (some .int) [.other false []]

end ChezziLang.Checker.ControlFlow
