/-
  What the emitting functions of `compiler/fncomp.rs` do to the compiler's state.

  Proved:
  * `run_emit`, `run_emitJump`, `run_patchJump` and the other `run_*`: the result and the state
    after each of them, from any state.
-/
import ChezziLang.Compiler.Loops
import ChezziLang.Lib.Code

namespace ChezziLang.Compiler

open Lib

section

variable {U : Type}

@[simp high]
theorem run_bind {α β} (x) (f : α → Comp U β) (fc) :
    (x >>= f).run fc = (f (x.run fc).1).run (x.run fc).2 := rfl

@[simp high]
theorem run_map {α β} (f : α → β) (x : Comp U α) (fc) :
    (f <$> x).run fc = (f (x.run fc).1, (x.run fc).2) := rfl

@[simp high]
theorem run_pure {α} (a fc) : (pure a : Comp U α).run fc = (a, fc) := rfl

theorem run_forM_nil {α : Type} (f : α → Comp U Unit) (fc) :
    (([] : List α).forM f).run fc = ((), fc) := rfl

theorem run_forM_cons {α : Type} (a l) (f : α → Comp U Unit) (fc) :
    ((a :: l).forM f).run fc = (l.forM f).run ((f a).run fc).2 := rfl

@[simp]
theorem run_emit (op : Op U) (fc) :
    (emit op).run fc = ((), { fc with code := fc.code ++ [op] }) := rfl

@[simp]
theorem run_here (fc) : (here : Comp U Nat).run fc = (fc.code.length, fc) := rfl

@[simp]
theorem run_emitJump (op : Op U) (fc) :
    (emitJump op).run fc = (fc.code.length, { fc with code := fc.code ++ [op] }) := rfl

@[simp]
theorem run_patchJump (at') (fc : FnComp U) : (patchJump at').run fc =
      ((), { fc with code := fc.code.modify at' (Op.retarget fc.code.length) }) := rfl

@[simp]
theorem run_addLocal (name) (fc : FnComp U) : (addLocal name).run fc =
      (fc.locals.length, { fc with locals := fc.locals ++ [name] }) := rfl

@[simp]
theorem run_addHidden (fc) : (addHidden : Comp U Nat).run fc =
      (fc.locals.length, { fc with locals := fc.locals ++ [""] }) := rfl

theorem run_inScope {α} (body : Comp U α) (fc) :
    (inScope body).run fc = ((body.run fc).1, { (body.run fc).2 with
      locals := (body.run fc).2.locals.take fc.locals.length }) := rfl

theorem run_pushLoop (fc) : (pushLoop : Comp U Unit).run fc = ((), { fc with
      loops := { deferFloor := fc.deferScopes, nurseryFloor := fc.nurseryScopes } :: fc.loops }) :=
  rfl

/-! ## Patching many jumps -/

theorem run_forM_patchJumpTo (at' : List Nat) (t) (fc : FnComp U) :
    (at'.forM fun j => patchJumpTo j t).run fc =
      ((), { fc with code := patches (Op.retarget t) at' fc.code }) := by
  induction at' generalizing fc with
  | nil => rfl
  | cons j at' ih =>
    rw [run_forM_cons, ih]
    rfl

theorem run_forM_patchJump (at' : List Nat) (fc : FnComp U) : (at'.forM patchJump).run fc =
      ((), { fc with code := patches (Op.retarget fc.code.length) at' fc.code }) := by
  induction at' generalizing fc with
  | nil => rfl
  | cons j at' ih =>
    rw [run_forM_cons, ih, run_patchJump]
    simp only [List.length_modify]
    rfl

theorem run_patchLoop (code : List (Op U)) (locals boxedNames ctx) (rest : List LoopCtx)
    (ds ns : Nat) (marks : List Nat) (inc : Nat) :
    (patchLoop inc).run ⟨code, locals, boxedNames, ctx :: rest, ds, ns, marks⟩ =
      ((), ⟨patches (Op.retarget inc) ctx.continueJumps
        (patches (Op.retarget code.length) ctx.breakJumps code),
        locals, boxedNames, rest, ds, ns, marks⟩) := by
  have hrun : (patchLoop inc).run ⟨code, locals, boxedNames, ctx :: rest, ds, ns, marks⟩ =
      (ctx.continueJumps.forM fun j => patchJumpTo j inc).run
        ((ctx.breakJumps.forM fun j => patchJumpTo j code.length).run
          ⟨code, locals, boxedNames, rest, ds, ns, marks⟩).2 := rfl
  rw [hrun, run_forM_patchJumpTo, run_forM_patchJumpTo]

/-! ## The loop's variable -/

/-- Whether a slot is boxed. -/
def boxedAt (locals boxedNames : List String) (slot : Nat) : Bool :=
  locals[slot]?.any (boxedNames.contains ·)

@[simp]
theorem boxedAt_append (locals post boxedNames name) :
    boxedAt (locals ++ name :: post) boxedNames locals.length = boxedNames.contains name := by
  rw [boxedAt, List.getElem?_append_right (Nat.le_refl _), Nat.sub_self]
  rfl

@[simp]
theorem run_loopvarRawSlot (user) (fc : FnComp U) : (loopvarRawSlot user).run fc =
      if boxedAt fc.locals fc.boxedNames user then
        (fc.locals.length, { fc with locals := fc.locals ++ [""] })
      else (user, fc) := by
  have h : (loopvarRawSlot user).run fc =
      (if boxedAt fc.locals fc.boxedNames user then addHidden else return user :
        Comp U Nat).run fc := rfl
  rw [h]
  split <;> rfl

/-- A fresh cell for a boxed variable. -/
def refresh (boxed : Bool) (user raw : Nat) : List (Op U) :=
  if boxed then [.getLocal raw, .newCell, .setLocal user] else []

@[simp]
theorem run_emitLoopvarRefresh (user raw) (fc : FnComp U) :
    (emitLoopvarRefresh user raw).run fc = ((), { fc with
      code := fc.code ++ refresh (boxedAt fc.locals fc.boxedNames user) user raw }) := by
  have h : (emitLoopvarRefresh user raw).run fc = (if boxedAt fc.locals fc.boxedNames user then do
        emit (.getLocal raw)
        emit .newCell
        emit (.setLocal user)
       else return : Comp U Unit).run fc := rfl
  rw [h, refresh]
  split
  · simp
  · simp

end

end ChezziLang.Compiler
