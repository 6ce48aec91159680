/-
  Call binding: `checker/expr.rs` `default_fill` and `plan_call`,
  `ast/mod.rs` `min_callable_params`, `compiler/call.rs` `compile_plan_args` and
  `compiler/fn_body.rs` `emit_default_param_prologue`.

  * `planCall` is the binder as the checker runs it: the positional prefix, the
    loop over the named arguments, the fill of every slot, the trailing pop.
  * `slotValue` says, without any loop, what a slot of a call is to hold;
    `Refused` lists the reasons for which a call has no plan.
  * Main results: a plan pushes exactly `slotValue` on a prefix of the slots and
    leaves out callee-filled slots only (`Planned.pushes`, `planSlots_spec`); it
    uses every argument once (`Planned.uses_once`); the binder refuses exactly
    the `Refused` calls that it does not leave unbound (`planCall_error_iff`);
    a short call that passes the arity check is completed by the callee's
    prologue (`Planned.arityOk`, `enter_eq`).

  Expressions are a type parameter: the binder only moves them.
-/
import Mathlib.Data.List.DropRight
import Mathlib.Data.List.ReduceOption
import Mathlib.Data.List.Perm.Basic
import Mathlib.Data.List.Nodup

namespace ChezziLang.Checker.CallBind

open List Option

/-! ## Declared slots and the binder -/

/-- `base::builtin_method::DeclDefault`; a float is its bit pattern. -/
inductive DeclDefault where
  | int (n : Int)
  | float (bits : UInt64)
  | bool (b : Bool)
  | str (s : String)
  | none
  deriving DecidableEq, Repr

/-- `desugar::Dflt`: how an omitted argument is materialised at a call site. -/
inductive Dflt (ε : Type) where
  | inline (e : ε)
  | provider (name : String)
  | calleeFilled
  | genericProvider (name : String) (tps : Nat)
  | literal (d : DeclDefault)
  deriving DecidableEq, Repr

/-- `desugar::SlotSpec`. -/
structure SlotSpec (ε : Type) where
  name : Option String
  default : Option (Dflt ε)
  isVariadic : Bool
  deriving DecidableEq, Repr

/-- `checker::ArgFill`.  An index below `args.len()` is a positional argument,
    one from there on counts into the named arguments. -/
inductive ArgFill (ε : Type) where
  | arg (ci : Nat)
  | pack (cis : List Nat)
  | provider (name : String)
  | inline (module : Nat) (expr : ε)
  | literal (d : DeclDefault)
  deriving DecidableEq, Repr

/-- The part of the checker that `default_fill` reads. -/
structure Modules (ε : Type) where
  fileOf : ε → Nat
  moduleIdxOfFile : Nat → Option Nat
  graphModuleIdx : Nat

/-- Where a binding error points: the call, or the value of the `j`-th named
    argument. -/
inductive ErrAt where
  | call
  | named (j : Nat)
  deriving DecidableEq, Repr

structure BindError where
  msg : String
  pos : ErrAt
  deriving DecidableEq, Repr

variable {ε : Type}

/-- `none` is a hole that only the callee can fill. -/
def defaultFill (c : Modules ε) (d : Dflt ε) (nTargs : Nat) : Option (ArgFill ε) :=
  match d with
  | .calleeFilled => none
  | .genericProvider name tps => if nTargs ≠ tps then none else some (.provider name)
  | .provider name => some (.provider name)
  | .literal d => some (.literal d)
  | .inline e => some (.inline ((c.moduleIdxOfFile (c.fileOf e)).getD c.graphModuleIdx) e)

def slotName (slots : List (SlotSpec ε)) (i : Nat) : String :=
  let n := i + 1
  ((slots[i]?).bind SlotSpec.name).getD s!"#{n}"

def unknown (slots : List (SlotSpec ε)) (k : String) : String :=
  let known := slots.filterMap SlotSpec.name
  if known.isEmpty then s!"unknown named argument '{k}'"
  else
    let names := ", ".intercalate known
    s!"unknown named argument '{k}' (its parameters are: {names})"

section

variable (slots : List (SlotSpec ε))

/-- Index of the variadic slot. -/
def variadic : Option Nat :=
  slots.findIdx? SlotSpec.isVariadic

def posLimit : Nat :=
  (variadic slots).getD slots.length

/-- Number of slots that the positional arguments fill one by one. -/
def nPositional (np : Nat) : Nat :=
  min np (posLimit slots)

def fillable (np : Nat) : Bool :=
  decide (np < slots.length) && (slots.drop np).all (fun s => s.default.isSome)

/-- `by_slot` before the named arguments are read. -/
def byPosition (np : Nat) : List (Option Nat) :=
  (range slots.length).map fun i => if i < nPositional slots np then some i else none

end

/-- The loop over the named arguments; `j` is the index of the next one. -/
def bindNamed (slots : List (SlotSpec ε)) (np : Nat) :
    Nat → List String → List (Option Nat) → Except BindError (List (Option Nat))
  | _, [], bySlot => .ok bySlot
  | j, k :: ks, bySlot =>
    match slots.findIdx? (fun s => s.name == some k) with
    | none => .error ⟨unknown slots k, .named j⟩
    | some idx =>
      if variadic slots = some idx then
        .error ⟨s!"argument '{k}' is the variadic parameter and cannot be passed by name (it collects the surplus positionals)", .named j⟩
      else if idx < nPositional slots np then
        .error ⟨s!"argument '{k}' specified both positionally and by name", .named j⟩
      else if (bySlot.getD idx none).isSome then
        .error ⟨s!"duplicate named argument '{k}'", .named j⟩
      else bindNamed slots np (j + 1) ks (bySlot.set idx (some (np + j)))

/-- One turn of the fill loop, at slot `i` with `by_slot[i] = s`. -/
def fillSlot (c : Modules ε) (slots : List (SlotSpec ε)) (np nTargs i : Nat) (s : Option Nat) :
    Except BindError (Option (ArgFill ε)) :=
  if variadic slots = some i then .ok (some (.pack (range' i (np - i))))
  else
    match s, (slots[i]?).bind SlotSpec.default with
    | some ci, _ => .ok (some (.arg ci))
    | none, some d => .ok (defaultFill c d nTargs)
    | none, none =>
      let kind := if (variadic slots).any (fun v => v < i) then "missing required keyword argument"
        else "missing required argument"
      let p := slotName slots i
      .error ⟨s!"{kind} '{p}'", .call⟩

def fillSlots (c : Modules ε) (slots : List (SlotSpec ε)) (np nTargs : Nat) :
    Nat → List (Option Nat) → Except BindError (List (Option (ArgFill ε)))
  | _, [] => .ok []
  | i, s :: rest => do
    let f ← fillSlot c slots np nTargs i s
    let fs ← fillSlots c slots np nTargs (i + 1) rest
    return f :: fs

/-- The end of `plan_call`: the trailing run of holes is dropped, any other hole
    is an error. -/
def dropTail (slots : List (SlotSpec ε)) (filled : List (Option (ArgFill ε))) :
    Except BindError (List (ArgFill ε)) :=
  let out := filled.rdropWhile Option.isNone
  match out.findIdx? Option.isNone with
  | some i =>
    let later := (((range' (i + 1) (out.length - (i + 1))).find?
      fun j => (out.getD j none).isSome).map (slotName slots)).getD ""
    let p := slotName slots i
    .error ⟨s!"the default for '{p}' is filled by the callee and can only be omitted from the END of a call, but '{later}' is supplied after it — pass '{p}' explicitly", .call⟩
  | none => .ok out.reduceOption

section

variable (c : Modules ε) (slots : List (SlotSpec ε))

def planSlots (np : Nat) (names : List String)
    (nTargs : Nat) : Except BindError (List (ArgFill ε)) := do
  let bySlot ← bindNamed slots np 0 names (byPosition slots np)
  let filled ← fillSlots c slots np nTargs 0 bySlot
  dropTail slots filled

/-- `plan_call`: `ok none` leaves the call as written to the arity check. -/
def planCall (args : List ε)
    (named : List (String × ε)) (nTargs : Nat) :
    Except BindError (Option (List (ArgFill ε))) :=
  let np := args.length
  let n := slots.length
  if (variadic slots).isNone && (named.isEmpty && !fillable slots np) then .ok none
  else if (variadic slots).isNone && decide (n < np) then
    .error ⟨s!"too many arguments: expected at most {n}, got {np}", .call⟩
  else do
    let plan ← planSlots c slots np (named.map Prod.fst) nTargs
    return some plan

end

/-- What the compiler pushes for one entry of a plan. -/
inductive Pushed (ε : Type) where
  | expr (e : ε)
  | pack (es : List ε)
  | fill (f : ArgFill ε)
  deriving DecidableEq, Repr

/-- `pick`; `none` is an index out of bounds. -/
def pick (args : List ε) (named : List (String × ε)) (ci : Nat) : Option ε :=
  if ci < args.length then args[ci]? else (named[ci - args.length]?).map Prod.snd

def pickAll (args : List ε) (named : List (String × ε)) : List Nat → Option (List ε)
  | [] => some []
  | ci :: cis => do
    let e ← pick args named ci
    let es ← pickAll args named cis
    return e :: es

def pushFill (args : List ε) (named : List (String × ε)) : ArgFill ε → Option (Pushed ε)
  | .arg ci => (pick args named ci).map .expr
  | .pack cis => (pickAll args named cis).map .pack
  | f => some (.fill f)

/-- `compile_plan_args`: the values a planned call pushes, left to right. -/
def compilePlanArgs (args : List ε) (named : List (String × ε)) :
    List (ArgFill ε) → Option (List (Pushed ε))
  | [] => some []
  | f :: fs => do
    let p ← pushFill args named f
    let ps ← compilePlanArgs args named fs
    return p :: ps

/-! ## What a call is to bind -/

/-- The argument slot `i` receives: the `i`-th positional, else the one of its
    name, as an index into `args ++ named`. -/
def slotArg (slots : List (SlotSpec ε)) (np : Nat) (names : List String) (i : Nat) : Option Nat :=
  if i < nPositional slots np then some i
  else ((slots[i]?).bind SlotSpec.name).bind fun k =>
    (names.findIdx? (fun k' => k' == k)).map (np + ·)

section

variable (c : Modules ε) (slots : List (SlotSpec ε))

def slotFill (np : Nat) (names : List String)
    (nTargs i : Nat) : Option (ArgFill ε) :=
  if variadic slots = some i then some (.pack (range' i (np - i)))
  else
    match slotArg slots np names i with
    | some ci => some (.arg ci)
    | none => ((slots[i]?).bind SlotSpec.default).bind fun d => defaultFill c d nTargs

/-- What slot `i` of a call is to hold, in the caller's expressions; `none` when
    the call cannot supply it. -/
def slotValue (args : List ε)
    (named : List (String × ε)) (nTargs i : Nat) : Option (Pushed ε) :=
  if variadic slots = some i then some (.pack (args.drop i))
  else if i < nPositional slots args.length then (args[i]?).map .expr
  else
    match ((slots[i]?).bind SlotSpec.name).bind fun k => named.find? (fun a => a.1 == k) with
    | some a => some (.expr a.2)
    | none => ((slots[i]?).bind SlotSpec.default).bind fun d => (defaultFill c d nTargs).map .fill

section

variable (np : Nat) (names : List String) (nTargs : Nat)

/-- Slot `i` is omitted by the call and its default is left to the callee. -/
def Hole (i : Nat) : Prop :=
  variadic slots ≠ some i ∧ slotArg slots np names i = none ∧
    ∃ s d, slots[i]? = some s ∧ s.default = some d ∧ defaultFill c d nTargs = none

/-- The reasons for which a call has no plan. -/
inductive Refused : Prop where
  | unknown (k : String) (hk : k ∈ names) (h : ∀ s ∈ slots, s.name ≠ some k)
  | namesPack (k : String) (hk : k ∈ names) (i : Nat) (s : SlotSpec ε) (hs : slots[i]? = some s)
      (hn : s.name = some k) (h : variadic slots = some i)
  | alreadyGiven (k : String) (hk : k ∈ names) (i : Nat) (s : SlotSpec ε)
      (hs : slots[i]? = some s) (hn : s.name = some k) (h : i < nPositional slots np)
  | repeated (h : ¬ names.Nodup)
  | tooMany (hv : variadic slots = none) (h : slots.length < np)
  | missing (i : Nat) (s : SlotSpec ε) (hs : slots[i]? = some s) (hv : variadic slots ≠ some i)
      (ha : slotArg slots np names i = none) (h : s.default = none)
  | hole (i j : Nat) (hij : i < j) (hj : j < slots.length)
      (hi : Hole c slots np names nTargs i) (h : (slotFill c slots np names nTargs j).isSome)

end

end

/-- The calls that `plan_call` does not bind: no variadic slot, no named
    argument, and either nothing is left to fill or an omitted slot has no
    default. -/
def LeftUnbound (slots : List (SlotSpec ε)) (np : Nat) (names : List String) : Prop :=
  variadic slots = none ∧ names = [] ∧
    (slots.length ≤ np ∨ ∃ i s, np ≤ i ∧ slots[i]? = some s ∧ s.default = none)

/-- The arguments an entry of a plan uses. -/
def ArgFill.used : ArgFill ε → List Nat
  | .arg ci => [ci]
  | .pack cis => cis
  | _ => []

/-- Slot names are distinct (an unlabelled slot has none). -/
def DistinctNames (slots : List (SlotSpec ε)) : Prop :=
  ∀ (i j : Nat) (s t : SlotSpec ε) (k : String), slots[i]? = some s → slots[j]? = some t →
    s.name = some k → t.name = some k → i = j

variable {slots : List (SlotSpec ε)} {named : List (String × ε)} {c : Modules ε}
  {nTargs np i ci : Nat} {plan : List (ArgFill ε)} {names : List String} {s : SlotSpec ε}
  {k : String} {d : Dflt ε} {f : ArgFill ε} {args : List ε}

theorem distinctNames_of_nodup (h : (slots.filterMap SlotSpec.name).Nodup) :
    DistinctNames slots := by
  unfold Nodup at h
  rw [pairwise_filterMap, pairwise_iff_getElem] at h
  intro i j s t k hs ht hn hm
  obtain ⟨hi, rfl⟩ := List.getElem?_eq_some_iff.mp hs
  obtain ⟨hj, rfl⟩ := List.getElem?_eq_some_iff.mp ht
  rcases Nat.lt_trichotomy i j with hlt | he | hgt
  · exact absurd rfl (h i j hi hj hlt k hn k hm)
  · exact he
  · exact absurd rfl (h j i hj hi hgt k hm k hn)

/-! ## The named arguments -/

/-- What the named-argument loop has established once it has read `names`. -/
structure Bound (slots : List (SlotSpec ε)) (np : Nat) (names : List String)
    (bySlot : List (Option Nat)) : Prop where
  length_eq : bySlot.length = slots.length
  get : ∀ i, i < slots.length → bySlot[i]? = some (slotArg slots np names i)
  nodup : names.Nodup
  known : ∀ k ∈ names, ∃ i s, slots[i]? = some s ∧ s.name = some k ∧
    variadic slots ≠ some i ∧ nPositional slots np ≤ i

theorem findName_some (h : slots.findIdx? (fun s => s.name == some k) = some i) :
    ∃ s, slots[i]? = some s ∧ s.name = some k := by
  obtain ⟨hi, hp, -⟩ := findIdx?_eq_some_iff_getElem.mp h
  exact ⟨slots[i], getElem?_eq_getElem hi, by simpa using hp⟩

theorem slotArg_of_lt (names) (h : i < nPositional slots np) :
    slotArg slots np names i = some i := by
  unfold slotArg; rw [if_pos h]

theorem slotArg_of_name (names) (h : nPositional slots np ≤ i) (hs : slots[i]? = some s)
    (hk : s.name = some k) :
    slotArg slots np names i = (names.findIdx? (fun k' => k' == k)).map (np + ·) := by
  unfold slotArg; rw [if_neg (by omega), hs]; simp [hk]

theorem slotArg_isSome_iff (names) (h : nPositional slots np ≤ i) (hs : slots[i]? = some s)
    (hk : s.name = some k) : (slotArg slots np names i).isSome ↔ k ∈ names := by
  rw [slotArg_of_name names h hs hk, isSome_map, findIdx?_isSome]
  simp

/-- Reading one more name only changes the slot of that name. -/
theorem slotArg_concat (hd : DistinctNames slots) (h : nPositional slots np ≤ i)
    (hs : slots[i]? = some s) (hk : s.name = some k) (hnew : k ∉ names) (i') :
    slotArg slots np (names ++ [k]) i' =
      if i' = i then some (np + names.length) else slotArg slots np names i' := by
  have hnone : names.findIdx? (fun k' => k' == k) = none := by
    rw [findIdx?_eq_none_iff]
    intro x hx
    exact beq_eq_false_iff_ne.mpr fun he => hnew (he ▸ hx)
  by_cases he : i' = i
  · subst he
    rw [if_pos rfl, slotArg_of_name _ h hs hk, findIdx?_append, hnone]
    simp
  rw [if_neg he]
  by_cases hlt : i' < nPositional slots np
  · rw [slotArg_of_lt _ hlt, slotArg_of_lt _ hlt]
  unfold slotArg
  rw [if_neg hlt, if_neg hlt]
  cases hs' : (slots[i']?).bind SlotSpec.name with
  | none => rfl
  | some k' =>
    obtain ⟨t, ht, hk'⟩ := bind_eq_some_iff.mp hs'
    have hne : k ≠ k' := fun hkk => he (hd i' i t s k' ht hs hk' (hkk ▸ hk))
    simp [findIdx?_append, hne]

theorem Bound.start (slots : List (SlotSpec ε)) (np) : Bound slots np [] (byPosition slots np) where
  length_eq := by simp [byPosition]
  get := by
    intro i hi
    have h0 : slotArg slots np [] i = if i < nPositional slots np then some i else none := by
      unfold slotArg
      split
      · rfl
      · cases (slots[i]?).bind SlotSpec.name <;> simp
    rw [h0]
    simp [byPosition, getElem?_range hi]
  nodup := nodup_nil
  known := by simp

theorem Bound.getD {bySlot} (hb : Bound slots np names bySlot) (hs : slots[i]? = some s) :
    bySlot.getD i none = slotArg slots np names i := by
  rw [getD_eq_getElem?_getD, hb.get i (List.getElem?_eq_some_iff.mp hs).1, Option.getD_some]

/-- The loop step: a known, unused, keyword-passable name is bound to its slot. -/
theorem Bound.concat {bySlot} (hb : Bound slots np names bySlot) (hd : DistinctNames slots)
    (hs : slots[i]? = some s) (hk : s.name = some k) (hv : variadic slots ≠ some i)
    (hp : nPositional slots np ≤ i) (hnew : k ∉ names) :
    Bound slots np (names ++ [k]) (bySlot.set i (some (np + names.length))) where
  length_eq := by rw [length_set]; exact hb.length_eq
  get := by
    intro i' hi'
    rw [slotArg_concat hd hp hs hk hnew i', getElem?_set, hb.length_eq]
    by_cases he : i = i'
    · subst he; simp [hi']
    · rw [if_neg he, if_neg (Ne.symm he), hb.get i' hi']
  nodup := by
    rw [nodup_append]
    refine ⟨hb.nodup, nodup_singleton k, ?_⟩
    intro a ha b hb' hab
    rw [mem_singleton] at hb'
    exact hnew (hb' ▸ hab ▸ ha)
  known := by
    intro k' hk'
    rw [mem_append, mem_singleton] at hk'
    cases hk' with
    | inl h => exact hb.known k' h
    | inr h => exact ⟨i, s, hs, h ▸ hk, hv, hp⟩

/-- `r` ends in a value of which `P` holds, or in an error, and then `Q`. -/
def Decides {α : Type} (r : Except BindError α) (P : α → Prop) (Q : Prop) : Prop :=
  match r with
  | .ok a => P a
  | .error _ => Q

theorem Decides.bind {α β : Type} {r : Except BindError α} {f : α → Except BindError β} {P P' Q}
    (h : Decides r P Q) (hf : ∀ a, P a → Decides (f a) P' Q) : Decides (r >>= f) P' Q := by
  cases r with
  | error e => exact h
  | ok a => exact hf a h

theorem Decides.imp {α : Type} {r : Except BindError α} {P P' Q Q'} (h : Decides r P Q)
    (hP : ∀ a, P a → P' a) (hQ : Q → Q') : Decides r P' Q' := by
  cases r with
  | error e => exact hQ h
  | ok a => exact hP a h

/-- The loop over the named arguments from any reached state: it either binds
    them all or stops at one that the call may not pass by name. -/
theorem bindNamed_spec (c nTargs) {j rest done bySlot} (hd : DistinctNames slots)
    (hb : Bound slots np done bySlot) (hj : j = done.length) :
    Decides (bindNamed slots np j rest bySlot) (Bound slots np (done ++ rest))
      (Refused c slots np (done ++ rest) nTargs) := by
  fun_induction bindNamed slots np j rest bySlot generalizing done with
  | case1 => rwa [append_nil]
  | case2 j k ks bySlot hf =>
    refine Refused.unknown k (by simp) fun s hs hn => ?_
    have := findIdx?_eq_none_iff.mp hf s hs
    simp [hn] at this
  | case3 j k ks bySlot i hf hv =>
    obtain ⟨s, hs, hk⟩ := findName_some hf
    exact Refused.namesPack k (by simp) i s hs hk hv
  | case4 j k ks bySlot i hf hv hp =>
    obtain ⟨s, hs, hk⟩ := findName_some hf
    exact Refused.alreadyGiven k (by simp) i s hs hk hp
  | case5 j k ks bySlot i hf hv hp hdup =>
    obtain ⟨s, hs, hk⟩ := findName_some hf
    rw [hb.getD hs, slotArg_isSome_iff done (by omega) hs hk] at hdup
    refine Refused.repeated fun hn => ?_
    rw [nodup_append] at hn
    exact hn.2.2 k hdup k (by simp) rfl
  | case6 j k ks bySlot i hf hv hp hdup ih =>
    obtain ⟨s, hs, hk⟩ := findName_some hf
    rw [hb.getD hs, slotArg_isSome_iff done (by omega) hs hk] at hdup
    subst hj
    simpa using ih (hb.concat hd hs hk hv (by omega) hdup) (by simp)

/-! ## Filling the slots -/

theorem fillSlot_spec (c np nTargs i names) (hs : slots[i]? = some s) :
    Decides (fillSlot c slots np nTargs i (slotArg slots np names i))
      (fun f => f = slotFill c slots np names nTargs i ∧ (f = none → Hole c slots np names nTargs i))
      (Refused c slots np names nTargs) := by
  unfold fillSlot slotFill
  by_cases hv : variadic slots = some i
  · rw [if_pos hv, if_pos hv]; simp [Decides]
  rw [if_neg hv, if_neg hv, hs]
  cases ha : slotArg slots np names i with
  | some ci => simp [Decides]
  | none =>
    cases hdf : s.default with
    | none =>
      simp only [bind_some, hdf]
      exact Refused.missing i s hs hv ha hdf
    | some d =>
      simp only [bind_some, hdf]
      exact ⟨rfl, fun hn => ⟨hv, ha, s, d, hs, hdf, hn⟩⟩

theorem fillSlots_spec (c nTargs) {bySlot} (hlen : i + bySlot.length = slots.length)
    (hget : ∀ j, j < bySlot.length → bySlot[j]? = some (slotArg slots np names (i + j))) :
    Decides (fillSlots c slots np nTargs i bySlot)
      (fun out => out.length = bySlot.length ∧
        ∀ j, j < bySlot.length → out[j]? = some (slotFill c slots np names nTargs (i + j)) ∧
          (slotFill c slots np names nTargs (i + j) = none → Hole c slots np names nTargs (i + j)))
      (Refused c slots np names nTargs) := by
  induction bySlot generalizing i with
  | nil => simp [fillSlots, Decides]
  | cons a rest ih =>
    have ha : a = slotArg slots np names i := by simpa using hget 0 (by simp)
    rw [length_cons] at hlen
    have hslot := fillSlot_spec c np nTargs i names
      (getElem?_eq_getElem (l := slots) (i := i) (by omega))
    rw [← ha] at hslot
    have hrest := ih (i := i + 1) (by omega) fun j hj => by
      simpa [Nat.add_assoc, Nat.add_comm 1 j] using hget (j + 1) (by simpa using hj)
    refine hslot.bind fun f hf => hrest.bind fun fs hfs => ⟨by simpa using hfs.1, fun j hj => ?_⟩
    cases j with
    | zero => exact ⟨by simpa using hf.1, fun hn => hf.2 (hf.1.trans hn)⟩
    | succ j =>
      have := hfs.2 j (by simpa using hj)
      rw [show i + 1 + j = i + (j + 1) by omega] at this
      simpa using this

/-! ## Dropping the trailing holes -/

theorem map_reduceOption {α : Type} {l : List (Option α)}
    (h : l.findIdx? Option.isNone = none) : l.reduceOption.map some = l := by
  rw [findIdx?_eq_none_iff] at h
  induction l with
  | nil => rfl
  | cons x xs ih =>
    cases x with
    | none => simp at h
    | some a => simpa using ih (forall_mem_cons.mp h).2

/-- A hole that survives the pop stands before a filled slot. -/
theorem exists_hole_before {α : Type} {l : List (Option α)}
    (h : (l.rdropWhile Option.isNone).findIdx? Option.isNone = some i) :
    ∃ (j : Nat) (a : α), i < j ∧ (l.rdropWhile Option.isNone)[i]? = some none ∧
      (l.rdropWhile Option.isNone)[j]? = some (some a) := by
  obtain ⟨hi, hnone, -⟩ := findIdx?_eq_some_iff_getElem.mp h
  have hi' : (l.rdropWhile isNone)[i]? = some none := by
    rw [getElem?_eq_getElem hi, isNone_iff_eq_none.mp hnone]
  have hne : l.rdropWhile isNone ≠ [] := ne_nil_of_length_pos (by omega)
  have hlast := rdropWhile_last_not isNone l hne
  have hget := getLast?_eq_getElem? (l := l.rdropWhile isNone)
  rw [getLast?_eq_some_getLast hne] at hget
  cases hx : (l.rdropWhile isNone).getLast hne with
  | none => simp [hx] at hlast
  | some a =>
    rw [hx] at hget
    refine ⟨(l.rdropWhile isNone).length - 1, a, ?_, hi', hget.symm⟩
    have hij : i ≠ (l.rdropWhile isNone).length - 1 := by
      intro he
      rw [he, ← hget] at hi'
      simp at hi'
    omega

/-- `dropTail` keeps a hole-free prefix whose complement is holes only, or finds
    a hole before a filled slot. -/
theorem dropTail_spec (slots : List (SlotSpec ε)) (filled) : Decides (dropTail slots filled)
    (fun plan => plan.length ≤ filled.length ∧
      (∀ i, i < plan.length → ∃ f, plan[i]? = some f ∧ filled[i]? = some (some f)) ∧
      ∀ i, plan.length ≤ i → i < filled.length → filled[i]? = some none)
    (∃ i j : Nat, ∃ f, i < j ∧ filled[i]? = some none ∧ filled[j]? = some (some f)) := by
  have happ : filled.rdropWhile isNone ++ filled.rtakeWhile isNone = filled :=
    rdropWhile_append_rtakeWhile
  have hpre : ∀ (i : Nat) (x : Option (ArgFill ε)), (filled.rdropWhile isNone)[i]? = some x → filled[i]? = some x := by
    intro i x hx
    rw [← happ, getElem?_append_left (List.getElem?_eq_some_iff.mp hx).1, hx]
  unfold dropTail
  cases hf : (filled.rdropWhile isNone).findIdx? isNone with
  | some i =>
    simp only [hf]
    obtain ⟨j, f, hij, hi, hj⟩ := exists_hole_before hf
    exact ⟨i, j, f, hij, hpre i _ hi, hpre j _ hj⟩
  | none =>
    simp only [hf]
    rw [← map_reduceOption hf] at happ
    generalize (filled.rdropWhile isNone).reduceOption = plan at happ
    have hl := congrArg length happ
    rw [length_append, length_map] at hl
    refine ⟨by omega, fun i hi => ⟨plan[i], by simp, ?_⟩, fun i hi hi' => ?_⟩
    · rw [← happ, getElem?_append_left (by simpa using hi)]
      simp [hi]
    have hb : i - plan.length < (filled.rtakeWhile isNone).length := by omega
    nth_rewrite 1 [← happ]
    rw [getElem?_append_right (by simpa using hi), length_map, getElem?_eq_getElem hb]
    exact congrArg some (isNone_iff_eq_none.mp (mem_rtakeWhile_imp (getElem_mem hb)))

/-! ## The whole binder -/

/-- What a plan guarantees, at the level of argument indices. -/
structure Planned (c : Modules ε) (slots : List (SlotSpec ε)) (np : Nat) (names : List String)
    (nTargs : Nat) (plan : List (ArgFill ε)) : Prop where
  length_le : plan.length ≤ slots.length
  get : ∀ i, i < plan.length → ∃ f, plan[i]? = some f ∧ slotFill c slots np names nTargs i = some f
  omitted : ∀ i, plan.length ≤ i → i < slots.length → Hole c slots np names nTargs i
  nodup : names.Nodup
  known : ∀ k ∈ names, ∃ i s, slots[i]? = some s ∧ s.name = some k ∧
    variadic slots ≠ some i ∧ nPositional slots np ≤ i

theorem planSlots_spec (c : Modules ε) (hd : DistinctNames slots) (np nTargs names) :
    Decides (planSlots c slots np names nTargs) (Planned c slots np names nTargs)
      (Refused c slots np names nTargs) := by
  refine (bindNamed_spec c nTargs hd (Bound.start slots np) rfl).bind fun bySlot hn => ?_
  have hf := fillSlots_spec (i := 0) c nTargs (by rw [Nat.zero_add]; exact hn.length_eq)
    fun j hj => by rw [Nat.zero_add]; exact hn.get j (hn.length_eq ▸ hj)
  simp only [Nat.zero_add, hn.length_eq] at hf
  refine hf.bind fun filled ⟨hlen, hfill⟩ => (dropTail_spec slots filled).imp ?_ ?_
  · rintro plan ⟨hle, hpre, htail⟩
    refine ⟨by omega, fun i hi => ?_, fun i hi hi' => ?_, hn.nodup, hn.known⟩
    · obtain ⟨f, hpf, hff⟩ := hpre i hi
      have := (hfill i (by omega)).1
      rw [hff, some_inj] at this
      exact ⟨f, hpf, this.symm⟩
    · have h := hfill i hi'
      rw [htail i hi (by omega), some_inj] at h
      exact h.2 h.1.symm
  · rintro ⟨i, j, f, hij, hi, hj⟩
    have hjl : j < slots.length := hlen ▸ (List.getElem?_eq_some_iff.mp hj).1
    have hi' := hfill i (by omega)
    have hj' := hfill j hjl
    rw [hi, some_inj] at hi'
    rw [hj, some_inj] at hj'
    exact Refused.hole i j hij hjl (hi'.2 hi'.1.symm) (by rw [← hj'.1]; rfl)

theorem Hole.slotFill_eq (h : Hole c slots np names nTargs i) :
    slotFill c slots np names nTargs i = none := by
  obtain ⟨hv, ha, s, d, hs, hdf, hn⟩ := h
  rw [slotFill, if_neg hv, ha, hs]
  simp [hdf, hn]

theorem Planned.lt_of_fill (h : Planned c slots np names nTargs plan) (hi : i < slots.length)
    (hf : (slotFill c slots np names nTargs i).isSome) :
    i < plan.length := by
  by_contra hge
  rw [(h.omitted i (by omega) hi).slotFill_eq] at hf
  cases hf

/-- A planned call meets none of the reasons to refuse it. -/
theorem Planned.not_refused (hd : DistinctNames slots) (h : Planned c slots np names nTargs plan)
    (hnp : variadic slots = none → np ≤ slots.length) : ¬ Refused c slots np names nTargs := by
  intro hr
  cases hr with
  | unknown k hk hno =>
    obtain ⟨i, s, hs, hn, -⟩ := h.known k hk
    exact hno s (mem_of_getElem? hs) hn
  | namesPack k hk i s hs hn hv =>
    obtain ⟨i', s', hs', hn', hv', -⟩ := h.known k hk
    rw [hd i i' s s' k hs hs' hn hn'] at hv
    exact hv' hv
  | alreadyGiven k hk i s hs hn hlt =>
    obtain ⟨i', s', hs', hn', -, hp⟩ := h.known k hk
    rw [hd i i' s s' k hs hs' hn hn'] at hlt
    omega
  | repeated hn => exact hn h.nodup
  | tooMany hv hlt => exact absurd (hnp hv) (by omega)
  | missing i s hs hv ha hdf =>
    have hi : i < slots.length := (List.getElem?_eq_some_iff.mp hs).1
    by_cases hp : i < plan.length
    · obtain ⟨f, -, hf⟩ := h.get i hp
      unfold slotFill at hf
      rw [if_neg hv, ha, hs] at hf
      simp [hdf] at hf
    obtain ⟨-, -, s', d, hs', hdf', -⟩ := h.omitted i (by omega) hi
    rw [hs, some_inj] at hs'
    rw [← hs', hdf] at hdf'
    cases hdf'
  | hole i j hij hj hi hf =>
    have hjp := h.lt_of_fill hj hf
    obtain ⟨f, -, hfi⟩ := h.get i (by omega)
    rw [hi.slotFill_eq] at hfi
    cases hfi

theorem fillable_eq_false_iff (slots : List (SlotSpec ε)) (np) : fillable slots np = false ↔
      slots.length ≤ np ∨ ∃ i s, np ≤ i ∧ slots[i]? = some s ∧ s.default = none := by
  unfold fillable
  rw [Bool.and_eq_false_iff, decide_eq_false_iff_not, Nat.not_lt, List.all_eq_false]
  refine or_congr_right ⟨fun h => ?_, fun h => ?_⟩
  · obtain ⟨s, hs, hn⟩ := h
    obtain ⟨i, hi⟩ := mem_iff_getElem?.mp hs
    rw [getElem?_drop] at hi
    exact ⟨np + i, s, by omega, hi, by simpa using hn⟩
  · obtain ⟨i, s, hi, hs, hn⟩ := h
    refine ⟨s, mem_iff_getElem?.mpr ⟨i - np, ?_⟩, by simp [hn]⟩
    rw [getElem?_drop, show np + (i - np) = i by omega, hs]

theorem leftUnbound_iff (slots : List (SlotSpec ε)) (np) (named : List (String × ε)) :
    ((variadic slots).isNone && (named.isEmpty && !fillable slots np)) = true ↔
      LeftUnbound slots np (named.map Prod.fst) := by
  unfold LeftUnbound
  rw [Bool.and_eq_true, Bool.and_eq_true, isNone_iff_eq_none, List.isEmpty_iff,
    Bool.not_eq_true', fillable_eq_false_iff, map_eq_nil_iff]

section

variable (c : Modules ε) (hd : DistinctNames slots) (args : List ε) (named : List (String × ε))
  (nTargs : Nat)
include hd

/-- The three outcomes of `plan_call`, each with what it means. -/
theorem planCall_spec : match planCall c slots args named nTargs with
    | .ok none => LeftUnbound slots args.length (named.map Prod.fst)
    | .ok (some plan) => ¬ LeftUnbound slots args.length (named.map Prod.fst) ∧
        (variadic slots = none → args.length ≤ slots.length) ∧
        Planned c slots args.length (named.map Prod.fst) nTargs plan
    | .error _ => ¬ LeftUnbound slots args.length (named.map Prod.fst) ∧
        Refused c slots args.length (named.map Prod.fst) nTargs := by
  unfold planCall
  by_cases hu : LeftUnbound slots args.length (named.map Prod.fst)
  · simp only [if_pos ((leftUnbound_iff slots args.length named).mpr hu)]
    exact hu
  simp only [if_neg (mt (leftUnbound_iff slots args.length named).mp hu)]
  by_cases ht : ((variadic slots).isNone && decide (slots.length < args.length)) = true
  · simp only [if_pos ht]
    rw [Bool.and_eq_true, isNone_iff_eq_none, decide_eq_true_eq] at ht
    exact ⟨hu, Refused.tooMany ht.1 ht.2⟩
  simp only [if_neg ht]
  have hnp : variadic slots = none → args.length ≤ slots.length := by
    intro hv
    simpa [hv] using ht
  have hs := planSlots_spec c hd args.length nTargs (named.map Prod.fst)
  cases hp : planSlots c slots args.length (named.map Prod.fst) nTargs with
  | error e => rw [hp] at hs; exact ⟨hu, hs⟩
  | ok plan => rw [hp] at hs; exact ⟨hu, hnp, hs⟩

/-- The binder refuses a call exactly for the listed reasons, apart from the
    calls it leaves to the arity check. -/
theorem planCall_error_iff : (∃ e, planCall c slots args named nTargs = .error e) ↔
      Refused c slots args.length (named.map Prod.fst) nTargs ∧
        ¬ LeftUnbound slots args.length (named.map Prod.fst) := by
  have h := planCall_spec c hd args named nTargs
  cases hp : planCall c slots args named nTargs with
  | error e =>
    rw [hp] at h
    exact ⟨fun _ => ⟨h.2, h.1⟩, fun _ => ⟨e, rfl⟩⟩
  | ok o =>
    rw [hp] at h
    have hno : ¬ ∃ e, (Except.ok o : Except BindError _) = .error e := fun ⟨_, he⟩ => by cases he
    refine iff_of_false hno fun hr => ?_
    cases o with
    | none => exact hr.2 h
    | some plan => exact h.2.2.not_refused hd h.2.1 hr.1

theorem planCall_none_iff : planCall c slots args named nTargs = .ok none ↔
      LeftUnbound slots args.length (named.map Prod.fst) := by
  have h := planCall_spec c hd args named nTargs
  cases hp : planCall c slots args named nTargs with
  | error e =>
    rw [hp] at h
    exact iff_of_false (nofun) h.1
  | ok o =>
    rw [hp] at h
    cases o with
    | none => exact iff_of_true rfl h
    | some plan => exact iff_of_false (nofun) h.1

end

/-! ## Every argument is used once -/

/-- Slot `i` is where argument `ci` of the combined list goes. -/
theorem slotArg_eq_some (h : slotArg slots np names i = some ci) :
    (ci = i ∧ i < nPositional slots np) ∨
      ∃ s k, slots[i]? = some s ∧ s.name = some k ∧ np ≤ ci ∧ names[ci - np]? = some k := by
  unfold slotArg at h
  by_cases hlt : i < nPositional slots np
  · rw [if_pos hlt, some_inj] at h
    exact .inl ⟨h.symm, hlt⟩
  rw [if_neg hlt] at h
  obtain ⟨k, hk, hj⟩ := bind_eq_some_iff.mp h
  obtain ⟨s, hs, hn⟩ := bind_eq_some_iff.mp hk
  obtain ⟨j, hf, rfl⟩ := map_eq_some_iff.mp hj
  obtain ⟨hjl, hp, -⟩ := findIdx?_eq_some_iff_getElem.mp hf
  refine .inr ⟨s, k, hs, hn, by omega, ?_⟩
  rw [show np + j - np = j by omega, getElem?_eq_getElem hjl]
  exact congrArg some (by simpa using hp)

theorem nPositional_le_left (slots : List (SlotSpec ε)) (np) : nPositional slots np ≤ np :=
  Nat.min_le_left _ _

theorem variadic_lt {v} (h : variadic slots = some v) : v < slots.length :=
  (findIdx?_eq_some_iff_getElem.mp h).1

theorem posLimit_le (slots : List (SlotSpec ε)) : posLimit slots ≤ slots.length := by
  unfold posLimit
  cases h : variadic slots with
  | none => exact le_rfl
  | some v => exact Nat.le_of_lt (variadic_lt h)

/-- The argument indices slot `i` uses. -/
def slotUses (c : Modules ε) (slots : List (SlotSpec ε)) (np : Nat) (names : List String)
    (nTargs i : Nat) : List Nat :=
  ((slotFill c slots np names nTargs i).map ArgFill.used).getD []

/-- A default is never filled from an argument of the call. -/
theorem defaultFill_cases (h : defaultFill c d nTargs = some f) :
    (∃ name, f = .provider name) ∨ (∃ m e, f = .inline m e) ∨ ∃ l, f = .literal l := by
  cases d with
  | calleeFilled => cases h
  | inline e => exact .inr (.inl ⟨_, e, (some_inj.mp h).symm⟩)
  | provider name => exact .inl ⟨name, (some_inj.mp h).symm⟩
  | literal l => exact .inr (.inr ⟨l, (some_inj.mp h).symm⟩)
  | genericProvider name tps =>
    simp only [defaultFill] at h
    split at h
    · cases h
    · exact .inl ⟨name, (some_inj.mp h).symm⟩

theorem defaultFill_used (h : defaultFill c d nTargs = some f) : f.used = [] := by
  obtain ⟨_, rfl⟩ | ⟨_, _, rfl⟩ | ⟨_, rfl⟩ := defaultFill_cases h <;> rfl

theorem slotUses_eq (c : Modules ε) (slots np nTargs i names) :
    slotUses c slots np names nTargs i = if variadic slots = some i then range' i (np - i)
      else (slotArg slots np names i).toList := by
  unfold slotUses slotFill
  split
  · rfl
  cases slotArg slots np names i with
  | some ci => rfl
  | none =>
    cases hb : ((slots[i]?).bind SlotSpec.default).bind fun d => defaultFill c d nTargs with
    | none => rfl
    | some f =>
      obtain ⟨d, -, hf⟩ := bind_eq_some_iff.mp hb
      exact defaultFill_used hf

theorem mem_slotUses : ci ∈ slotUses c slots np names nTargs i ↔
      if variadic slots = some i then i ≤ ci ∧ ci < np
      else slotArg slots np names i = some ci := by
  rw [slotUses_eq]
  split
  · rw [mem_range'_1]
    omega
  · exact mem_toList

theorem slotUses_nodup (c : Modules ε) (slots np nTargs i names) :
    (slotUses c slots np names nTargs i).Nodup := by
  rw [slotUses_eq]
  split
  · exact nodup_range'
  · cases slotArg slots np names i <;> simp

theorem posLimit_eq_of_variadic {v} (h : variadic slots = some v) : posLimit slots = v := by
  unfold posLimit; rw [h]; rfl

/-- An argument that another slot receives is not among those the pack collects. -/
theorem not_packed {j} (hv : variadic slots = some i) (ha : slotArg slots np names j = some ci) :
    ci < i ∨ np ≤ ci := by
  cases slotArg_eq_some ha with
  | inl h =>
    have hle : nPositional slots np ≤ i := by
      rw [nPositional, posLimit_eq_of_variadic hv]
      exact Nat.min_le_right _ _
    omega
  | inr h =>
    obtain ⟨-, -, -, -, hle, -⟩ := h
    exact .inr hle

/-- No argument goes to two slots. -/
theorem slotUses_disjoint {j} (hd : DistinctNames slots)
    (hi : ci ∈ slotUses c slots np names nTargs i) (hj : ci ∈ slotUses c slots np names nTargs j) :
    i = j := by
  have hnp := nPositional_le_left slots np
  rw [mem_slotUses] at hi hj
  split at hi <;> split at hj
  · next hvi hvj => exact some_inj.mp (hvi.symm.trans hvj)
  · next hvi _ =>
    have := not_packed hvi hj
    omega
  · next _ hvj =>
    have := not_packed hvj hi
    omega
  rcases slotArg_eq_some hi with h | ⟨s, k, hs, hn, hle, hk⟩ <;>
    rcases slotArg_eq_some hj with h' | ⟨s', k', hs', hn', hle', hk'⟩
  · omega
  · omega
  · omega
  · rw [hk, some_inj] at hk'
    exact hd i j s s' k hs hs' hn (hk' ▸ hn')

/-- Every argument of a planned call goes to some slot of the plan. -/
theorem Planned.exists_use (h : Planned c slots np names nTargs plan)
    (hnp : variadic slots = none → np ≤ slots.length) (hci : ci < np + names.length) :
    ∃ i, i < slots.length ∧ ci ∈ slotUses c slots np names nTargs i := by
  by_cases hpos : ci < np
  · by_cases hlim : ci < posLimit slots
    · have hne : variadic slots ≠ some ci := by
        intro hv
        rw [posLimit_eq_of_variadic hv] at hlim
        omega
      refine ⟨ci, hlim.trans_le (posLimit_le slots), ?_⟩
      rw [mem_slotUses, if_neg hne]
      exact slotArg_of_lt names (Nat.lt_min.mpr ⟨hpos, hlim⟩)
    · cases hv : variadic slots with
      | none =>
        have := hnp hv
        have hlen : posLimit slots = slots.length := by unfold posLimit; rw [hv]; rfl
        omega
      | some v =>
        rw [posLimit_eq_of_variadic hv] at hlim
        refine ⟨v, variadic_lt hv, ?_⟩
        rw [mem_slotUses, if_pos hv]
        omega
  · have hj : ci - np < names.length := by omega
    obtain ⟨i, s, hs, hn, hv, hp⟩ := h.known _ (getElem_mem hj)
    refine ⟨i, (List.getElem?_eq_some_iff.mp hs).1, ?_⟩
    have hfind : names.findIdx? (fun k' => k' == names[ci - np]) = some (ci - np) := by
      rw [findIdx?_eq_some_iff_getElem]
      refine ⟨hj, by simp, fun j hlt he => ?_⟩
      have he' : names[j] = names[ci - np] := by simpa using he
      have := (Nodup.getElem_inj_iff h.nodup).mp he'
      omega
    rw [mem_slotUses, if_neg hv, slotArg_of_name names hp hs hn, hfind, map_some]
    exact congrArg some (by omega)

theorem Planned.used_eq (h : Planned c slots np names nTargs plan) : plan.flatMap ArgFill.used =
      (range plan.length).flatMap (slotUses c slots np names nTargs) := by
  have hmap : plan.map ArgFill.used =
      (range plan.length).map (slotUses c slots np names nTargs) := by
    apply ext_getElem?
    intro i
    by_cases hi : i < plan.length
    · obtain ⟨f, hf, hs⟩ := h.get i hi
      rw [getElem?_map, getElem?_map, getElem?_range hi, hf]
      simp [slotUses, hs]
    · rw [getElem?_eq_none (by simpa using hi), getElem?_eq_none (by simpa using hi)]
  rw [flatMap_def, flatMap_def, hmap]

/-- **Each supplied argument is used exactly once.** -/
theorem Planned.uses_once (hd : DistinctNames slots) (h : Planned c slots np names nTargs plan)
    (hnp : variadic slots = none → np ≤ slots.length) :
    (plan.flatMap ArgFill.used).Perm (range (np + names.length)) := by
  rw [h.used_eq]
  have hnodup : ((range plan.length).flatMap (slotUses c slots np names nTargs)).Nodup := by
    rw [nodup_flatMap]
    refine ⟨fun i _ => slotUses_nodup c slots np nTargs i names, ?_⟩
    refine Pairwise.imp ?_ (nodup_range (n := plan.length))
    intro i j hij ci hi hj
    exact hij (slotUses_disjoint hd hi hj)
  rw [perm_ext_iff_of_nodup hnodup nodup_range]
  intro ci
  rw [mem_flatMap, mem_range]
  refine ⟨fun hmem => ?_, fun hci => ?_⟩
  · obtain ⟨i, -, hu⟩ := hmem
    rw [mem_slotUses] at hu
    split at hu
    · omega
    cases slotArg_eq_some hu with
    | inl h' => have := nPositional_le_left slots np; omega
    | inr h' =>
      obtain ⟨s, k, hs, hn, hle, hk⟩ := h'
      have := (List.getElem?_eq_some_iff.mp hk).1
      omega
  · obtain ⟨i, hi, hu⟩ := h.exists_use hnp hci
    refine ⟨i, mem_range.mpr (h.lt_of_fill hi ?_), hu⟩
    unfold slotUses at hu
    cases hf : slotFill c slots np names nTargs i with
    | none => rw [hf] at hu; simp at hu
    | some f => rfl

/-! ## What a planned call pushes -/

theorem pickAll_range' (args : List ε) (named n) :
    ∀ i, i + n = args.length → pickAll args named (range' i n) = some (args.drop i) := by
  induction n with
  | zero =>
    intro i hi
    rw [drop_eq_nil_of_le (by omega)]; rfl
  | succ n ih =>
    intro i hi
    have hlt : i < args.length := by omega
    rw [range'_succ, pickAll, ih (i + 1) (by omega), drop_eq_getElem_cons hlt]
    unfold pick
    rw [if_pos hlt, getElem?_eq_getElem hlt]
    rfl

theorem slotValue_of_slotArg (hv : variadic slots ≠ some i) :
    slotValue c slots args named nTargs i =
      match slotArg slots args.length (named.map Prod.fst) i with
      | some ci => (pick args named ci).map .expr
      | none => ((slots[i]?).bind SlotSpec.default).bind
          fun d => (defaultFill c d nTargs).map .fill := by
  unfold slotValue slotArg
  rw [if_neg hv]
  split
  · next hlt => simp [pick, hlt.trans_le (nPositional_le_left _ _)]
  cases (slots[i]?).bind SlotSpec.name with
  | none => rfl
  | some k =>
    simp only [bind_some, find?_eq_bind_findIdx?_getElem?, findIdx?_map, Function.comp_def]
    cases hj : named.findIdx? (fun a => a.1 == k) with
    | none => rfl
    | some j =>
      have hlt : ¬ args.length + j < args.length := by omega
      simp [pick, hlt, (findIdx?_eq_some_iff_getElem.mp hj).1]

/-- A bound slot names an argument of the call. -/
theorem pick_of_slotArg (h : slotArg slots args.length (named.map Prod.fst) i = some ci) :
    ∃ e, pick args named ci = some e := by
  unfold pick
  rcases slotArg_eq_some h with ⟨rfl, hlt⟩ | ⟨_, _, -, -, hle, hget⟩
  · have hlt' := hlt.trans_le (nPositional_le_left slots args.length)
    exact ⟨args[ci], by simp [hlt']⟩
  · rw [if_neg (by omega)]
    obtain ⟨a, ha, -⟩ := map_eq_some_iff.mp (getElem?_map ▸ hget)
    exact ⟨a.2, by rw [ha]; rfl⟩

theorem pushFill_default (h : defaultFill c d nTargs = some f) :
    pushFill args named f = some (.fill f) := by
  obtain ⟨_, rfl⟩ | ⟨_, _, rfl⟩ | ⟨_, rfl⟩ := defaultFill_cases h <;> rfl

/-- A plan entry that realises `slotFill` pushes `slotValue`. -/
theorem pushFill_slotFill
    (h : slotFill c slots args.length (named.map Prod.fst) nTargs i = some f) :
    ∃ p, pushFill args named f = some p ∧ slotValue c slots args named nTargs i = some p := by
  unfold slotFill at h
  by_cases hv : variadic slots = some i
  · rw [if_pos hv, some_inj] at h
    refine ⟨_, ?_, if_pos hv⟩
    rw [← h]
    by_cases hle : i ≤ args.length
    · rw [pushFill, pickAll_range' args named _ i (by omega)]; rfl
    · rw [show args.length - i = 0 by omega, drop_eq_nil_of_le (by omega)]; rfl
  rw [if_neg hv] at h
  rw [slotValue_of_slotArg hv]
  cases ha : slotArg slots args.length (named.map Prod.fst) i with
  | none =>
    rw [ha] at h
    obtain ⟨d, hdf, hf⟩ := bind_eq_some_iff.mp h
    exact ⟨.fill f, pushFill_default hf, by simp [hdf, hf]⟩
  | some ci =>
    rw [ha, some_inj] at h
    obtain ⟨e, he⟩ := pick_of_slotArg ha
    exact ⟨.expr e, by simp [← h, pushFill, he], by simp [he]⟩

theorem compilePlanArgs_eq {v : Nat → Option (Pushed ε)}
    (h : ∀ j f, plan[j]? = some f → ∃ p, pushFill args named f = some p ∧ v j = some p) :
    ∃ pushed, compilePlanArgs args named plan = some pushed ∧ pushed.length = plan.length ∧
      ∀ j, j < pushed.length → pushed[j]? = v j := by
  induction plan generalizing v with
  | nil => exact ⟨[], rfl, rfl, nofun⟩
  | cons f fs ih =>
    obtain ⟨p, hp, hv⟩ := h 0 f rfl
    obtain ⟨ps, hps, hlen, hget⟩ := ih (v := fun j => v (j + 1)) fun j => h (j + 1)
    refine ⟨p :: ps, by rw [compilePlanArgs, hp, hps]; rfl, by simp [hlen], fun j hj => ?_⟩
    cases j with
    | zero => exact hv.symm
    | succ j => exact hget j (Nat.lt_of_succ_lt_succ hj)

theorem Planned.pushes (h : Planned c slots args.length (named.map Prod.fst) nTargs plan) :
    ∃ pushed, compilePlanArgs args named plan = some pushed ∧ pushed.length = plan.length ∧
      ∀ i, i < pushed.length → pushed[i]? = slotValue c slots args named nTargs i := by
  refine compilePlanArgs_eq fun j f hf => ?_
  obtain ⟨f', hf', hs⟩ := h.get j (List.getElem?_eq_some_iff.mp hf).1
  rw [hf, some_inj] at hf'
  exact pushFill_slotFill (hf' ▸ hs)

/-! ## The callee's side -/

/-- `ast::Param`, without its type and spans. -/
structure Param (ε : Type) where
  name : String
  default : Option ε
  isVariadic : Bool
  deriving DecidableEq, Repr

def takesSelf (params : List (Param ε)) : Bool :=
  params.head?.any fun p => p.name == "self"

/-- Number of leading parameters that the call slots leave out: the receiver. -/
def receiverLen (params : List (Param ε)) : Nat :=
  if takesSelf params then 1 else 0

/-- `desugar::param_slots`; `dfltFor` is the classifier of a declared default. -/
def paramSlots (dfltFor : Param ε → ε → Dflt ε) (params : List (Param ε)) : List (SlotSpec ε) :=
  (params.drop (receiverLen params)).map fun p =>
    { name := some p.name, default := p.default.map (dfltFor p), isVariadic := p.isVariadic }

/-- The `while` loop of `min_callable_params`, from `first` down. -/
def trailingDefaults (params : List (Param ε)) : Nat → Nat
  | 0 => 0
  | first + 1 =>
    if ((params[first]?).bind Param.default).isSome then trailingDefaults params first
    else first + 1

section

variable (params : List (Param ε)) (hasWitnessParams : Bool)

def minCallableParams : Nat :=
  if hasWitnessParams then params.length
  else
    let first := trailingDefaults params params.length
    match params.findIdx? Param.isVariadic with
    | some v => max first (v + 1)
    | none => first

/-- The arity check of a bound call that pushes `got` values past the receiver. -/
def arityOk (got : Nat) : Bool :=
  decide (minCallableParams params hasWitnessParams - receiverLen params ≤ got) &&
    decide (got ≤ params.length - receiverLen params)

end

/-- One block of the prologue: `JumpIfProvided slot`, the default, `SetLocal slot`. -/
structure Block (ε : Type) where
  slot : Nat
  default : ε
  deriving DecidableEq, Repr

def emitDefaultParamPrologue (params : List (Param ε)) (hasWitnessParams : Bool) :
    List (Block ε) :=
  let first := minCallableParams params hasWitnessParams
  if first = params.length then []
  else (params.zipIdx.drop first).filterMap fun pi => pi.1.default.map fun d => ⟨pi.2, d⟩

/-- The prologue run on a frame entered with `argc` arguments; `eval` is the
    value of a default in its module. -/
def runPrologue {ν : Type} (eval : ε → ν) (argc : Nat) (blocks : List (Block ε))
    (locals : List ν) : List ν :=
  blocks.foldl (fun ls b => if b.slot < argc then ls else ls.set b.slot (eval b.default)) locals

/-- Entering the frame: the pushed values, the other parameter slots nil, then
    the prologue. -/
def enter {ν : Type} (eval : ε → ν) (nil : ν) (params : List (Param ε)) (hasWitnessParams : Bool)
    (pushed : List ν) : List ν :=
  runPrologue eval pushed.length (emitDefaultParamPrologue params hasWitnessParams)
    (pushed ++ replicate (params.length - pushed.length) nil)

section

variable {params : List (Param ε)} {w : Bool}

theorem arityOk_iff {got} :
    arityOk params w got = true ↔ minCallableParams params w - receiverLen params ≤ got ∧
      got ≤ params.length - receiverLen params := by
  simp [arityOk]

theorem trailingDefaults_le (params : List (Param ε)) (n) : trailingDefaults params n ≤ n := by
  induction n with
  | zero => exact Nat.le_refl 0
  | succ n ih => unfold trailingDefaults; split <;> omega

theorem default_of_trailingDefaults_le {params : List (Param ε)} {n}
    (hle : trailingDefaults params n ≤ i) (hi : i < n) :
    ((params[i]?).bind Param.default).isSome := by
  fun_induction trailingDefaults params n with
  | case1 => omega
  | case2 n h ih =>
    by_cases he : i = n
    · rw [he]; exact h
    · exact ih hle (by omega)
  | case3 n h => omega

/-- The loop stops as soon as it can: a suffix of defaults reaches down to it. -/
theorem trailingDefaults_le_of_suffix {params : List (Param ε)} {m n} (hmn : m ≤ n)
    (h : ∀ i, m ≤ i → i < n → ((params[i]?).bind Param.default).isSome) :
    trailingDefaults params n ≤ m := by
  fun_induction trailingDefaults params n with
  | case1 => exact Nat.zero_le m
  | case2 n hn ih =>
    by_cases he : m = n + 1
    · exact (trailingDefaults_le params n).trans (by omega)
    · exact ih (by omega) fun i hi hi' => h i hi (by omega)
  | case3 n hn =>
    by_contra hlt
    exact hn (h n (by omega) (by omega))

/-- From `minCallableParams` on, every parameter has a default. -/
theorem default_of_minCallableParams_le (params : List (Param ε)) (w i)
    (h : minCallableParams params w ≤ i) (hi : i < params.length) :
    ∃ p d, params[i]? = some p ∧ p.default = some d := by
  have hle : trailingDefaults params params.length ≤ i := by
    unfold minCallableParams at h
    cases w with
    | true => simp only [if_true] at h; omega
    | false =>
      simp only [Bool.false_eq_true, if_false] at h
      split at h <;> omega
  obtain ⟨d, hd⟩ := isSome_iff_exists.mp
    (default_of_trailingDefaults_le hle hi)
  obtain ⟨p, hp, hpd⟩ := bind_eq_some_iff.mp hd
  exact ⟨p, d, hp, hpd⟩

theorem mem_prologue {b} : b ∈ emitDefaultParamPrologue params w ↔
      minCallableParams params w ≤ b.slot ∧
        ∃ p, params[b.slot]? = some p ∧ p.default = some b.default := by
  unfold emitDefaultParamPrologue
  by_cases he : minCallableParams params w = params.length
  · simp only [if_pos he, not_mem_nil, false_iff]
    rintro ⟨hle, p, hp, -⟩
    have := (List.getElem?_eq_some_iff.mp hp).1
    omega
  simp only [if_neg he, mem_filterMap]
  refine ⟨fun h => ?_, fun h => ?_⟩
  · obtain ⟨⟨p, i⟩, hmem, hb⟩ := h
    obtain ⟨d, hd, rfl⟩ := map_eq_some_iff.mp hb
    obtain ⟨j, hj⟩ := mem_iff_getElem?.mp hmem
    rw [getElem?_drop, getElem?_zipIdx] at hj
    obtain ⟨q, hq, hpi⟩ := map_eq_some_iff.mp hj
    obtain ⟨rfl, rfl⟩ := Prod.mk.inj hpi
    exact ⟨by simp only; omega, q, by simpa using hq, hd⟩
  · obtain ⟨hle, p, hp, hd⟩ := h
    refine ⟨(p, b.slot), mem_iff_getElem?.mpr ⟨b.slot - minCallableParams params w, ?_⟩, ?_⟩
    · rw [getElem?_drop, getElem?_zipIdx,
        show minCallableParams params w + (b.slot - minCallableParams params w) = b.slot by omega, hp]
      simp
    · simp [hd]

/-- The binder never drops below the compiled minimum by itself: without witness
    parameters every plan passes the arity check. -/
theorem Planned.arityOk {dfltFor} (h : Planned c (paramSlots dfltFor params) np names nTargs plan) :
    arityOk params false plan.length = true := by
  have hlen : (paramSlots dfltFor params).length = params.length - receiverLen params := by
    simp [paramSlots]
  have hslot : ∀ i, (paramSlots dfltFor params)[i]? = (params[receiverLen params + i]?).map fun p =>
        { name := some p.name, default := p.default.map (dfltFor p),
          isVariadic := p.isVariadic } := by
    intro i
    unfold paramSlots
    rw [getElem?_map, getElem?_drop]
  have hle := h.length_le
  have hsuffix : trailingDefaults params params.length ≤ receiverLen params + plan.length := by
    by_cases hr : receiverLen params ≤ params.length
    · refine trailingDefaults_le_of_suffix (by omega) fun i hi hi' => ?_
      obtain ⟨-, -, s, d, hs, hd, -⟩ := h.omitted (i - receiverLen params) (by omega) (by omega)
      rw [hslot, show receiverLen params + (i - receiverLen params) = i by omega] at hs
      obtain ⟨p, hp, rfl⟩ := map_eq_some_iff.mp hs
      obtain ⟨e, he, -⟩ := map_eq_some_iff.mp hd
      simp [hp, he]
    · have := trailingDefaults_le params params.length
      omega
  have hpack : ∀ v, params.findIdx? Param.isVariadic = some v →
      v + 1 ≤ receiverLen params + plan.length := by
    intro v hv
    obtain ⟨hvl, hvp, hfirst⟩ := findIdx?_eq_some_iff_getElem.mp hv
    by_cases hr : v < receiverLen params
    · omega
    have hidx : variadic (paramSlots dfltFor params) = some (v - receiverLen params) := by
      rw [variadic, findIdx?_eq_some_iff_getElem]
      refine ⟨by omega, ?_, fun j hj => ?_⟩
      · simpa [paramSlots, Nat.add_sub_cancel' (Nat.not_lt.mp hr)] using hvp
      · simpa [paramSlots] using hfirst (receiverLen params + j) (by omega)
    by_contra hlt
    exact (h.omitted (v - receiverLen params) (by omega) (variadic_lt hidx)).1 hidx
  have hmin : minCallableParams params false ≤ receiverLen params + plan.length := by
    unfold minCallableParams
    cases hv : params.findIdx? Param.isVariadic with
    | none => exact hsuffix
    | some v => exact Nat.max_le.mpr ⟨hsuffix, hpack v hv⟩
  rw [arityOk_iff]
  omega

/-- A call that is left unbound and passes the arity check omits nothing. -/
theorem LeftUnbound.full {dfltFor} (h : LeftUnbound (paramSlots dfltFor params) np names)
    (hok : arityOk params w np = true) : np = params.length - receiverLen params := by
  rw [arityOk_iff] at hok
  obtain ⟨-, -, hle | ⟨i, s, hi, hs, hd⟩⟩ := h
  · simp only [paramSlots, length_map, length_drop] at hle
    omega
  unfold paramSlots at hs
  rw [getElem?_map, getElem?_drop] at hs
  obtain ⟨p, hp, rfl⟩ := map_eq_some_iff.mp hs
  have hl := (List.getElem?_eq_some_iff.mp hp).1
  obtain ⟨p', d, hp', hd'⟩ :=
    default_of_minCallableParams_le params w (receiverLen params + i) (by omega) hl
  rw [hp, some_inj] at hp'
  rw [map_eq_none_iff, hp', hd'] at hd
  cases hd

end

section

variable {ν : Type} (eval : ε → ν)

theorem runPrologue_cons (argc b bs locals) :
    runPrologue eval argc (b :: bs) locals = runPrologue eval argc bs
      (if b.slot < argc then locals else locals.set b.slot (eval b.default)) := rfl

theorem runPrologue_of_lt {argc} (hi : i < argc) (blocks) :
    ∀ locals : List ν, (runPrologue eval argc blocks locals)[i]? = locals[i]? := by
  induction blocks with
  | nil => intro locals; rfl
  | cons b bs ih =>
    intro locals
    rw [runPrologue_cons, ih]
    split
    · rfl
    · exact getElem?_set_ne (by omega)

/-- A slot past the arguments ends with the default of its block: the blocks of
    one slot agree, so a later one does not change it. -/
theorem runPrologue_of_ge {argc d blocks} {locals : List ν} (hi : argc ≤ i)
    (hl : i < locals.length) (hd : ∀ b ∈ blocks, b.slot = i → b.default = d)
    (h : locals[i]? = some (eval d) ∨ ∃ b ∈ blocks, b.slot = i) :
    (runPrologue eval argc blocks locals)[i]? = some (eval d) := by
  induction blocks generalizing locals with
  | nil => simpa [runPrologue] using h
  | cons b bs ih =>
    rw [runPrologue_cons]
    refine ih (by split <;> simpa using hl) (fun b' hb' => hd b' (by simp [hb'])) ?_
    by_cases hb : b.slot = i
    · refine .inl ?_
      rw [if_neg (by omega), hb, getElem?_set_self hl, hd b (by simp) hb]
    have hsame : (if b.slot < argc then locals else locals.set b.slot (eval b.default))[i]? =
        locals[i]? := by
      split
      · rfl
      · exact getElem?_set_ne hb
    rw [hsame]
    simpa [hb] using h

/-- **A frame entered short is completed by its prologue**: every supplied
    parameter keeps its value and every other one holds its declared default. -/
theorem enter_eq (nil params w pushed) (hmin : minCallableParams params w ≤ pushed.length)
    (hmax : pushed.length ≤ params.length) (i) (hi : i < params.length) :
    (enter eval nil params w pushed)[i]? = if i < pushed.length then pushed[i]?
      else ((params[i]?).bind Param.default).map eval := by
  have hlen : i < (pushed ++ replicate (params.length - pushed.length) nil).length := by
    simp only [length_append, length_replicate]; omega
  unfold enter
  by_cases hlt : i < pushed.length
  · rw [if_pos hlt, runPrologue_of_lt eval hlt, getElem?_append_left hlt]
  rw [if_neg hlt]
  obtain ⟨p, d, hp, hd⟩ := default_of_minCallableParams_le params w i (by omega) hi
  have hblock : (⟨i, d⟩ : Block ε) ∈ emitDefaultParamPrologue params w :=
    mem_prologue.mpr ⟨by simp only; omega, p, hp, hd⟩
  rw [runPrologue_of_ge (d := d) eval (by omega) hlen ?_ (.inr ⟨_, hblock, rfl⟩), hp]
  · simp [hd]
  intro b hb he
  obtain ⟨-, q, hq, hqd⟩ := mem_prologue.mp hb
  rw [he, hp, some_inj] at hq
  rw [← hq, hd, some_inj] at hqd
  exact hqd.symm

end

/-- `f(a, b = 5)` entered with one argument. -/
theorem enter_eq_short :
    (enter id 0 [⟨"a", none, false⟩, ⟨"b", some 5, false⟩] false [7])[1]? = some 5 :=
  enter_eq id 0 _ false [7] (by decide) (by decide) 1 (by decide)

/-! ## Call binding as a whole -/

/-- **Call binding.**  A plan uses every argument once, pushes what each slot is
    to hold on a prefix of the slots and leaves out callee-filled slots only; a
    call is refused exactly for a listed reason unless it is left unbound; and a
    declared function entered through a plan that passes its arity check misses
    only parameters that its prologue fills. -/
theorem call_binding (c : Modules ε) (slots : List (SlotSpec ε)) (hd : DistinctNames slots)
    (args : List ε) (named : List (String × ε)) (nTargs : Nat) :
    (∀ plan, planCall c slots args named nTargs = .ok (some plan) →
      (plan.flatMap ArgFill.used).Perm (List.range (args.length + named.length)) ∧
      plan.length ≤ slots.length ∧
      (∃ pushed, compilePlanArgs args named plan = some pushed ∧ pushed.length = plan.length ∧
        ∀ i, i < pushed.length → pushed[i]? = slotValue c slots args named nTargs i) ∧
      ∀ i, plan.length ≤ i → i < slots.length →
        Hole c slots args.length (named.map Prod.fst) nTargs i) ∧
    ((∃ e, planCall c slots args named nTargs = .error e) ↔
      Refused c slots args.length (named.map Prod.fst) nTargs ∧
        ¬ LeftUnbound slots args.length (named.map Prod.fst)) ∧
    (planCall c slots args named nTargs = .ok none ↔
      LeftUnbound slots args.length (named.map Prod.fst)) ∧
    (∀ dfltFor params w, slots = paramSlots dfltFor params →
      (∀ plan, planCall c slots args named nTargs = .ok (some plan) →
        arityOk params false plan.length = true ∧
        (arityOk params w plan.length = true → ∀ i, receiverLen params + plan.length ≤ i →
          i < params.length → minCallableParams params w ≤ i ∧
            ∃ d, (⟨i, d⟩ : Block ε) ∈ emitDefaultParamPrologue params w)) ∧
      (planCall c slots args named nTargs = .ok none → arityOk params w args.length = true →
        args.length = params.length - receiverLen params)) := by
  have hplanned : ∀ plan, planCall c slots args named nTargs = .ok (some plan) →
      (variadic slots = none → args.length ≤ slots.length) ∧
        Planned c slots args.length (named.map Prod.fst) nTargs plan := by
    intro plan hp
    have h := planCall_spec c hd args named nTargs
    rw [hp] at h
    exact h.2
  refine ⟨fun plan hp => ?_, planCall_error_iff c hd args named nTargs,
    planCall_none_iff c hd args named nTargs, fun dfltFor params w hslots => ⟨fun plan hp => ?_,
      fun hp hok => ?_⟩⟩
  · obtain ⟨hnp, h⟩ := hplanned plan hp
    have huse := h.uses_once hd hnp
    rw [length_map] at huse
    exact ⟨huse, h.length_le, h.pushes, h.omitted⟩
  · obtain ⟨-, h⟩ := hplanned plan hp
    subst hslots
    refine ⟨h.arityOk, fun hok i hi hil => ?_⟩
    have hmin : minCallableParams params w ≤ i := by
      rw [arityOk_iff] at hok
      omega
    obtain ⟨p, d, hpi, hpd⟩ := default_of_minCallableParams_le params w i hmin hil
    exact ⟨hmin, d, mem_prologue.mpr ⟨hmin, p, hpi, hpd⟩⟩
  · have hu := (planCall_none_iff c hd args named nTargs).mp hp
    subst hslots
    exact hu.full hok

/-- A surplus positional is a reason to refuse, and the call is not short, yet a
    purely positional call is handed on unbound. -/
theorem surplus_positional_unbound :
    Refused (⟨fun _ => 0, fun _ => none, 0⟩ : Modules Nat) [⟨some "x", none, false⟩] 2 [] 0 ∧
    ¬ [1, 2].length < [(⟨some "x", none, false⟩ : SlotSpec Nat)].length ∧
    planCall (⟨fun _ => 0, fun _ => none, 0⟩ : Modules Nat) [⟨some "x", none, false⟩] [1, 2] [] 0 =
      .ok none :=
  ⟨Refused.tooMany (by decide) (by decide), by decide, by decide⟩

/-- `f(a, ...xs, k = p(), z = <callee>)` called as `f(7, 8, 9)`: the pack takes
    the surplus, `k` its provider, and `z` is left to the prologue. -/
theorem call_binding_variadic :
    let slots : List (SlotSpec Nat) := [⟨some "a", none, false⟩, ⟨some "xs", none, true⟩,
      ⟨some "k", some (.provider "p"), false⟩, ⟨some "z", some .calleeFilled, false⟩]
    let plan : List (ArgFill Nat) := [.arg 0, .pack [1, 2], .provider "p"]
    planCall ⟨fun _ => 0, fun _ => none, 0⟩ slots [7, 8, 9] [] 0 = .ok (some plan) ∧
      (plan.flatMap ArgFill.used).Perm (List.range 3) := by
  intro slots plan
  have hplan : planCall ⟨fun _ => 0, fun _ => none, 0⟩ slots [7, 8, 9] [] 0 = .ok (some plan) := by
    decide
  exact ⟨hplan, ((call_binding _ slots (distinctNames_of_nodup (by decide)) _ _ _).1 _ hplan).1⟩

end ChezziLang.Checker.CallBind
