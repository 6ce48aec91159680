/-
  Assignability: `assignable` and `assignable_zonked` of `checker/assignable.rs`.

  The type arguments of a mutable container are compared by `compatible` alone
  (`assignable_container`), which has one-way grants.  So a container slot takes a
  container that could not be assigned back exactly where such a grant decided
  (`container_invariance_iff`): a `List[str]` goes into a `List[Error]` slot, and a
  `List` of functions with a default into a `List` of functions without.

  Protocol conformance, the `eq` bounds of a witness and the solving of type
  variables are the registry's part and stand here as parameters.
-/
import ChezziLang.Checker.Ty

namespace ChezziLang.Checker

/-! ## Assignability -/

/-- What `assignable` asks the rest of the checker. -/
structure Registry where
  /-- `satisfies_args(ty, protocol, args).is_ok()`. -/
  satisfiesArgs : Ty → String → List Ty → Bool
  eqWhereBoundsUnsatisfied : Ty → Option String
  /-- `tyvars.any()`: some type variable is pending. -/
  anyVars : Bool
  /-- The answer for a pair with type variables: `solve`, then the comparison of
      the zonked pair. -/
  assignableSolved : Ty → Ty → Bool

mutual

/-- `has_var`; like `map_ty` it does not look at keyword-only parameters. -/
def hasVar : Ty → Bool
  | .var _ => true
  | .list t => hasVar t
  | .set t => hasVar t
  | .option t => hasVar t
  | .channel t => hasVar t
  | .shared t => hasVar t
  | .atomic t => hasVar t
  | .rwShared t => hasVar t
  | .map k v => hasVar k || hasVar v
  | .result t e => hasVar t || hasVar e
  | .tuple ts => hasVarAny ts
  | .struct _ args => hasVarAny args
  | .enum _ args => hasVarAny args
  | .protocol _ args => hasVarAny args
  | .func params ret _ _ => hasVarAny params || hasVar ret
  | _ => false

def hasVarAny : List Ty → Bool
  | [] => false
  | t :: ts => hasVar t || hasVarAny ts

end

namespace Registry

mutual

def assignable (chk : Registry) (expected actual : Ty) : Bool :=
  if !chk.anyVars || !(hasVar expected || hasVar actual) then
    chk.assignableZonked expected actual
  else chk.assignableSolved expected actual
termination_by (sizeOf expected + sizeOf actual, 1)

def assignableZonked (chk : Registry) (expected actual : Ty) : Bool :=
  match expected, actual with
  | .unknown, _ => true
  | _, .unknown => true
  | .width w, a => chk.assignable w.scalar a
  | e, .width w => chk.assignable e w.scalar
  | .protocol p pargs, a =>
    chk.satisfiesArgs a p pargs && (chk.eqWhereBoundsUnsatisfied a).isNone
  | .option e, .option a => chk.assignable e a
  | .list e, .list a => compatible e a
  | .set e, .set a => compatible e a
  | .result et ee, .result at' ae => chk.assignable et at' && chk.assignable ee ae
  | .map ek ev, .map ak av => compatible ek ak && compatible ev av
  | .struct n ea, .struct m aa => n == m && ea.length == aa.length && compatibleAll ea aa
  | .enum n ea, .enum m aa => n == m && ea.length == aa.length && compatibleAll ea aa
  | .tuple e, .tuple a => e.length == a.length && chk.assignableAll e a
  | .func p1 r1 l1 v1, .func p2 r2 l2 v2 =>
    p1.length == p2.length && v1 == v2 && kwFits l1.kw l2.kw &&
      decide (l2.minOr p2.length ≤ l1.minOr p1.length) &&
      invariantAll p1 p2 && chk.assignable r1 r2
  | e, a => compatible e a
termination_by (sizeOf expected + sizeOf actual, 0)

def assignableAll (chk : Registry) (es as : List Ty) : Bool :=
  match es, as with
  | e :: es, a :: as => chk.assignable e a && chk.assignableAll es as
  | _, _ => true
termination_by (sizeOf es + sizeOf as, 0)

end

theorem assignable_of_noVar (chk : Registry) {e a} (he : hasVar e = false) (ha : hasVar a = false) :
    chk.assignable e a = chk.assignableZonked e a := by
  rw [assignable, he, ha]
  simp

end Registry

/-! ## Mutable containers -/

/-- The generic types whose values are written through every alias. -/
inductive Container where
  | list
  | set
  | map
  | channel
  | shared
  | rwShared
  | atomic
  | struct (name : String)
  | enum (name : String)

/-- A container type as its head and type arguments. -/
def Ty.container : Ty → Option (Container × List Ty)
  | .list t => some (.list, [t])
  | .set t => some (.set, [t])
  | .map k v => some (.map, [k, v])
  | .channel t => some (.channel, [t])
  | .shared t => some (.shared, [t])
  | .rwShared t => some (.rwShared, [t])
  | .atomic t => some (.atomic, [t])
  | .struct n args => some (.struct n, args)
  | .enum n args => some (.enum n, args)
  | _ => none

theorem hasVar_container {E C es} (h : E.container = some (C, es)) : hasVar E = hasVarAny es := by
  cases E <;> cases h <;> simp only [hasVar, hasVarAny, Bool.or_false]

theorem oneWay_container {E A C es as} (hE : E.container = some (C, es))
    (hA : A.container = some (C, as)) : oneWay E A = oneWayAll es as := by
  cases E <;> cases hE <;> cases A <;> cases hA <;>
    simp only [oneWay, oneWayAll, Bool.or_false]

/-- The registry has no say inside a mutable container. -/
theorem assignable_container (chk : Registry) {E A C es as} (hE : E.container = some (C, es))
    (hA : A.container = some (C, as)) (hes : hasVarAny es = false) (has : hasVarAny as = false) :
    chk.assignable E A = compatible E A := by
  rw [chk.assignable_of_noVar ((hasVar_container hE).trans hes) ((hasVar_container hA).trans has)]
  cases E <;> cases hE <;> cases A <;> cases hA <;>
    simp only [Registry.assignableZonked, compatible]

/-- **When mutable containers are invariant.**  If `C[as]` is assignable to
    `C[es]`, it can be assigned back exactly when no one-way grant, an `Error` slot
    for a `str` or a function slot for a function that asks for less, was used on
    the type arguments. -/
theorem container_invariance_iff (chk : Registry) {E A : Ty} {C : Container} {es as : List Ty}
    (hE : E.container = some (C, es)) (hA : A.container = some (C, as))
    (hes : hasVarAny es = false) (has : hasVarAny as = false) :
    (chk.assignable E A = true → chk.assignable A E = true) ↔
      ¬ (chk.assignable E A = true ∧ oneWayAll es as = true) := by
  rw [assignable_container chk hE hA hes has, assignable_container chk hA hE has hes,
    ← oneWay_container hE hA]
  refine ⟨fun h hw => ?_, fun h hc => ?_⟩
  · have hf := compatible_flip E A hw.1
    rw [h hw.1, hw.2] at hf
    cases hf
  · rw [compatible_flip E A hc, Bool.not_eq_true']
    exact Bool.eq_false_iff.mpr fun hw => h ⟨hc, hw⟩

/-- A registry without protocols and without pending type variables. -/
def Registry.bare : Registry where
  satisfiesArgs := fun _ _ _ => false
  eqWhereBoundsUnsatisfied := fun _ => none
  anyVars := false
  assignableSolved := fun _ _ => false

/-- `fn(int) -> int`, with `min` required arguments. -/
def intFn (min : Option Nat) : Ty := .func [.int] .int ⟨[none], min, []⟩ .no

/-- A map from `str` to functions is assigned back: both sides ask for one
    argument. -/
theorem container_invariance_map :
    Registry.bare.assignable (.map .str (intFn (some 1))) (.map .str (intFn none)) = true ∧
      Registry.bare.assignable (.map .str (intFn none)) (.map .str (intFn (some 1))) = true := by
  have h : Registry.bare.assignable (.map .str (intFn (some 1))) (.map .str (intFn none)) = true := by
    rw [assignable_container _ rfl rfl rfl rfl]
    simp [intFn, compatible, kwFits, invariantAll, paramInvariant, FnLabels.minOr]
  refine ⟨h, (container_invariance_iff Registry.bare rfl rfl rfl rfl).mpr ?_ h⟩
  exact fun hw => absurd hw.2 (by decide)

/-- A `List[str]` goes into a `List[Error]` slot and a list of functions with a
    default into a list of functions without, and neither can be assigned back. -/
theorem list_argument_one_way :
    (Registry.bare.assignable (.list (.protocol "Error" [])) (.list .str) = true ∧
      Registry.bare.assignable (.list .str) (.list (.protocol "Error" [])) = false) ∧
    Registry.bare.assignable (.list (intFn none)) (.list (intFn (some 0))) = true ∧
      Registry.bare.assignable (.list (intFn (some 0))) (.list (intFn none)) = false := by
  rw [assignable_container _ rfl rfl rfl rfl, assignable_container _ rfl rfl rfl rfl,
    assignable_container _ rfl rfl rfl rfl, assignable_container _ rfl rfl rfl rfl]
  simp [intFn, compatible, kwFits, invariantAll, paramInvariant, FnLabels.minOr]

end ChezziLang.Checker
