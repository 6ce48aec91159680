/-
  The exhaustiveness pass of `checker/exhaust.rs`: a usefulness check over the matrix
  of an unguarded arm's patterns.

  `exhLower` turns a pattern into the rows it stands for, one per combination of
  or-alternatives; what the pass cannot model (literals, ranges, too deep or too many
  patterns) becomes `never`, which covers nothing.  `exhWitnessRec` looks for a vector
  of values no row covers.  `checkMatch` is the arm loop of `check_match`.
-/
import ChezziLang.Checker.Pattern
import ChezziLang.Lib.PatMatrix

namespace ChezziLang.Checker.Exhaust

open Lib.PatMatrix (Pat specialize defaultMatrix heads)

/-! ## Domains -/

/-- The constructor domain of a column. -/
inductive Dom where
  /-- A closed sum, its members sorted by name.  The first string is the display
      prefix; `carrier` marks `T?` and `T!E`. -/
  | sum (display : String) (members : List (String × List Ty)) (carrier : Bool)
  /-- A tuple (label `""`) or a struct. -/
  | prod (label : String) (tys : List Ty)
  | bool
  /-- No finite constructor set. -/
  | unbounded

/-- `bare_display`: the part after the last `::`. -/
def bareDisplay (key : String) : String := (key.splitOn "::").getLastD key

/-- `sum_dom`. -/
def sumDom (t : Tables) (key : String) (variants : List (String × List Ty)) : Dom :=
  let allBare := variants.all fun v => t.importedVariants v.1 == some (key, v.1)
  let carrier := key == "Option" || key == "Result"
  .sum (if carrier || allBare then "" else bareDisplay key)
    (variants.insertionSort fun a b => a.1 ≤ b.1) carrier

/-- `dom_of_ty`. -/
def domOfTy (t : Tables) (ty : Ty) : Dom :=
  match ty with
  | .tuple tys => .prod "" tys
  | .struct name _ =>
    match t.structFieldsOf ty with
    | some fields => .prod name fields
    | none => .unbounded
  | .bool => .bool
  | _ =>
    match ty.enumKey, t.variantsOf ty with
    | some key, some vmap => sumDom t key vmap
    | _, _ => .unbounded

/-- The constructors of a domain, with their argument types. -/
def Dom.ctors : Dom → List (String × List Ty)
  | .sum _ members _ => members
  | .prod label tys => [(label, tys)]
  | .bool => [("true", []), ("false", [])]
  | .unbounded => []

/-! ## Lowering -/

def maxRows : Nat := 512

def maxDepth : Nat := 12

/-- Each combination so far with each alternative of the next column; `none` past
    `maxRows`. -/
def exhStep (combos : List (List (Pat String))) (alts : List (Pat String)) :
    Option (List (List (Pat String))) :=
  if combos.length * alts.length > maxRows then none
  else some (combos.flatMap fun combo => alts.map fun alt => combo ++ [alt])

/-- `exh_product`: one row per combination of the columns' alternatives. -/
def exhProduct (ctor : String) (columns : List (List (Pat String))) : List (Pat String) :=
  match columns.foldlM exhStep [[]] with
  | some combos => combos.map (Pat.ctor ctor)
  | none => [.never]

section
variable (t : Tables)

/-- `bare_variant_name`. -/
def bareVariantName (bare : Bool) (name : String) : String :=
  match t.importedVariants name with
  | some (_, variant) => if bare then variant else name
  | none => name

/-- A bare name: a nullary variant of the sum, a catch-all, or a variant that cannot
    stand here. -/
def lowerIdent (name : String) (dom : Dom) : List (Pat String) :=
  match dom, t.importedVariants name with
  | .sum _ members _, some (_, variant) =>
    if members.any fun m => m.1 == variant && m.2.isEmpty then [.ctor variant []]
    else [.never]
  | _, _ => if (t.bareName name).isVariant then [.never] else [.wild]

/-- `bool` is the one closed literal domain. -/
def lowerLiteral (lit : LitPattern) (dom : Dom) : List (Pat String) :=
  match lit, dom with
  | .bool b, .bool => [.ctor (if b then "true" else "false") []]
  | _, _ => [.never]

/-- The member of a sum that a `?` or `!` head means. -/
def carrierMember (tag : CarrierTag) : Dom → Option (String × List Ty)
  | .sum _ members _ =>
    (["Option", "Result"].filterMap (carrierVariantOfKey tag)).findSome? fun v =>
      members.find? fun m => m.1 == v && m.2.length == 1
  | _ => none

def lowerCarrier (tag : CarrierTag) (dom : Dom) (inner : Ty → List (Pat String)) :
    List (Pat String) :=
  match carrierMember tag dom with
  | some (vname, ty :: _) => exhProduct vname [inner ty]
  | _ => [.never]

def lowerTuple (n : Nat) (dom : Dom) (columns : List Ty → List (List (Pat String))) :
    List (Pat String) :=
  match dom with
  | .prod label tys =>
    if label == "" && tys.length == n then exhProduct "" (columns tys) else [.never]
  | _ => [.never]

section

variable (name : String) (enumName moduleName : Option String) (n : Nat)

/-- A head that names no constructor here: a catch-all name, or nothing known. -/
def lowerOther :
    List (Pat String) :=
  if enumName.isNone && moduleName.isNone && n == 0 && !(t.bareName name).isVariant then [.wild]
  else [.never]

def lowerVariant (dom : Dom)
    (columns : List Ty → List (List (Pat String))) : List (Pat String) :=
  match dom with
  | .prod label tys =>
    if label == "" then lowerOther t name enumName moduleName n
    else if t.structCtor label name enumName moduleName && tys.length == n then
      exhProduct label (columns tys)
    else [.never]
  | .sum _ members _ =>
    match members.find? fun m =>
        m.1 == bareVariantName t (enumName.isNone && moduleName.isNone) name with
    | some (vname, tys) =>
      if tys.length == n then exhProduct vname (columns tys)
      else lowerOther t name enumName moduleName n
    | none => lowerOther t name enumName moduleName n
  | _ => lowerOther t name enumName moduleName n

end

/-- Past the depth limit nothing is modelled. -/
def capDepth (depth : Nat) (rows : List (Pat String)) : List (Pat String) :=
  if depth > maxDepth then [.never] else rows

mutual

/-- `exh_lower`. -/
def exhLower : Pattern → Dom → Nat → List (Pat String)
  | .wildcard, _, depth => capDepth depth [.wild]
  | .ident name _, dom, depth => capDepth depth (lowerIdent t name dom)
  | .literal lit, dom, depth => capDepth depth (lowerLiteral lit dom)
  | .range _ _ _, _, depth => capDepth depth [.never]
  | .carrier tag inner _, dom, depth =>
    capDepth depth (lowerCarrier tag dom fun ty => exhLower inner (domOfTy t ty) (depth + 1))
  | .tuple subs, dom, depth =>
    capDepth depth (lowerTuple subs.length dom fun tys => exhColumns subs tys depth)
  | .variant name _ bindings enumName moduleName, dom, depth =>
    capDepth depth
      (lowerVariant t name enumName moduleName bindings.length dom fun tys =>
        exhColumns bindings tys depth)
  | .or alts, dom, depth => capDepth depth (exhAlts alts dom depth)

/-- The alternatives in each column of a constructor pattern. -/
def exhColumns : List Pattern → List Ty → Nat → List (List (Pat String))
  | p :: ps, ty :: tys, depth => exhLower p (domOfTy t ty) (depth + 1) :: exhColumns ps tys depth
  | _, _, _ => []

def exhAlts : List Pattern → Dom → Nat → List (Pat String)
  | [], _, _ => []
  | p :: ps, dom, depth => exhLower p dom (depth + 1) ++ exhAlts ps dom depth

end

/-! ## Witnesses -/

/-- A value no row covers, as the `help` line names it. -/
inductive Wit where
  | wild
  | ctor (name : String) (args : List Wit)
  | carrier (tag : CarrierTag) (w : Wit)
  deriving Repr

def displayOf (label name : String) : String :=
  if label == "" then name else label ++ "." ++ name

def Dom.label : Dom → String
  | .sum display _ _ => display
  | .prod label _ => label
  | _ => ""

def ctorDisplay (dom : Dom) (name : String) : String :=
  match dom with
  | .prod _ _ => bareDisplay name
  | _ => displayOf dom.label name

/-- `wit_ctor`. -/
def witCtor (dom : Dom) (name : String) (args : List Wit) : Wit :=
  match dom, args, carrierTagOfVariant name with
  | .sum _ _ true, [w], some tag => .carrier tag w
  | _, _, _ => .ctor (ctorDisplay dom name) args

/-- Every constructor of the domain heads a row. -/
def Dom.complete (dom : Dom) (used : List String) : Bool :=
  !dom.ctors.isEmpty && dom.ctors.all fun c => used.contains c.1

/-- The witness of a column whose rows miss a constructor. -/
def missingWit (dom : Dom) (used : List String) : Wit :=
  match dom.ctors.find? fun c => !used.contains c.1 with
  | some c => witCtor dom c.1 (c.2.map fun _ => .wild)
  | none => .wild

/-- `exh_witness_rec`, with `left` levels to go down to `MAX_DEPTH`. -/
def exhWitnessRec (left : Nat) (rows : List (List (Pat String))) (doms : List Dom) :
    Option (List Wit) :=
  match left with
  | 0 => some (doms.map fun _ => .wild)
  | left + 1 =>
    if rows.isEmpty then some (doms.map fun _ => .wild)
    else
      match doms with
      | [] => none
      | dom :: rest =>
        if dom.complete (heads rows) then
          dom.ctors.findSome? fun c =>
            (exhWitnessRec left (specialize rows c.1 c.2.length)
              (c.2.map (domOfTy t) ++ rest)).map fun w =>
                witCtor dom c.1 (w.take c.2.length) :: w.drop c.2.length
        else
          (exhWitnessRec left (defaultMatrix rows) rest).map fun w =>
            missingWit dom (heads rows) :: w

/-- The matrix of one `match`. -/
structure ExhCheck where
  rows : List (List (Pat String))
  dom : Dom
  overflow : Bool

/-- `exh_new`. -/
def exhNew : MatchKind → Option ExhCheck
  | .variants label variants _ => some ⟨[], sumDom t label variants, false⟩
  | .tuple tys => some ⟨[], .prod "" tys, false⟩
  | .struct label fields _ => some ⟨[], .prod label fields, false⟩
  | .literal _ => none

def ExhCheck.witness (e : ExhCheck) : Option (List Wit) :=
  exhWitnessRec t (maxDepth + 1) e.rows [e.dom]

/-- The rows of an arm; a guard can fail, so a guarded arm has none. -/
def armRows (dom : Dom) (pattern : Pattern) (guarded : Bool) : List (List (Pat String)) :=
  if guarded then [] else (exhLower t pattern dom 0).map fun alt => [alt]

/-- `exh_add`: the matrix with the arm's rows, and whether it is now complete. -/
def exhAdd (e : Option ExhCheck) (pattern : Pattern) (guarded : Bool) : Option ExhCheck × Bool :=
  match e with
  | none => (none, false)
  | some e =>
    if e.overflow then (some e, false)
    else
      let rows := e.rows ++ armRows t e.dom pattern guarded
      if rows.length > maxRows then (some ⟨rows.take maxRows, e.dom, true⟩, false)
      else
        let e' : ExhCheck := ⟨rows, e.dom, false⟩
        (some e', (e'.witness t).isNone)

/-! ## Rendering -/

/-- `tuple_text`. -/
def tupleText (parts : List String) : String :=
  "(" ++ String.intercalate ", " parts ++ (if parts.length == 1 then "," else "") ++ ")"

mutual

/-- `render_wit`. -/
def renderWit : Wit → String
  | .wild => "_"
  | .ctor name args =>
    if args.isEmpty then name
    else if name == "" then tupleText (renderWits args)
    else name ++ "(" ++ String.intercalate ", " (renderWits args) ++ ")"
  | .carrier tag w =>
    let head := match tag with
      | .present => "?"
      | .error => "!"
    match w with
    | .carrier _ _ => head ++ "(" ++ renderWit w ++ ")"
    | _ => head ++ renderWit w

def renderWits : List Wit → List String
  | [] => []
  | w :: ws => renderWit w :: renderWits ws

end

/-- `exh_help`. -/
def exhHelp (e : Option ExhCheck) : Option String :=
  e.bind fun e =>
    if e.overflow then none
    else (e.witness t).bind fun ws =>
      ws.head?.map fun w => "pattern `" ++ renderWit w ++ "` is not covered"

/-! ## The arm loop -/

/-- `check_match` between two arms. -/
structure MatchState where
  ok : Bool
  covered : List CoverKey
  hasWildcard : Bool
  exh : Option ExhCheck

/-- `bool_domain_closed`. -/
def boolDomainClosed (kind : MatchKind) (covered : List CoverKey) : Bool :=
  match kind with
  | .literal .bool =>
    covered.contains (.lit (.bool true)) && covered.contains (.lit (.bool false))
  | _ => false

section

variable {G : Type} (res : Resolutions) (kind : MatchKind)

def checkArm (st : MatchState) (arm : Arm G) :
    MatchState :=
  let r := bindMatchArm t res kind arm.guard.isSome st.covered arm.pattern
  let e := exhAdd t st.exh arm.pattern arm.guard.isSome
  { ok := st.ok && r.1.ok
    covered := r.2
    hasWildcard := st.hasWildcard || (r.1.irref && arm.guard.isNone) ||
      boolDomainClosed kind r.2 || e.2
    exh := e.1 }

/-- The arm loop, from the start of a `match`. -/
def checkArms (arms : List (Arm G)) :
    MatchState :=
  arms.foldl (checkArm t res kind) ⟨true, [], false, exhNew t kind⟩

end

/-- `check_exhaustive` reports nothing. -/
def checkExhaustive (kind : MatchKind) (st : MatchState) : Bool :=
  st.hasWildcard ||
    match kind with
    | .variants _ variants _ => variants.all fun v => st.covered.contains (.name v.1)
    | _ => false

/-- The checker accepts a `match` over a scrutinee of type `sty`. -/
def checkMatch {G : Type} (res : Resolutions) (sty : Ty) (arms : List (Arm G)) : Bool :=
  match matchKind t sty with
  | none => false
  | some kind =>
    let st := checkArms t res kind arms
    st.ok && checkExhaustive kind st

end

end ChezziLang.Checker.Exhaust
