/-
  How the checker types the patterns of a `match`: `checker/pattern.rs`.

  `bindSubpattern` checks a nested pattern against the type of its slot and
  `bindMatchArm` the pattern of an arm against the kind of the scrutinee.  Each says
  whether it reports no error, whether the pattern is irrefutable, and which names it
  declares.  What the checker records on a pattern head is part of the check: a
  pattern is accepted with a record `res` when `res` has on each head what the checker
  puts there.

  `HasTy` says which values a type has.
-/
import ChezziLang.Ast.Pattern
import ChezziLang.Checker.Ty

namespace ChezziLang.Checker

open List

/-! ## Tables -/

/-- `Ty::as_enum`. -/
def Ty.asEnum : Ty → Option (String × List Ty)
  | .option t => some ("Option", [t])
  | .result t e => some ("Result", [t, e])
  | .enum k a => some (k, a)
  | _ => none

/-- `scrutinee_enum`. -/
def Ty.enumKey (ty : Ty) : Option String := ty.asEnum.map Prod.fst

/-- `private_name`: no source can spell it. -/
def privateName (name : String) : String := "$" ++ name

/-- `carrier_variant_of_key`. -/
def carrierVariantOfKey (tag : CarrierTag) (key : String) : Option String :=
  match key, tag with
  | "Option", .present => some "Some"
  | "Result", .present => some "Ok"
  | "Result", .error => some "Err"
  | _, _ => none

/-- `carrier_tag_of_variant`. -/
def carrierTagOfVariant (variant : String) : Option CarrierTag :=
  [CarrierTag.present, CarrierTag.error].find? fun tag =>
    ["Option", "Result"].any fun key => carrierVariantOfKey tag key == some variant

/-- What the pattern checker reads of a module's tables. -/
structure Tables where
  /-- The variant an `import V from Enum` (or the prelude) binds a name to. -/
  importedVariants : String → Option (String × String)
  /-- Is the name a variant of some enum in scope? -/
  variantOwners : String → Bool
  isConstDecl : String → Bool
  /-- The variants of an enum at its type arguments, with their payloads. -/
  variants : String → List Ty → Option (List (String × List Ty))
  /-- The field types of a user struct at its type arguments. -/
  structFields : String → List Ty → Option (List Ty)
  /-- `resolve_struct_ctor` is `Ok`. -/
  structCtor : String → String → Option String → Option String → Bool
  /-- A qualified head `module.Enum.name` names a variant of the enum `scrut`. -/
  qualifies : Option String → String → String → Option String → Bool
  joinTy : Ty → Ty → Bool
  variants_nodup : ∀ {k a vs}, variants k a = some vs → (vs.map Prod.fst).Nodup
  structFields_name : ∀ a, structFields "" a = none
  /-- The prelude binds the carriers' variants under their private names. -/
  carrier_imported : ∀ {tag key v}, carrierVariantOfKey tag key = some v →
    importedVariants (privateName v) = some (key, v)
  /-- Of the carriers' variants, `Option` has `Some` and `Result` has `Ok` and `Err`. -/
  carrier_members : ∀ {key a vs n tys tag}, key = "Option" ∨ key = "Result" →
    variants key a = some vs → (n, tys) ∈ vs → carrierTagOfVariant n = some tag →
    carrierVariantOfKey tag key = some n

/-- The tables of a module that declares nothing: those of the prelude. -/
def Tables.prelude : Tables where
  importedVariants
    | "None" => some ("Option", "None")
    | "$None" => some ("Option", "None")
    | "$Some" => some ("Option", "Some")
    | "$Ok" => some ("Result", "Ok")
    | "$Err" => some ("Result", "Err")
    | _ => none
  variantOwners _ := false
  isConstDecl _ := false
  variants
    | "Option", [a] => some [("Some", [a]), ("None", [])]
    | "Result", [a, e] => some [("Ok", [a]), ("Err", [e])]
    | _, _ => none
  structFields _ _ := none
  structCtor _ _ _ _ := false
  qualifies _ _ _ _ := false
  joinTy := compatible
  variants_nodup := by
    intro k a vs h
    split at h
    · cases h; simp
    · cases h; simp
    · cases h
  structFields_name _ := rfl
  carrier_imported := by
    intro tag key v h
    unfold carrierVariantOfKey at h
    split at h
    · cases h; rfl
    · cases h; rfl
    · cases h; rfl
    · cases h
  carrier_members := by
    intro key a vs n tys tag hkey hv hm ht
    have hsome : carrierTagOfVariant "Some" = some .present := by decide
    have hnone : carrierTagOfVariant "None" = none := by decide
    have hok : carrierTagOfVariant "Ok" = some .present := by decide
    have herr : carrierTagOfVariant "Err" = some .error := by decide
    split at hv
    · cases hv
      simp only [mem_cons, Prod.mk.injEq, not_mem_nil, or_false] at hm
      obtain ⟨rfl, -⟩ | ⟨rfl, -⟩ := hm
      · cases hsome.symm.trans ht; rfl
      · cases hnone.symm.trans ht
    · cases hv
      simp only [mem_cons, Prod.mk.injEq, not_mem_nil, or_false] at hm
      obtain ⟨rfl, -⟩ | ⟨rfl, -⟩ := hm
      · cases hok.symm.trans ht; rfl
      · cases herr.symm.trans ht; rfl
    · cases hv

/-- What a bare, payload-free name in a pattern is. -/
inductive BareName where
  | imported (key variant : String)
  | variant
  | const
  | binder
  deriving DecidableEq, Repr

def BareName.isVariant : BareName → Bool
  | .imported _ _ => true
  | .variant => true
  | _ => false

namespace Tables

section

variable (t : Tables)

/-- `bare_pattern_name`. -/
def bareName (name : String) : BareName :=
  match t.importedVariants name with
  | some (key, variant) => .imported key variant
  | none =>
    if t.variantOwners name then .variant
    else if t.isConstDecl name then .const
    else .binder

/-- `variants_of`. -/
def variantsOf (ty : Ty) : Option (List (String × List Ty)) :=
  ty.asEnum.bind fun e => t.variants e.1 e.2

/-- `struct_fields_of`. -/
def structFieldsOf : Ty → Option (List Ty)
  | .struct name targs => t.structFields name targs
  | _ => none

/-- `pattern_variant_name`: the variant a head `name` names in the enum `ekey`. -/
def patternVariantName (bare : Bool) (name : String) (ekey : Option String) :
    Option String :=
  match (t.importedVariants name).filter fun _ => bare with
  | some (key, variant) => if ekey = some key then some variant else none
  | none => if bare && !t.variantOwners name then none else some name

/-- `check_pattern_qualifier` reports nothing. -/
def qualifierOk (moduleName enumName : Option String) (name : String)
    (scrut : Option String) : Bool :=
  match enumName with
  | some en => t.qualifies moduleName en name scrut
  | none => moduleName.isSome || (t.importedVariants name).isSome || !t.variantOwners name

end

end Tables

/-- `carrier_variant`. -/
def carrierVariant (tag : CarrierTag) (ty : Ty) : Option (String × String) :=
  match ty with
  | .option _ => (carrierVariantOfKey tag "Option").map fun v => ("Option", v)
  | .result _ _ => (carrierVariantOfKey tag "Result").map fun v => ("Result", v)
  | _ => none

/-- `lit_pattern_ty(lit) == ty`. -/
def litFits : LitPattern → Ty → Bool
  | .int _, .int => true
  | .float _, .float => true
  | .str _, .str => true
  | .bool _, .bool => true
  | _, _ => false

def Ty.isInt : Ty → Bool
  | .int => true
  | _ => false

/-- `reject_empty_range` reports nothing. -/
def rangeOk (start stop : Int) (inclusive : Bool) : Bool :=
  if inclusive then !decide (start > stop) else !decide (start ≥ stop)

/-! ## Nested patterns -/

/-- The outcome of checking a pattern: no error, irrefutable, the names declared. -/
structure Bound where
  ok : Bool
  irref : Bool
  names : List (String × Ty)

namespace Bound

def rejected : Bound := ⟨false, false, []⟩

/-- Binds nothing and matches everything. -/
def blank : Bound := ⟨true, true, []⟩

def both (a b : Bound) : Bound := ⟨a.ok && b.ok, a.irref && b.irref, a.names ++ b.names⟩

end Bound

section
variable (t : Tables) (res : Resolutions)

/-- `bind_pattern_name`. -/
def bindPatternName (id : NodeId) (name : String) (ty : Ty) : Bound :=
  match t.bareName name with
  | .const => .rejected
  | _ => ⟨res id == some .patBinding, true, [(name, ty)]⟩

/-- A nested bare name: a nullary imported variant of the slot's type, or a binding. -/
def bindIdent (name : String) (id : NodeId) (ty : Ty) : Bound :=
  match t.bareName name with
  | .imported key variant =>
    match (t.variantsOf ty).bind (fun vmap => vmap.lookup variant) with
    | some payload =>
      if ty.enumKey = some key then
        ⟨payload.isEmpty && res id == some (.variant key variant), false, []⟩
      else if !ty.isUnknown then .rejected
      else unknownSlot key variant
    | none => if !ty.isUnknown then .rejected else unknownSlot key variant
  | .variant => .rejected
  | .const => .rejected
  | .binder => bindPatternName t res id name ty
where
  /-- Over an un-inferable slot a nullary variant is tested, another name binds. -/
  unknownSlot (key variant : String) : Bound :=
    match (t.variants key []).bind (fun vmap => vmap.lookup variant) with
    | some [] => ⟨res id == some (.variant key variant), false, []⟩
    | _ => bindPatternName t res id name ty

/-- A variant-headed nested pattern of `n` sub-patterns, which `sub` checks against
    the slots they take. -/
def bindVariant (name : String) (id : NodeId) (enumName moduleName : Option String) (n : Nat)
    (sub : List Ty → Bound) (ty : Ty) : Bound :=
  match t.structFieldsOf ty, ty with
  | some fields, .struct sname _ =>
    if t.structCtor sname name enumName moduleName then
      let b := sub fields
      ⟨b.ok && fields.length == n && res id == some (.patStruct sname),
        fields.length == n && b.irref, b.names⟩
    else .rejected
  | _, _ =>
    if !t.qualifierOk moduleName enumName name ty.enumKey then .rejected
    else
      match t.variantsOf ty, ty.enumKey,
        t.patternVariantName (enumName.isNone && moduleName.isNone) name ty.enumKey with
      | some vmap, some key, some variant =>
        match vmap.lookup variant with
        | some payload =>
          let b := sub payload
          ⟨b.ok && payload.length == n && res id == some (.variant key variant),
            vmap.length == 1 && b.irref, b.names⟩
        | none => .rejected
      | _, _, _ => .rejected

/-- Do two alternatives bind the same names, at types that join? -/
def sameBinders (first other : List (String × Ty)) : Bool :=
  first.all (fun b => (other.map Prod.fst).contains b.1) &&
    other.all (fun b => (first.map Prod.fst).contains b.1) &&
    first.all fun b =>
      match other.lookup b.1 with
      | some rt => t.joinTy b.2 rt || t.joinTy rt b.2
      | none => true

/-- `enforce_or_consistency` over the checked alternatives; irrefutable if any is. -/
def enforceOr (alts : List Bound) : Bound :=
  match alts with
  | [] => ⟨true, false, []⟩
  | first :: others =>
    ⟨alts.all Bound.ok && others.all (fun b => sameBinders t first.names b.names),
      alts.any Bound.irref, first.names⟩

mutual

/-- `bind_subpattern`, in `Match` mode. -/
def bindSubpattern : Pattern → Ty → Bound
  | .wildcard, _ => .blank
  | .ident name id, ty => bindIdent t res name id ty
  | .or alts, ty => enforceOr t (bindAlternatives alts ty)
  | .carrier tag inner id, ty =>
    match carrierVariant tag ty with
    | some (_, variant) =>
      bindVariant t res (privateName variant) id none none 1
        (fun tys =>
          match tys with
          | [] => .blank
          | slot :: _ => bindSubpattern inner slot)
        ty
    | none => .rejected
  | .literal lit, ty => ⟨ty.isUnknown || litFits lit ty.scalar, false, []⟩
  | .range start stop inclusive, ty =>
    ⟨rangeOk start stop inclusive && (ty.isUnknown || ty.scalar.isInt), false, []⟩
  | .tuple subs, ty =>
    match ty with
    | .tuple tys =>
      let b := bindAll subs tys
      ⟨tys.length == subs.length && b.ok, b.irref, b.names⟩
    | _ => .rejected
  | .variant name id bindings enumName moduleName, ty =>
    bindVariant t res name id enumName moduleName bindings.length
      (fun tys => bindAll bindings tys) ty

/-- Sub-patterns against their slots, as far as both go. -/
def bindAll : List Pattern → List Ty → Bound
  | p :: ps, ty :: tys => (bindSubpattern p ty).both (bindAll ps tys)
  | [], _ => .blank
  | _ :: _, [] => .blank

/-- `bind_or_alternatives`, before the alternatives are compared. -/
def bindAlternatives : List Pattern → Ty → List Bound
  | [], _ => []
  | p :: ps, ty => bindSubpattern p ty :: bindAlternatives ps ty

end

/-! ## Arms -/

/-- What a `match` is over.  An un-inferable scrutinee has no kind here. -/
inductive MatchKind where
  | variants (label : String) (variants : List (String × List Ty)) (scrut : Ty)
  | literal (ty : Ty)
  | tuple (tys : List Ty)
  | struct (label : String) (fields targs : List Ty)

def MatchKind.scrutTy : MatchKind → Ty
  | .variants _ _ scrut => scrut
  | .literal ty => ty
  | .tuple tys => .tuple tys
  | .struct label _ targs => .struct label targs

/-- `match_kind` of a scrutinee of type `sty`; `none`: it cannot be matched on. -/
def matchKind (sty : Ty) : Option MatchKind :=
  match sty.enumKey with
  | some key => some (.variants key ((t.variantsOf sty).getD []) sty)
  | none =>
    match sty with
    | .int => some (.literal .int)
    | .float => some (.literal .float)
    | .str => some (.literal .str)
    | .bool => some (.literal .bool)
    | .tuple tys => some (.tuple tys)
    | .struct name targs => (t.structFieldsOf sty).map fun fields => .struct name fields targs
    | _ => none

/-- A key of `covered`: a variant or struct name, or a literal. -/
inductive CoverKey where
  | name (s : String)
  | lit (l : LitPattern)
  deriving DecidableEq, Repr

/-- Keyed by `==`: `-0.0` and `0.0` are one value. -/
def litKey : LitPattern → CoverKey
  | .float bits => .lit (.float (if F64.isZero bits then 0 else bits))
  | l => .lit l

/-- `first_duplicate_binder` finds none: the names bound, unless one is bound twice. -/
def mergeBinders (seen names : List String) : Option (List String) :=
  names.foldlM (fun seen n => if seen.contains n then none else some (n :: seen)) seen

mutual

def uniqueBinders (seen : List String) : Pattern → Option (List String)
  | .ident name _ =>
    match t.bareName name with
    | .binder => mergeBinders seen [name]
    | _ => some seen
  | .variant _ _ bindings _ _ => uniqueBindersAll seen bindings
  | .tuple subs => uniqueBindersAll seen subs
  | .or alts => (uniqueBindersAlts alts).bind fun names => mergeBinders seen names.dedup
  | .carrier _ inner _ => uniqueBinders seen inner
  | .literal _ => some seen
  | .range _ _ _ => some seen
  | .wildcard => some seen

def uniqueBindersAll (seen : List String) : List Pattern → Option (List String)
  | [] => some seen
  | p :: ps => (uniqueBinders seen p).bind fun seen => uniqueBindersAll seen ps

/-- Each alternative on its own. -/
def uniqueBindersAlts : List Pattern → Option (List String)
  | [] => some []
  | p :: ps =>
    (uniqueBinders [] p).bind fun names => (uniqueBindersAlts ps).map fun rest => names ++ rest

end

section
variable (kind : MatchKind) (guarded : Bool)

/-- A variant-headed arm of `n` sub-patterns. -/
def bindArmHead (name : String) (id : NodeId) (enumName moduleName : Option String) (n : Nat)
    (sub : List Ty → Bound) (covered : List CoverKey) : Bound × List CoverKey :=
  let bare := enumName.isNone && moduleName.isNone
  let isVariant := (t.bareName name).isVariant
  match kind with
  | .variants label variants scrut =>
    if bare && n == 0 && !isVariant then (bindPatternName t res id name scrut, covered)
    else if !t.qualifierOk moduleName enumName name (some label) then (.rejected, covered)
    else
      match (t.patternVariantName bare name (some label)).bind
          (fun v => (variants.lookup v).map fun payload => (v, payload)) with
      | some (v, payload) =>
        let b := sub payload
        (⟨b.ok && payload.length == n && res id == some (.variant label v) &&
            !covered.contains (.name v), false, b.names⟩,
          if !guarded && b.irref then .name v :: covered else covered)
      | none => (.rejected, covered)
  | .literal ty =>
    if n == 0 && enumName.isNone && !isVariant then (bindPatternName t res id name ty, covered)
    else (.rejected, covered)
  | .tuple tys =>
    if bare && n == 0 && !isVariant then (bindPatternName t res id name (.tuple tys), covered)
    else (.rejected, covered)
  | .struct label fields targs =>
    if t.structCtor label name enumName moduleName then
      let b := sub fields
      let irref := fields.length == n && b.irref
      (⟨b.ok && fields.length == n && res id == some (.patStruct label) &&
          !covered.contains (.name label), irref, b.names⟩,
        if !guarded && irref then .name label :: covered else covered)
    else if bare && n == 0 && !isVariant then
      (bindPatternName t res id name (.struct label targs), covered)
    else (.rejected, covered)

mutual

/-- `bind_match_arm`.  A bare `Ident` at the top of an arm (the parser makes one of
    `(x)`) is an internal error of the checker, so it is not accepted. -/
def bindMatchArm (covered : List CoverKey) : Pattern → Bound × List CoverKey
  | .wildcard => (.blank, covered)
  | .carrier tag inner id =>
    match carrierVariant tag kind.scrutTy with
    | some (_, variant) =>
      let r := bindArmHead t res kind guarded (privateName variant) id none none 1
        (fun tys =>
          match tys with
          | [] => .blank
          | slot :: _ => bindSubpattern t res inner slot)
        covered
      ({ r.1 with ok := r.1.ok && (uniqueBinders t [] inner).isSome }, r.2)
    | none => (.rejected, covered)
  | .or alts =>
    let r := bindArmAlts covered alts
    (enforceOr t r.1, r.2)
  | .ident _ _ => (.rejected, covered)
  | .tuple subs =>
    let b := bindSubpattern t res (.tuple subs) kind.scrutTy
    ({ b with ok := b.ok && (uniqueBinders t [] (.tuple subs)).isSome }, covered)
  | .literal lit =>
    match kind with
    | .literal ty =>
      (⟨litFits lit ty && !covered.contains (litKey lit), false, []⟩,
        if !guarded then litKey lit :: covered else covered)
    | _ => (.rejected, covered)
  | .range start stop inclusive =>
    match kind with
    | .literal ty => (⟨rangeOk start stop inclusive && ty.isInt, false, []⟩, covered)
    | _ => (.rejected, covered)
  | .variant name id bindings enumName moduleName =>
    let r := bindArmHead t res kind guarded name id enumName moduleName bindings.length
      (fun tys => bindAll t res bindings tys) covered
    ({ r.1 with ok := r.1.ok && (uniqueBindersAll t [] bindings).isSome }, r.2)

/-- The alternatives of an arm, each from what the ones before it cover. -/
def bindArmAlts (covered : List CoverKey) : List Pattern → List Bound × List CoverKey
  | [] => ([], covered)
  | p :: ps =>
    let r := bindMatchArm covered p
    let rest := bindArmAlts r.2 ps
    (r.1 :: rest.1, rest.2)

end

end

end

/-! ## Values of a type -/

/-- No pattern looks into a value of this type. -/
def Tables.Sealed (t : Tables) : Ty → Prop
  | .tuple _ => False
  | .bool => False
  | .int => False
  | .float => False
  | .str => False
  | .width _ => False
  | .struct name targs => t.structFields name targs = none
  | ty => t.variantsOf ty = none

/-- The values of a type. -/
inductive HasTy (t : Tables) : Value → Ty → Prop where
  | bool (b : Bool) : HasTy t (.bool b) .bool
  | int {ty : Ty} (n : Int) (h : ty.scalar = .int) : HasTy t (.int n) ty
  | float {ty : Ty} (a : BitVec 64) (h : ty.scalar = .float) : HasTy t (.float a) ty
  | str (s : String) : HasTy t (.str s) .str
  | tuple {vs : List Value} {tys : List Ty} (h : Forall₂ (HasTy t) vs tys) :
      HasTy t (.tuple vs) (.tuple tys)
  | struct {name : String} {targs fields : List Ty} {vs : List Value}
      (hf : t.structFields name targs = some fields) (h : Forall₂ (HasTy t) vs fields) :
      HasTy t (.struct name vs) (.struct name targs)
  | enum {ty : Ty} {key variant : String} {vmap : List (String × List Ty)} {tys : List Ty}
      {vs : List Value} (hk : ty.enumKey = some key) (hv : t.variantsOf ty = some vmap)
      (hm : (variant, tys) ∈ vmap) (h : Forall₂ (HasTy t) vs tys) :
      HasTy t (.enum key variant vs) ty
  | sealed {ty : Ty} (v : Value) (h : t.Sealed ty) : HasTy t v ty

end ChezziLang.Checker
