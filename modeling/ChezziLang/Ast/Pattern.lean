/-
  Patterns of `match`: the syntax of `ast/mod.rs`, the values they are matched
  against, and what it means to match.

  Whether a name in a pattern is a variant, a struct or a fresh binding is decided by
  the checker, which records it on the pattern head's id; the meaning of a pattern
  takes that record.  `matchPat` is first-match: an or-pattern binds what its first
  matching alternative binds.  `select` is the meaning of a whole `match`.
-/
import Mathlib.Data.BitVec

namespace ChezziLang

/-! ## Syntax -/

/-- `?` and `!` before a pattern. -/
inductive CarrierTag where
  | present
  | error
  deriving DecidableEq, Repr

/-- A float literal is its IEEE 754 bits. -/
inductive LitPattern where
  | int (n : Int)
  | float (bits : BitVec 64)
  | str (s : String)
  | bool (b : Bool)
  deriving DecidableEq, Repr

abbrev NodeId := Nat

inductive Pattern where
  | ident (name : String) (id : NodeId)
  | variant (name : String) (id : NodeId) (bindings : List Pattern)
      (enumName moduleName : Option String)
  | tuple (subs : List Pattern)
  | literal (lit : LitPattern)
  | range (start stop : Int) (inclusive : Bool)
  | wildcard
  | or (alts : List Pattern)
  | carrier (tag : CarrierTag) (inner : Pattern) (id : NodeId)
  deriving Repr

/-- Induction over a pattern, with the hypothesis for every sub-pattern. -/
@[elab_as_elim]
theorem Pattern.induction {P : Pattern → Prop} (ident : ∀ name id, P (.ident name id))
    (variant : ∀ name id bindings enumName moduleName, (∀ p ∈ bindings, P p) →
      P (.variant name id bindings enumName moduleName))
    (tuple : ∀ subs, (∀ p ∈ subs, P p) → P (.tuple subs)) (literal : ∀ lit, P (.literal lit))
    (range : ∀ start stop inclusive, P (.range start stop inclusive)) (wildcard : P .wildcard)
    (or : ∀ alts, (∀ p ∈ alts, P p) → P (.or alts))
    (carrier : ∀ tag inner id, P inner → P (.carrier tag inner id)) (p) : P p :=
  @Pattern.rec P (fun ps => ∀ p ∈ ps, P p) ident
    (fun name id bindings enumName moduleName ih => variant name id bindings enumName moduleName ih)
    tuple literal range wildcard or carrier
    (fun _ h => absurd h List.not_mem_nil)
    (fun _ _ ih ihs q hq => (List.mem_cons.mp hq).elim (fun h => h ▸ ih) (ihs q)) p

/-- What the checker records on a pattern head. -/
inductive Resolution where
  | variant (enumKey variant : String)
  | patStruct (key : String)
  | patBinding
  deriving DecidableEq, Repr

abbrev Resolutions := NodeId → Option Resolution

/-! ## Values -/

/-- A value as far as a pattern can look into it.  `other` is every value that no
    pattern takes apart. -/
inductive Value where
  | int (n : Int)
  | float (bits : BitVec 64)
  | str (s : String)
  | bool (b : Bool)
  | enum (key variant : String) (payload : List Value)
  | tuple (elems : List Value)
  | struct (key : String) (fields : List Value)
  | other (n : Nat)
  deriving Repr

namespace F64

def isNan (a : BitVec 64) : Bool := (a &&& 0x7fffffffffffffff).toNat > 0x7ff0000000000000

def isZero (a : BitVec 64) : Bool := (a &&& 0x7fffffffffffffff).toNat == 0

/-- `==` of two `f64`s. -/
def eq (a b : BitVec 64) : Bool :=
  !isNan a && !isNan b && (a == b || (isZero a && isZero b))

end F64

/-- `Op::Eq` of a value and a literal. -/
def LitPattern.eq : LitPattern → Value → Bool
  | .int n, .int m => m == n
  | .float a, .float b => F64.eq b a
  | .str s, .str t => t == s
  | .bool b, .bool c => c == b
  | _, _ => false

/-- The payload of a value of variant `variant` of the enum `key`. -/
def Value.payload (key variant : String) : Value → Option (List Value)
  | .enum k w ps => if k = key ∧ w = variant then some ps else none
  | _ => none

def Value.elems : Value → Option (List Value)
  | .tuple vs => some vs
  | _ => none

def Value.fields (key : String) : Value → Option (List Value)
  | .struct k fs => if k = key then some fs else none
  | _ => none

/-! ## Matching -/

abbrev Bindings := List (String × Value)

/-- `start <= v < end`, or `v <= end`. -/
def inRange (start stop : Int) (inclusive : Bool) : Value → Bool
  | .int n => decide (start ≤ n) && (if inclusive then decide (n ≤ stop) else decide (n < stop))
  | _ => false

mutual

/-- The names a pattern binds when it matches the value. -/
def matchPat (res : Resolutions) : Pattern → Value → Option Bindings
  | .wildcard, _ => some []
  | .ident name id, v =>
    match res id with
    | some (.variant key variant) => (v.payload key variant).map fun _ => []
    | some .patBinding => some [(name, v)]
    | _ => none
  | .literal lit, v => if lit.eq v then some [] else none
  | .range start stop inclusive, v => if inRange start stop inclusive v then some [] else none
  | .tuple subs, v => v.elems.bind fun vs => matchAll res subs vs
  | .variant name id bindings _ _, v =>
    match res id with
    | some (.variant key variant) => (v.payload key variant).bind fun ps => matchAll res bindings ps
    | some (.patStruct key) => (v.fields key).bind fun fs => matchAll res bindings fs
    | some .patBinding => some [(name, v)]
    | none => none
  | .carrier _ inner id, v =>
    match res id with
    | some (.variant key variant) =>
      match v.payload key variant with
      | some [p] => matchPat res inner p
      | _ => none
    | _ => none
  | .or alts, v => matchFirst res alts v

def matchAll (res : Resolutions) : List Pattern → List Value → Option Bindings
  | [], [] => some []
  | p :: ps, v :: vs =>
    (matchPat res p v).bind fun b => (matchAll res ps vs).map fun bs => b ++ bs
  | _, _ => none

/-- The first alternative that matches. -/
def matchFirst (res : Resolutions) : List Pattern → Value → Option Bindings
  | [], _ => none
  | p :: ps, v => (matchPat res p v).or (matchFirst res ps v)

end

/-- An arm of a `match`; the guard is an expression over the names in scope. -/
structure Arm (G : Type) where
  pattern : Pattern
  guard : Option G

/-- The meaning of a `match`: the first arm whose pattern matches and whose guard
    holds of what it binds, with its index. -/
def select {G : Type} (res : Resolutions) (holds : G → Bindings → Bool) (v : Value) :
    List (Arm G) → Option (Nat × Bindings)
  | [] => none
  | arm :: arms =>
    let rest := (select res holds v arms).map fun r => (r.1 + 1, r.2)
    match matchPat res arm.pattern v with
    | none => rest
    | some bs =>
      match arm.guard with
      | none => some (0, bs)
      | some g => if holds g bs then some (0, bs) else rest

/-- Some unguarded arm that matches is enough for a `match` to run an arm. -/
theorem select_isSome {G} {res : Resolutions} {holds} {v : Value} {arms} {arm : Arm G}
    (hmem : arm ∈ arms) (hg : arm.guard = none) (hm : (matchPat res arm.pattern v).isSome) :
    (select res holds v arms).isSome := by
  induction arms with
  | nil => cases hmem
  | cons a arms ih =>
    have hrest : arm ∈ arms → ((select res holds v arms).map fun r => (r.1 + 1, r.2)).isSome :=
      fun h => by rw [Option.isSome_map]; exact ih h
    rw [select]
    rcases List.mem_cons.mp hmem with rfl | h
    · obtain ⟨bs, hbs⟩ := Option.isSome_iff_exists.mp hm
      simp only [hbs, hg, Option.isSome_some]
    split
    · exact hrest h
    split
    · rfl
    · split
      · rfl
      · exact hrest h

end ChezziLang
