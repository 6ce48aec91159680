/-
  `json.encode` and `json.decode[T]`: the walk from a value to its tree (`json_of`), the
  descriptor the checker builds for a target type (`from_ty`), and the coercion of a parsed
  tree along the descriptor (`coerce_json`).

  A value is the finite tree it holds.  A struct is tagged with its identity key; the tables
  of field names and field widths a program carries are read off the declared fields, which
  `Shape` gives.  `std.json` is loaded, so every variant of `Json` is there.
  What the machine does with floats, and what a field's default computes, are parameters.
-/
import ChezziLang.Checker.Ty
import ChezziLang.Json.Basic
import ChezziLang.Vm.Content

namespace ChezziLang.Checker

/-- `Ty::width`. -/
def Ty.asWidth : Ty → Option CWidth
  | .width w => some w
  | _ => none

end ChezziLang.Checker

namespace ChezziLang.JsonText

open Lib Checker

/-! ## Values -/

inductive Val where
  | nil
  | bool (b : Bool)
  | int (n : Int64)
  | float (f : BitVec 64)
  | str (s : Text)
  | none
  | some (v : Val)
  | list (items : List Val)
  | tuple (items : List Val)
  | map (entries : List (Val × Val))
  | struct (key : String) (fields : List Val)
  /-- A value of the enum `Json`. -/
  | json (j : Json)
  /-- A value of any other enum that is not `T?` or `T!E`. -/
  | enum (ty : String)
  /-- A value of any other kind, under its `type_name`. -/
  | other (typeName : String)

/-- `type_name`. -/
def Val.typeName : Val → String
  | .nil => "None"
  | .bool _ => "bool"
  | .int _ => "int"
  | .float _ => "float"
  | .str _ => "str"
  | .none => "an optional value (`T?`)"
  | .some _ => "an optional value (`T?`)"
  | .list _ => "List"
  | .tuple _ => "tuple"
  | .map _ => "Map"
  | .struct _ _ => "struct"
  | .json _ => "enum"
  | .enum _ => "enum"
  | .other typeName => typeName

/-- A struct's declared fields, each with its type and its default, by identity key. -/
abbrev Shape (F : Type) := String → Option (List (Text × Ty × Option F))

section

variable {F : Type} (shape : Shape F) (key : String)

/-- The names of a struct's fields, as the program's table of structs has them. -/
def Shape.fieldNames : List Text :=
  ((shape key).getD []).map fun f => f.1

/-- A row of `struct_widths`. -/
def Shape.widths : List (Option CWidth) :=
  ((shape key).getD []).map fun f => f.2.1.asWidth

end

/-! ## Encoding -/

/-- `json_enter`. -/
def jsonEnter (depth : Nat) : Except String Nat :=
  if depth ≥ maxNestDepth then .error "json.encode: exceeded max depth" else .ok (depth + 1)

mutual

/-- `json_of`; `names` are the declared fields of each struct. -/
def jsonOf (names : String → List Text) : Val → Nat → Except String Json
  -- every `Some` is peeled before the value is looked at
  | .some v, depth => jsonOf names v depth
  | .nil, _ => .ok .null
  | .bool b, _ => .ok (.bool b)
  | .int n, _ => .ok (.int n)
  | .float f, _ => .ok (.num f)
  | .str s, _ => .ok (.str s)
  | .list items, depth =>
    match jsonEnter depth with
    | .error e => .error e
    | .ok inner => (jsonItems names items inner).map .arr
  | .tuple items, depth =>
    match jsonEnter depth with
    | .error e => .error e
    | .ok inner => (jsonItems names items inner).map .arr
  | .map entries, depth =>
    match jsonEnter depth with
    | .error e => .error e
    | .ok inner => (jsonEntries names entries inner).map .obj
  | .struct key fields, depth =>
    match jsonEnter depth with
    | .error e => .error e
    | .ok inner => (jsonFields names (names key) fields inner).map .obj
  | .json j, _ => .ok j
  | .none, _ => .ok .null
  | .enum ty, _ => .error ("json.encode: cannot encode enum " ++ ty)
  | .other typeName, _ => .error ("json.encode: cannot encode " ++ typeName)

/-- The loop of `json_arr`. -/
def jsonItems (names : String → List Text) : List Val → Nat → Except String (List Json)
  | [], _ => .ok []
  | v :: vs, depth =>
    match jsonOf names v depth with
    | .error e => .error e
    | .ok j => (jsonItems names vs depth).map (j :: ·)

/-- The loop over a map's entries. -/
def jsonEntries (names : String → List Text) :
    List (Val × Val) → Nat → Except String (List (Text × Json))
  | [], _ => .ok []
  | (.str k, v) :: es, depth =>
    match jsonOf names v depth with
    | .error e => .error e
    | .ok j => (jsonEntries names es depth).map ((k, j) :: ·)
  | (k, _) :: _, _ => .error ("json.encode: object keys must be str, found " ++ k.typeName)

/-- The loop over a struct's fields, beside their names. -/
def jsonFields (names : String → List Text) :
    List Text → List Val → Nat → Except String (List (Text × Json))
  | name :: rest, v :: vs, depth =>
    match jsonOf names v depth with
    | .error e => .error e
    | .ok j => (jsonFields names rest vs depth).map ((name, j) :: ·)
  | _, _, _ => .ok []

end

/-- `encode`. -/
def encode {F : Type} (ft : FloatText) (shape : Shape F) (x : Val) : Except String Text :=
  match jsonOf shape.fieldNames x 0 with
  | .error e => .error e
  | .ok j => stringify ft j

/-! ## Target types -/

/-- `TypeDescriptor`; a field is its name, its descriptor and its default. -/
inductive Desc (F : Type) where
  | int
  | float
  | str
  | bool
  | list (d : Desc F)
  | map (d : Desc F)
  | option (d : Desc F)
  | tuple (ds : List (Desc F))
  | struct (key display : String) (fields : List (Text × Desc F × Option F))

/-- The last part of a key, after the last `::`. -/
def bareDisplay (key : String) : String := (key.splitOn "::").getLast?.getD key

/-- What `from_ty` answers for a type it does not take: a message, or no fuel. -/
inductive Refusal where
  | text (message : String)
  | stuck

/-- `from_ty`: the fuel bounds how deep types nest through struct fields. -/
def fromTy {F : Type} (display : Ty → String) (shape : Shape F) :
    (fuel : Nat) → Ty → (visiting : List String) → Except Refusal (Desc F)
  | 0, _, _ => .error .stuck
  | fuel + 1, ty, visiting =>
    match ty.scalar with
    | .unknown => .error (.text "")
    | .int => .ok .int
    | .float => .ok .float
    | .str => .ok .str
    | .bool => .ok .bool
    | .list t => (fromTy display shape fuel t visiting).map .list
    | .option t => (fromTy display shape fuel t visiting).map .option
    | .tuple ts => (ts.mapM fun t => fromTy display shape fuel t visiting).map .tuple
    | .map .str v => (fromTy display shape fuel v visiting).map .map
    | .map k _ => .error (.text ("decode: map keys must be str, found " ++ display k))
    | .struct name [] =>
      if name ∈ visiting then
        .error (.text ("decode: recursive struct '" ++ bareDisplay name ++
          "' is not decodable; use the Json enum instead"))
      else
        match shape name with
        | none => .error (.text ("decode: '" ++ bareDisplay name ++ "' is not a decodable type"))
        | some fields =>
          (fields.mapM fun f =>
            (fromTy display shape fuel f.2.1 (visiting ++ [name])).map
              fun d => (f.1, d, f.2.2)).map
            (.struct name (bareDisplay name))
    | .struct name args =>
      .error (.text ("decode: cannot decode into generic struct " ++ display (.struct name args)))
    | other => .error (.text ("decode: cannot decode into " ++ display other))

/-- The checker takes `ty` as a target and records `d`. -/
def Accepts {F : Type} (display : Ty → String) (shape : Shape F) (ty : Ty) (d : Desc F) : Prop :=
  ∃ fuel, fromTy display shape fuel ty [] = .ok d

/-! ## Decoding -/

/-- What decoding asks of the machine. -/
structure Machine (F : Type) where
  floats : FloatText
  /-- `n as f64`. -/
  ofInt : Int64 → BitVec 64
  /-- `v as f32` is infinite. -/
  overflows32 : BitVec 64 → Bool
  /-- A float as a message shows it. -/
  display : BitVec 64 → String
  /-- A float in scientific form. -/
  displayExp : BitVec 64 → String
  /-- Running a field's default; the error is its fault. -/
  runDefault : F → Except String Val

inductive DecodeFail where
  | msg (text : String)
  | fault (text : String)

/-- `json_kind`. -/
def Json.kind : Json → String
  | .null => "null"
  | .bool _ => "bool"
  | .int _ => "number"
  | .num _ => "number"
  | .str _ => "string"
  | .arr _ => "array"
  | .obj _ => "object"

/-- The error for a tree of the wrong kind. -/
def mismatch (want : String) (path : String) (j : Json) : DecodeFail :=
  .msg ("decode: expected " ++ want ++ " at " ++ path ++ ", found " ++ j.kind)

section

variable {F : Type}

def widthName : CWidth → String
  | .int8 => "int8"
  | .int16 => "int16"
  | .int32 => "int32"
  | .int64 => "int64"
  | .uint8 => "uint8"
  | .uint16 => "uint16"
  | .uint32 => "uint32"
  | .uint64 => "uint64"
  | .float32 => "float32"

def intRange : CWidth → Option (Int × Int)
  | .int8 => some (-2 ^ 7, 2 ^ 7 - 1)
  | .int16 => some (-2 ^ 15, 2 ^ 15 - 1)
  | .int32 => some (-2 ^ 31, 2 ^ 31 - 1)
  | .int64 => some (-2 ^ 63, 2 ^ 63 - 1)
  | .uint8 => some (0, 2 ^ 8 - 1)
  | .uint16 => some (0, 2 ^ 16 - 1)
  | .uint32 => some (0, 2 ^ 32 - 1)
  | .uint64 => some (0, 2 ^ 64 - 1)
  | .float32 => none

/-- `fits_int` at run time: a `uint64` takes any int as its bit pattern. -/
def fitsInt (w : CWidth) (n : Int64) : Bool :=
  if w = .uint64 then true
  else
    match intRange w with
    | some (lo, hi) => decide (lo ≤ n.toInt ∧ n.toInt ≤ hi)
    | none => true

/-- `fits_f64`. -/
def fitsF64 (m : Machine F) (w : CWidth) (f : BitVec 64) : Bool :=
  decide (w ≠ .float32) || !(!nonFinite f && m.overflows32 f)

def rangeText (w : CWidth) : String :=
  match intRange w with
  | some (lo, hi) => "(" ++ toString lo ++ ".." ++ toString hi ++ ")"
  | none => "(-3.4028234663852886e38..3.4028234663852886e38)"

/-- `check_fits`. -/
def checkFits (m : Machine F) (w : CWidth) (v : Val) : Except String Unit :=
  let fault (shown : String) : Except String Unit :=
    .error ("value " ++ shown ++ " does not fit " ++ widthName w ++ " " ++ rangeText w)
  match v with
  | .int n => if fitsInt w n then .ok () else fault (toString n.toInt)
  | .float f => if fitsF64 m w f then .ok () else fault (m.displayExp f)
  | _ => .ok ()

/-- `field_fits`, of the field at `idx` of a struct with the widths `widths`. -/
def fieldFits (m : Machine F) (widths : List (Option CWidth)) (idx : Nat) (v : Val) :
    Except String Unit :=
  match widths[idx]? with
  | some (some w) => checkFits m w v
  | _ => .ok ()

/-- The loop over a struct's decoded fields. -/
def fieldsFit (m : Machine F) (widths : List (Option CWidth)) (path : String) :
    Nat → List Val → List Text → Except DecodeFail Unit
  | i, v :: vs, name :: names =>
    match fieldFits m widths i v with
    | .error e => .error (.msg ("decode: " ++ e ++ " at " ++ path ++ "." ++ String.ofList name))
    | .ok _ => fieldsFit m widths path (i + 1) vs names
  | _, _, _ => .ok ()

end

section Decode

variable {F : Type} (m : Machine F) (shape : Shape F)

/-- `json_num`. -/
def jsonNum (j : Json) : Option (BitVec 64) :=
  match j with
  | .num f => some f
  | .int n => some (m.ofInt n)
  | _ => none

/-- An int out of a float: the value is whole and in range; the cast saturates. -/
def coerceInt (f : BitVec 64) (path : String) : Except DecodeFail Val :=
  if nonFinite f = true ∨ F64.units f % F64.one ≠ 0 then
    .error (.msg ("decode: expected an integer at " ++ path ++ ", found " ++ m.display f))
  else if F64.units f < -2 ^ 63 * F64.one ∨ F64.units f > 2 ^ 63 * F64.one then
    .error (.msg ("decode: integer " ++ m.display f ++ " at " ++ path ++
      " is out of range for int"))
  else .ok (.int (Int64.ofIntClamp (F64.units f / F64.one)))

/-- The loop over an array's elements, given how one is coerced. -/
def coerceItems (coerce : Json → String → Except DecodeFail Val) :
    List Json → (path : String) → Nat → Except DecodeFail (List Val)
  | [], _, _ => .ok []
  | j :: js, path, i =>
    match coerce j (path ++ "[" ++ toString i ++ "]") with
    | .error e => .error e
    | .ok v => (coerceItems coerce js path (i + 1)).map (v :: ·)

/-- The loop over an object's entries, given how a value is coerced. -/
def coerceEntries (coerce : Json → String → Except DecodeFail Val) :
    List (Text × Json) → (path : String) → Except DecodeFail (List (Val × Val))
  | [], _ => .ok []
  | (k, j) :: es, path =>
    match coerce j (path ++ "." ++ String.ofList k) with
    | .error e => .error e
    | .ok v => (coerceEntries coerce es path).map ((.str k, v) :: ·)

/-- What a field with no entry gets: its default, or `None` for a `T?`. -/
def missing (name : Text) (d : Desc F) (dflt : Option F) (path : String) :
    Except DecodeFail Val :=
  match dflt, d with
  | some t, _ => (m.runDefault t).mapError .fault
  | none, .option _ => .ok .none
  | none, _ => .error (.msg ("decode: missing key '" ++ String.ofList name ++ "' at " ++ path))

mutual

/-- `coerce_json`. -/
def coerceJson : Desc F → Json → (path : String) → Except DecodeFail Val
  | .int, .int n, _ => .ok (.int n)
  | .int, j, path =>
    match jsonNum m j with
    | none => .error (mismatch "int" path j)
    | some f => coerceInt m f path
  | .float, j, path =>
    match jsonNum m j with
    | none => .error (mismatch "float" path j)
    | some f => .ok (.float f)
  | .bool, .bool b, _ => .ok (.bool b)
  | .bool, j, path => .error (mismatch "bool" path j)
  | .str, .str s, _ => .ok (.str s)
  | .str, j, path => .error (mismatch "str" path j)
  | .option _, .null, _ => .ok .none
  | .option d, j, path => (coerceJson d j path).map .some
  | .list d, .arr items, path => (coerceItems (coerceJson d) items path 0).map .list
  | .list _, j, path => .error (mismatch "array" path j)
  | .tuple ds, .arr items, path =>
    if items.length ≠ ds.length then
      .error (.msg ("decode: expected an array of " ++ toString ds.length ++ " elements at " ++
        path ++ ", found " ++ toString items.length))
    else (coerceTuple ds items path 0).map .tuple
  | .tuple _, j, path => .error (mismatch "array" path j)
  | .map d, .obj entries, path => (coerceEntries (coerceJson d) entries path).map .map
  | .map _, j, path => .error (mismatch "object" path j)
  | .struct key _ fields, .obj entries, path =>
    match coerceFields fields entries path with
    | .error e => .error e
    | .ok vs =>
      match fieldsFit m (shape.widths key) path 0 vs (fields.map fun f => f.1) with
      | .error e => .error e
      | .ok _ => .ok (.struct key vs)
  | .struct _ display _, j, path => .error (mismatch ("object for " ++ display) path j)
termination_by structural d => d

/-- The loop over an array's elements and a tuple's types. -/
def coerceTuple : List (Desc F) → List Json → (path : String) → Nat → Except DecodeFail (List Val)
  | d :: ds, j :: js, path, i =>
    match coerceJson d j (path ++ "[" ++ toString i ++ "]") with
    | .error e => .error e
    | .ok v => (coerceTuple ds js path (i + 1)).map (v :: ·)
  | _, _, _, _ => .ok []
termination_by structural ds => ds

/-- The loop over a struct's fields. -/
def coerceFields : List (Text × Desc F × Option F) → List (Text × Json) → (path : String) →
    Except DecodeFail (List Val)
  | [], _, _ => .ok []
  | (name, d, dflt) :: fields, entries, path =>
    match
      (match entries.lookup name with
      | some j => coerceJson d j (path ++ "." ++ String.ofList name)
      | none => missing m name d dflt path) with
    | .error e => .error e
    | .ok v => (coerceFields fields entries path).map (v :: ·)
termination_by structural fields => fields

end

/-- How a call of `decode` ends: `Ok`, `Err`, or a fault. -/
inductive Decoded where
  | ok (v : Val)
  | err (message : String)
  | fault (message : String)
  | stuck

/-- `json.decode[T](s)`: `parse`, then the coercion of what it gives. -/
def decode (d : Desc F) (s : Text) : Decoded :=
  match parse m.floats s with
  | .err message => .err message
  | .fault message => .fault message
  | .stuck => .stuck
  | .ok j _ =>
    match coerceJson m shape d j "$" with
    | .ok v => .ok v
    | .error (.msg text) => .err text
    | .error (.fault text) => .fault text

end Decode

end ChezziLang.JsonText
