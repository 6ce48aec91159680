/-
  Encoding a value and decoding the text as the value's type.

  An encoded `T?` carries no trace of its `Some`: the type alone puts it back.  So a value
  comes back as `collapse` of it, where a `Some` around a `None` is a `None`.

  Proved:
  * `fromTy_built`: what an accepted target type looks like.
  * `encodes`: a value of an accepted type encodes, and its tree decodes to `collapse`.
  * `decode_encode`: the round trip never faults and is never an `Err`; it gives an equal
    value exactly when no `Some` directly around a `None` is in it.
-/
import ChezziLang.Json.Decode
import ChezziLang.Json.RoundTrip
import ChezziLang.Lib.Roster

namespace ChezziLang.JsonText

open Lib Checker Function List

/-! ## Values of a type -/

section Typing

variable {F : Type} (m : Machine F) (shape : Shape F)

/-- No struct declares a field twice. -/
def Shape.Distinct {F : Type} (shape : Shape F) : Prop :=
  ∀ key decl, shape key = some decl → (decl.map fun f => f.1).Nodup

/-- A value in a field of type `t` fits the field's width. -/
def FitsWidth (t : Ty) (v : Val) : Prop := ∀ w, t.asWidth = some w → checkFits m w v = .ok ()

mutual

/-- `v` is a value of type `t`.  No map has a key twice, and a struct's fields fit their
    widths: every write checks them. -/
def HasTy : Val → Ty → Prop
  | .int _, .int => True
  | .int _, .width w => w.scalar = .int
  | .float _, .float => True
  | .float _, .width w => w.scalar = .float
  | .bool _, .bool => True
  | .str _, .str => True
  | .none, .option _ => True
  | .some v, .option t => HasTy v t
  | .list items, .list t => HasTyItems items t
  | .tuple items, .tuple ts => HasTyTuple items ts
  | .map entries, .map k v => (entries.map Prod.fst).Nodup ∧ HasTyEntries entries k v
  | .struct key fields, .struct name [] =>
    key = name ∧
      match shape name with
      | none => False
      | some decl => HasTyFields fields decl
  | _, _ => False
termination_by structural v => v

def HasTyItems : List Val → Ty → Prop
  | [], _ => True
  | v :: vs, t => HasTy v t ∧ HasTyItems vs t
termination_by structural vs => vs

def HasTyTuple : List Val → List Ty → Prop
  | [], [] => True
  | v :: vs, t :: ts => HasTy v t ∧ HasTyTuple vs ts
  | _, _ => False
termination_by structural vs => vs

def HasTyEntries : List (Val × Val) → Ty → Ty → Prop
  | [], _, _ => True
  | (k, v) :: es, kt, vt => HasTy k kt ∧ HasTy v vt ∧ HasTyEntries es kt vt
termination_by structural es => es

def HasTyFields : List Val → List (Text × Ty × Option F) → Prop
  | [], [] => True
  | v :: vs, (_, t, _) :: fs => HasTy v t ∧ FitsWidth m t v ∧ HasTyFields vs fs
  | _, _ => False
termination_by structural vs => vs

end

attribute [local simp] HasTy coerceJson

end Typing

namespace Val

mutual

/-- `p` holds of the value and of every value in it. -/
def every (p : Val → Bool) : Val → Bool
  | .some v => p (.some v) && every p v
  | .list items => p (.list items) && everyItems p items
  | .tuple items => p (.tuple items) && everyItems p items
  | .map entries => p (.map entries) && everyEntries p entries
  | .struct key fields => p (.struct key fields) && everyItems p fields
  | v => p v
termination_by structural v => v

def everyItems (p : Val → Bool) : List Val → Bool
  | [] => true
  | v :: vs => every p v && everyItems p vs
termination_by structural vs => vs

def everyEntries (p : Val → Bool) : List (Val × Val) → Bool
  | [] => true
  | (k, v) :: es => every p k && every p v && everyEntries p es
termination_by structural es => es

end

/-- Not an infinite float or a NaN. -/
def notInfinite : Val → Bool
  | .float f => !nonFinite f
  | _ => true

/-- Every float in the value is finite. -/
def finite (v : Val) : Bool := v.every notInfinite

/-- Not a `Some` directly around a `None`. -/
def notSomeNone : Val → Bool
  | .some .none => false
  | _ => true

/-- No `Some` in the value is directly around a `None`. -/
def noSomeNone (v : Val) : Bool := v.every notSomeNone

mutual

/-- How deep the brackets of the encoded value nest. -/
def brackets : Val → Nat
  | .some v => brackets v
  | .list items => bracketsItems items + 1
  | .tuple items => bracketsItems items + 1
  | .map entries => bracketsEntries entries + 1
  | .struct _ fields => bracketsItems fields + 1
  | _ => 0
termination_by structural v => v

def bracketsItems : List Val → Nat
  | [] => 0
  | v :: vs => max (brackets v) (bracketsItems vs)
termination_by structural vs => vs

def bracketsEntries : List (Val × Val) → Nat
  | [] => 0
  | (_, v) :: es => max (brackets v) (bracketsEntries es)
termination_by structural es => es

end

/-- `Some(v)`, where a `None` stays a `None`. -/
def wrap : Val → Val
  | .none => .none
  | v => .some v

mutual

/-- The value with every `Some` around a `None` dropped. -/
def collapse : Val → Val
  | .some v => wrap (collapse v)
  | .list items => .list (collapseItems items)
  | .tuple items => .tuple (collapseItems items)
  | .map entries => .map (collapseEntries entries)
  | .struct key fields => .struct key (collapseItems fields)
  | v => v
termination_by structural v => v

def collapseItems : List Val → List Val
  | [] => []
  | v :: vs => collapse v :: collapseItems vs
termination_by structural vs => vs

def collapseEntries : List (Val × Val) → List (Val × Val)
  | [] => []
  | (k, v) :: es => (k, collapse v) :: collapseEntries es
termination_by structural es => es

end

end Val

/-! ## Contents -/

/-- A `str` as its bytes. -/
def utf8 (s : Text) : List UInt8 := (String.ofList s).toByteArray.data.toList

theorem utf8_inj {s t} : utf8 s = utf8 t ↔ s = t := by
  constructor
  · intro h
    apply String.ofList_injective
    apply String.toByteArray_inj.mp
    apply ByteArray.ext
    exact Array.toList_inj.mp h
  · intro h
    rw [h]

section Content

/- The type id of a struct, and the contents of the kinds of value no target type has. -/
variable (tid : String → Nat) (rest : Val → Vm.Tree)

mutual

/-- What a value holds, as the walks of `==` see it.  The variants of `T?` have the ids 2
    and 3.  No finite float is compared by its box. -/
def content : Val → Vm.Tree
  | .nil => .leaf .nil
  | .bool b => .leaf (.bool b)
  | .int n => .leaf (.num (.int n))
  | .float f => .leaf (.num (.float 0 f))
  | .str s => .leaf (.str (utf8 s))
  | .none => .node (.enum 3) []
  | .some v => .node (.enum 2) [content v]
  | .list items => .node .list (contentItems items)
  | .tuple items => .node .tuple (contentItems items)
  | .map entries => .map (contentEntries entries)
  | .struct key fields => .node (.struct (tid key)) (contentItems fields)
  | v => rest v
termination_by structural v => v

def contentItems : List Val → List Vm.Tree
  | [] => []
  | v :: vs => content v :: contentItems vs
termination_by structural vs => vs

def contentEntries : List (Val × Val) → List (Vm.Tree × Vm.Tree)
  | [] => []
  | (k, v) :: es => (content k, content v) :: contentEntries es
termination_by structural es => es

end

/-- `a` and `b` are equal values. -/
def Equal (a b : Val) : Prop := (content tid rest a).Same (content tid rest b)

instance (a b : Val) : Decidable (Equal tid rest a b) :=
  inferInstanceAs (Decidable (Vm.Tree.Same _ _))

end Content

/-! ## Accepted types -/

section

variable {F : Type} {display : Ty → String} {shape : Shape F}

/-- A `mapM` that succeeds did at every element. -/
theorem forall₂_of_mapM {α β E : Type} {f : α → Except E β} {xs} {ys : List β}
    (h : xs.mapM f = .ok ys) : Forall₂ (fun x y => f x = .ok y) xs ys := by
  induction xs generalizing ys with
  | nil =>
    rw [mapM_nil] at h
    cases h
    exact .nil
  | cons x xs ih =>
    rw [mapM_cons] at h
    cases hx : f x <;> rw [hx] at h
    case error e => cases h
    cases hxs : xs.mapM f <;> rw [hxs] at h <;> cases h
    exact .cons hx (ih hxs)

variable (display shape) (fuel : Nat) (visiting : List String) in
/-- How `from_ty` builds a descriptor from those of the parts. -/
inductive Built : Ty → Desc F → Prop where
  | int {ty} (h : ty.scalar = .int) : Built ty .int
  | float {ty} (h : ty.scalar = .float) : Built ty .float
  | str : Built .str .str
  | bool : Built .bool .bool
  | list {t d} (h : fromTy display shape fuel t visiting = .ok d) : Built (.list t) (.list d)
  | option {t d} (h : fromTy display shape fuel t visiting = .ok d) : Built (.option t) (.option d)
  | tuple {ts ds} (h : Forall₂ (fun t d => fromTy display shape fuel t visiting = .ok d) ts ds) :
      Built (.tuple ts) (.tuple ds)
  | map {v d} (h : fromTy display shape fuel v visiting = .ok d) : Built (.map .str v) (.map d)
  | struct {name shown decl fields} (hshape : shape name = some decl)
      (h : Forall₂ (fun f e => e.1 = f.1 ∧
        fromTy display shape fuel f.2.1 (visiting ++ [name]) = .ok e.2.1) decl fields) :
      Built (.struct name []) (.struct name shown fields)

theorem map_eq_ok {α β E : Type} {f} {r : Except E α} {b : β} (h : r.map f = .ok b) :
    ∃ a, r = .ok a ∧ f a = b := by
  cases r with
  | error e => cases h
  | ok a =>
    cases h
    exact ⟨a, rfl, rfl⟩

/-- Only a width has another scalar. -/
theorem eq_of_scalar {ty t : Ty} (h : ty.scalar = t) (hint : t ≠ .int) (hfloat : t ≠ .float) :
    ty = t := by
  cases ty with
  | width w =>
    rcases w.scalar_cases with hw | hw
    · exact absurd (h.symm.trans hw) hint
    · exact absurd (h.symm.trans hw) hfloat
  | _ => exact h

theorem fromTy_built {fuel : Nat} {ty : Ty} {visiting : List String} {d : Desc F}
    (h : fromTy display shape (fuel + 1) ty visiting = .ok d) :
    Built display shape fuel visiting ty d := by
  rw [fromTy] at h
  split at h
  case h_2 hty | h_3 hty =>
    cases h
    constructor
    exact hty
  case h_4 hty | h_5 hty =>
    cases h
    rw [eq_of_scalar hty (by simp) (by simp)]
    constructor
  case h_6 t hty | h_7 t hty | h_9 t hty =>
    obtain ⟨d', hd, rfl⟩ := map_eq_ok h
    rw [eq_of_scalar hty (by simp) (by simp)]
    constructor
    exact hd
  case h_8 ts hty =>
    obtain ⟨ds, hds, rfl⟩ := map_eq_ok h
    rw [eq_of_scalar hty (by simp) (by simp)]
    exact .tuple (forall₂_of_mapM hds)
  case h_11 name hty =>
    rw [eq_of_scalar hty (by simp) (by simp)]
    split at h
    · cases h
    split at h
    · cases h
    next decl hshape =>
    obtain ⟨fields, hfields, rfl⟩ := map_eq_ok h
    refine .struct hshape ((forall₂_of_mapM hfields).imp fun f e hfe => ?_)
    obtain ⟨d', hd, rfl⟩ := map_eq_ok hfe
    exact ⟨rfl, hd⟩
  all_goals cases h

end

/-! ## What a tree carries -/

section

variable {F : Type} (m : Machine F) (shape : Shape F) (tid : String → Nat) (rest : Val → Vm.Tree)

/-- `j` is a tree of `x`, and decodes at `d` to `collapse` of it. -/
structure Carries (d : Desc F) (x : Val) (j : Json) : Prop where
  valid : Valid j
  nest : nesting j ≤ x.brackets
  null : j = .null ↔ x.collapse = .none
  decodes : ∀ path, coerceJson m shape d j path = .ok x.collapse
  kept : Equal tid rest x.collapse x ↔ x.noSomeNone = true

/-- `x` encodes within `depth` brackets to a tree that carries it. -/
def Encodes (d : Desc F) (x : Val) : Prop :=
  ∀ depth, depth + x.brackets ≤ maxNestDepth →
    ∃ j, jsonOf shape.fieldNames x depth = .ok j ∧ Carries m shape tid rest d x j

/-- `Carries`, position by position. -/
inductive AllCarry : List (Desc F) → List Val → List Json → Prop where
  | nil : AllCarry [] [] []
  | cons {d ds v vs j js} (head : Carries m shape tid rest d v j) (tail : AllCarry ds vs js) :
      AllCarry (d :: ds) (v :: vs) (j :: js)

variable {m shape tid rest} {depth : Nat}

variable {vs : List Val} {kvs : List (Text × Val)} {js : List Json}

variable {ds : List (Desc F)} {d : Desc F} {decl : List (Text × Ty × Option F)}

theorem jsonItems_carry (h : Forall₂ (Encodes m shape tid rest) ds vs)
    (hdepth : depth + Val.bracketsItems vs ≤ maxNestDepth) :
    ∃ js, jsonItems shape.fieldNames vs depth = .ok js ∧ AllCarry m shape tid rest ds vs js := by
  induction h with
  | nil => exact ⟨[], rfl, .nil⟩
  | cons hv _ ih =>
    rw [Val.bracketsItems] at hdepth
    obtain ⟨j, hj, hcarry⟩ := hv depth (by omega)
    obtain ⟨js, hjs, hrest⟩ := ih (by omega)
    refine ⟨j :: js, ?_, .cons hcarry hrest⟩
    rw [jsonItems, hj, hjs]
    rfl

/-- The same one bracket further down. -/
theorem jsonEnter_carry (h : Forall₂ (Encodes m shape tid rest) ds vs)
    (hdepth : depth + (Val.bracketsItems vs + 1) ≤ maxNestDepth) :
    jsonEnter depth = .ok (depth + 1) ∧ ∃ js, jsonItems shape.fieldNames vs (depth + 1) = .ok js ∧
      AllCarry m shape tid rest ds vs js :=
  ⟨by rw [jsonEnter, if_neg (by omega)], jsonItems_carry h (by omega)⟩

namespace AllCarry

section

variable (h : AllCarry m shape tid rest ds vs js)
include h

theorem length_eq :
    js.length = ds.length ∧ js.length = vs.length := by
  induction h with
  | nil => exact ⟨rfl, rfl⟩
  | cons _ _ ih => exact ⟨congrArg (· + 1) ih.1, congrArg (· + 1) ih.2⟩

theorem valid : ValidItems js := by
  induction h with
  | nil => trivial
  | cons head _ ih => exact ⟨head.valid, ih⟩

theorem nest : nestingItems js ≤ Val.bracketsItems vs := by
  induction h with
  | nil => exact le_rfl
  | cons head _ ih =>
    have := head.nest
    rw [nestingItems, Val.bracketsItems]
    omega

theorem coerceTuple_eq (path i) :
    coerceTuple m shape ds js path i = .ok (Val.collapseItems vs) := by
  induction h generalizing i with
  | nil => rfl
  | cons head _ ih =>
    rw [coerceTuple, head.decodes]
    rw [ih]
    rfl

theorem kept :
    Forall₂ Vm.Tree.Same (contentItems tid rest (Val.collapseItems vs))
      (contentItems tid rest vs) ↔
      Val.everyItems Val.notSomeNone vs = true := by
  induction h with
  | nil => exact ⟨fun _ => rfl, fun _ => .nil⟩
  | cons head _ ih =>
    rw [Val.collapseItems, contentItems, contentItems, forall₂_cons, ih, Val.everyItems,
      Bool.and_eq_true]
    exact and_congr_left fun _ => head.kept

theorem kept_of_mem {v} (hv : v ∈ vs) :
    Equal tid rest v.collapse v ↔ v.noSomeNone = true := by
  induction h with
  | nil => cases hv
  | cons head _ ih =>
    rcases mem_cons.mp hv with rfl | hv
    · exact head.kept
    · exact ih hv

end

end AllCarry

/-! ## Objects -/

theorem validEntries_zip (ks : List Text) (h : ValidItems js) : ValidEntries (ks.zip js) := by
  induction ks generalizing js with
  | nil => trivial
  | cons k ks ih =>
    cases js with
    | nil => trivial
    | cons j js => exact ⟨h.1, ih h.2⟩

theorem nestingEntries_zip (ks : List Text) (js) :
    nestingEntries (ks.zip js) ≤ nestingItems js := by
  induction ks generalizing js with
  | nil => exact Nat.zero_le _
  | cons k ks ih =>
    cases js with
    | nil => exact Nat.zero_le _
    | cons j js =>
      have := ih js
      rw [zip_cons_cons, nestingEntries, nestingItems]
      omega

/-- An object of distinct keys over the trees of some values. -/
theorem AllCarry.obj (h : AllCarry m shape tid rest ds vs js) {ks : List Text} (hks : ks.Nodup)
    (hlen : ks.length = js.length) :
    Valid (.obj (ks.zip js)) ∧ nesting (.obj (ks.zip js)) ≤ Val.bracketsItems vs + 1 := by
  refine ⟨⟨?_, validEntries_zip ks h.valid⟩, ?_⟩
  · rw [map_fst_zip hlen.le]
    exact hks
  have := nestingEntries_zip ks js
  have := h.nest
  rw [nesting]
  omega

/-- An entry of a map whose keys are strs. -/
def strEntry (e : Text × Val) : Val × Val := (.str e.1, e.2)

theorem jsonEntries_eq {names} (h : jsonItems names (kvs.map Prod.snd) depth = .ok js) :
    jsonEntries names (kvs.map strEntry) depth = .ok ((kvs.map Prod.fst).zip js) := by
  induction kvs generalizing js with
  | nil => rfl
  | cons e kvs ih =>
    rw [map_cons, jsonItems] at h
    rw [map_cons, strEntry, jsonEntries]
    cases hj : jsonOf names e.2 depth with
    | error err =>
      rw [hj] at h
      cases h
    | ok j =>
      rw [hj] at h
      obtain ⟨js', hjs, rfl⟩ := map_eq_ok h
      rw [ih hjs]
      rfl

theorem coerceEntries_eq (h : AllCarry m shape tid rest (kvs.map fun _ => d) (kvs.map Prod.snd) js)
    (path) : coerceEntries (coerceJson m shape d) ((kvs.map Prod.fst).zip js) path =
      .ok (Val.collapseEntries (kvs.map strEntry)) := by
  induction kvs generalizing js with
  | nil => rfl
  | cons e kvs ih =>
    cases h with
    | cons head tail =>
      rw [map_cons, zip_cons_cons, coerceEntries, head.decodes]
      rw [ih tail]
      rfl

theorem bracketsEntries_eq (kvs : List (Text × Val)) :
    Val.bracketsEntries (kvs.map strEntry) = Val.bracketsItems (kvs.map Prod.snd) := by
  induction kvs with
  | nil => rfl
  | cons e kvs ih =>
    rw [map_cons, strEntry, Val.bracketsEntries, ih]
    rfl

theorem everyEntries_iff {p} (hp : ∀ s, p (.str s) = true) (kvs : List (Text × Val)) :
    Val.everyEntries p (kvs.map strEntry) = true ↔ ∀ e ∈ kvs, e.2.every p = true := by
  induction kvs with
  | nil => simp [Val.everyEntries]
  | cons e kvs ih => simp [Val.everyEntries, strEntry, Val.every, hp, ih]

theorem contentEntries_collapse (kvs : List (Text × Val)) :
    contentEntries tid rest (Val.collapseEntries (kvs.map strEntry)) =
      kvs.map fun e => (.leaf (.str (utf8 e.1)), content tid rest e.2.collapse) := by
  induction kvs with
  | nil => rfl
  | cons e kvs ih =>
    rw [map_cons, strEntry, Val.collapseEntries, contentEntries, ih]
    rfl

theorem contentEntries_eq (kvs : List (Text × Val)) : contentEntries tid rest (kvs.map strEntry) =
      kvs.map fun e => (.leaf (.str (utf8 e.1)), content tid rest e.2) := by
  induction kvs with
  | nil => rfl
  | cons e kvs ih =>
    rw [map_cons, strEntry, contentEntries, ih]
    rfl

/-- The keys of a map are its own, so an entry can only be matched by itself. -/
theorem map_kept (hkeys : (kvs.map Prod.fst).Nodup)
    (hkept : ∀ e ∈ kvs, Equal tid rest e.2.collapse e.2 ↔ e.2.noSomeNone = true) :
    Equal tid rest (.map (Val.collapseEntries (kvs.map strEntry))) (.map (kvs.map strEntry)) ↔
      Val.noSomeNone (.map (kvs.map strEntry)) = true := by
  have hevery : Val.noSomeNone (.map (kvs.map strEntry)) = true ↔
      ∀ e ∈ kvs, e.2.noSomeNone = true := by
    rw [Val.noSomeNone, Val.every, Bool.and_eq_true, everyEntries_iff (fun _ => rfl)]
    exact ⟨fun h => h.2, fun h => ⟨rfl, h⟩⟩
  rw [hevery, Equal, content, content, contentEntries_collapse, contentEntries_eq, Vm.Tree.same_map]
  constructor
  · rintro ⟨ys, heq, -, hcover⟩ e he
    cases heq
    obtain ⟨y, hy, hkey, hval⟩ := hcover _ (mem_map_of_mem he)
    obtain ⟨f, hf, rfl⟩ := mem_map.mp hy
    obtain ⟨b, hb, hnorm⟩ := Vm.Tree.same_leaf.mp hkey
    cases hb
    have hfst : e.1 = f.1 := by
      simpa [Vm.Leaf.norm, utf8_inj] using hnorm
    have hef : e = f := inj_on_of_nodup_map hkeys he hf hfst
    rw [← hef] at hval
    exact (hkept e he).mp hval
  · intro h
    refine ⟨_, rfl, by simp, fun x hx => ?_⟩
    obtain ⟨e, he, rfl⟩ := mem_map.mp hx
    exact ⟨_, mem_map_of_mem he, Vm.Tree.same_refl _, (hkept e he).mpr (h e he)⟩

/-! ## Structs -/

theorem jsonFields_eq {names} {ks : List Text} (hlen : ks.length = vs.length)
    (h : jsonItems names vs depth = .ok js) : jsonFields names ks vs depth = .ok (ks.zip js) := by
  induction ks generalizing vs js with
  | nil =>
    rw [jsonFields]
    · rfl
    · simp
  | cons k ks ih =>
    cases vs with
    | nil => cases hlen
    | cons v vs =>
      rw [jsonItems] at h
      rw [jsonFields]
      cases hj : jsonOf names v depth with
      | error err =>
        rw [hj] at h
        cases h
      | ok j =>
        rw [hj] at h
        obtain ⟨js', hjs, rfl⟩ := map_eq_ok h
        rw [ih (Nat.succ.inj hlen) hjs]
        rfl

theorem coerceFields_eq {fields} (h : AllCarry m shape tid rest (fields.map fun f => f.2.1) vs js)
    {whole} (hfind : ∀ e ∈ (fields.map fun f => f.1).zip js, whole.lookup e.1 = some e.2) (path) :
    coerceFields m shape fields whole path = .ok (Val.collapseItems vs) := by
  induction fields generalizing vs js with
  | nil =>
    cases h
    rfl
  | cons f fields ih =>
    cases h with
    | cons head tail =>
      have hhere := hfind _ mem_cons_self
      rw [coerceFields, hhere]
      dsimp only
      rw [head.decodes]
      rw [ih tail (forall_mem_cons.mp hfind).2]
      rfl

theorem fieldsFit_ok {widths path i}
    (h : ∀ k v, vs[k]? = some v → fieldFits m widths (i + k) v = .ok ()) (names) :
    fieldsFit m widths path i vs names = .ok () := by
  induction vs generalizing i names with
  | nil =>
    rw [fieldsFit]
    simp
  | cons v vs ih =>
    cases names with
    | nil =>
      rw [fieldsFit]
      simp
    | cons name names =>
      have hhere := h 0 v rfl
      rw [Nat.add_zero] at hhere
      rw [fieldsFit, hhere]
      refine ih (fun k w hk => ?_) names
      have hnext := h (k + 1) w hk
      rwa [← Nat.add_assoc, Nat.add_right_comm] at hnext

theorem hasTy_width {v w} (h : HasTy m shape v (.width w)) : v.collapse = v := by
  cases v with
  | int n | float f => rfl
  | _ => exact h.elim

theorem fieldFits_collapse (h : HasTyFields m shape vs decl) :
    ∀ k v, (Val.collapseItems vs)[k]? = some v →
      fieldFits m (decl.map fun f => f.2.1.asWidth) k v = .ok () := by
  induction decl generalizing vs with
  | nil =>
    intro k v _
    rfl
  | cons f decl ih =>
    cases vs with
    | nil => exact h.elim
    | cons u vs =>
      obtain ⟨hty, hfits, hrest⟩ := h
      intro k v hk
      cases k with
      | succ k => exact ih hrest k v hk
      | zero =>
        cases hk
        obtain ⟨name, t, dflt⟩ := f
        cases t with
        | width w =>
          rw [hasTy_width hty]
          exact hfits w rfl
        | _ => rfl

/-! ## One case per kind of type -/

theorem same_node_iff {s xs ys} :
    (Vm.Tree.node s xs).Same (.node s ys) ↔ Forall₂ Vm.Tree.Same xs ys := by
  rw [Vm.Tree.same_node]
  constructor
  · rintro ⟨zs, heq, h⟩
    cases heq
    exact h
  · intro h
    exact ⟨ys, rfl, h⟩

/-- A value that is its own tree. -/
theorem encodes_scalar {x j} (hj : ∀ depth, jsonOf shape.fieldNames x depth = .ok j)
    (hvalid : Valid j) (hnest : nesting j ≤ x.brackets) (hnull : j = .null ↔ x = .none)
    (hcollapse : x.collapse = x) (hdecodes : ∀ path, coerceJson m shape d j path = .ok x)
    (hkept : x.noSomeNone = true) : Encodes m shape tid rest d x := by
  refine fun depth _ => ⟨j, hj depth, hvalid, hnest, ?_, ?_, ?_⟩
  · rw [hcollapse]
    exact hnull
  · rw [hcollapse]
    exact hdecodes
  · rw [hcollapse]
    exact ⟨fun _ => hkept, fun _ => Vm.Tree.same_refl _⟩

theorem wrap_of_ne {v : Val} (h : v ≠ .none) : v.wrap = .some v := by
  cases v with
  | none => exact absurd rfl h
  | _ => rfl

/-- A value that collapses to `None` is one, or has a `Some` around one. -/
theorem eq_none_of_collapse : ∀ v : Val, v.collapse = .none → v.noSomeNone = true → v = .none
  | .none, _, _ => rfl
  | .some v, h, hkept => by
    rw [Val.noSomeNone, Val.every, Bool.and_eq_true] at hkept
    rw [Val.collapse] at h
    have hv : v.collapse = .none := by
      by_contra hne
      rw [wrap_of_ne hne] at h
      cases h
    rw [eq_none_of_collapse v hv hkept.2] at hkept
    cases hkept.1

theorem encodes_some {v : Val} (h : Encodes m shape tid rest d v) :
    Encodes m shape tid rest (.option d) (.some v) := by
  intro depth hdepth
  obtain ⟨j, hj, hc⟩ := h depth hdepth
  by_cases hnone : v.collapse = .none
  · have hwrap : (Val.some v).collapse = .none := by
      rw [Val.collapse, hnone]
      rfl
    refine ⟨j, hj, hc.valid, hc.nest, ?_, ?_, ?_⟩
    · rw [hwrap, hc.null, hnone]
    · intro path
      rw [hwrap, hc.null.mpr hnone]
      rfl
    -- a dropped `Some` leaves a `None`, which is equal to no `Some`
    rw [hwrap]
    refine ⟨fun h => ?_, fun h => ?_⟩
    · obtain ⟨ys, heq, -⟩ := Vm.Tree.same_node.mp h
      cases heq
    · rw [Val.noSomeNone, Val.every, Bool.and_eq_true] at h
      rw [eq_none_of_collapse v hnone h.2] at h
      cases h.1
  · have hwrap : (Val.some v).collapse = .some v.collapse := wrap_of_ne hnone
    have hnull : j ≠ .null := fun h => hnone (hc.null.mp h)
    refine ⟨j, hj, hc.valid, hc.nest, ?_, ?_, ?_⟩
    · rw [hwrap]
      exact ⟨fun h => absurd h hnull, nofun⟩
    · intro path
      rw [hwrap, coerceJson, hc.decodes]
      · rfl
      · exact hnull
    have hv : Val.notSomeNone (.some v) = true := by
      cases v with
      | none => exact absurd rfl hnone
      | _ => rfl
    rw [hwrap, Equal, content, content, same_node_iff, forall₂_cons, Val.noSomeNone,
      Val.every, hv, Bool.true_and]
    exact ⟨fun h => hc.kept.mp h.1, fun h => ⟨hc.kept.mpr h, .nil⟩⟩

theorem coerceItems_eq (h : AllCarry m shape tid rest (vs.map fun _ => d) vs js) (path i) :
    coerceItems (coerceJson m shape d) js path i = .ok (Val.collapseItems vs) := by
  induction vs generalizing js i with
  | nil =>
    cases h
    rfl
  | cons v vs ih =>
    cases h with
    | cons head tail =>
      rw [coerceItems, head.decodes]
      rw [ih tail]
      rfl

/-- One descriptor for all of them. -/
theorem forall₂_const (h : ∀ v ∈ vs, Encodes m shape tid rest d v) :
    Forall₂ (Encodes m shape tid rest) (vs.map fun _ => d) vs := by
  rw [forall₂_map_left_iff, forall₂_same]
  exact h

theorem encodes_list (h : ∀ v ∈ vs, Encodes m shape tid rest d v) :
    Encodes m shape tid rest (.list d) (.list vs) := by
  intro depth hdepth
  rw [Val.brackets] at hdepth
  obtain ⟨henter, js, hjs, hall⟩ := jsonEnter_carry (forall₂_const h) hdepth
  refine ⟨.arr js, ?_, hall.valid, Nat.succ_le_succ hall.nest, by simp [Val.collapse], ?_, ?_⟩
  · rw [jsonOf, henter]
    dsimp only
    rw [hjs]
    rfl
  · intro path
    rw [coerceJson, coerceItems_eq hall]
    rfl
  · rw [Val.collapse, Equal, content, content, same_node_iff, hall.kept, Val.noSomeNone, Val.every]
    rfl

theorem encodes_tuple (h : Forall₂ (Encodes m shape tid rest) ds vs) :
    Encodes m shape tid rest (.tuple ds) (.tuple vs) := by
  intro depth hdepth
  rw [Val.brackets] at hdepth
  obtain ⟨henter, js, hjs, hall⟩ := jsonEnter_carry h hdepth
  refine ⟨.arr js, ?_, hall.valid, Nat.succ_le_succ hall.nest, by simp [Val.collapse], ?_, ?_⟩
  · rw [jsonOf, henter]
    dsimp only
    rw [hjs]
    rfl
  · intro path
    rw [coerceJson, if_neg (not_not.mpr hall.length_eq.1), hall.coerceTuple_eq]
    rfl
  · rw [Val.collapse, Equal, content, content, same_node_iff, hall.kept, Val.noSomeNone, Val.every]
    rfl

theorem encodes_map (hkeys : (kvs.map Prod.fst).Nodup)
    (h : ∀ e ∈ kvs, Encodes m shape tid rest d e.2) :
    Encodes m shape tid rest (.map d) (.map (kvs.map strEntry)) := by
  intro depth hdepth
  rw [Val.brackets, bracketsEntries_eq] at hdepth
  have hvals : Forall₂ (Encodes m shape tid rest) (kvs.map fun _ => d)
      (kvs.map Prod.snd) := by
    rw [forall₂_map_left_iff, forall₂_map_right_iff, forall₂_same]
    exact h
  obtain ⟨henter, js, hjs, hall⟩ := jsonEnter_carry hvals hdepth
  have hlen : (kvs.map Prod.fst).length = js.length := by
    rw [hall.length_eq.2, length_map, length_map]
  obtain ⟨hvalid, hnest⟩ := hall.obj hkeys hlen
  refine ⟨.obj ((kvs.map Prod.fst).zip js), ?_, hvalid, ?_, by simp [Val.collapse], ?_, ?_⟩
  · rw [jsonOf, henter]
    dsimp only
    rw [jsonEntries_eq hjs]
    rfl
  · rw [Val.brackets, bracketsEntries_eq]
    exact hnest
  · intro path
    rw [coerceJson, coerceEntries_eq hall]
    rfl
  · rw [Val.collapse]
    exact map_kept hkeys fun e he => hall.kept_of_mem (mem_map_of_mem he)

theorem encodes_struct {name shown : String} {fields} (hshape : shape name = some decl)
    (hnames : (fields.map fun f => f.1) = decl.map fun f => f.1)
    (hdistinct : (decl.map fun f => f.1).Nodup) (hty : HasTyFields m shape vs decl)
    (h : Forall₂ (Encodes m shape tid rest) (fields.map fun f => f.2.1) vs) :
    Encodes m shape tid rest (.struct name shown fields) (.struct name vs) := by
  intro depth hdepth
  rw [Val.brackets] at hdepth
  obtain ⟨henter, js, hjs, hall⟩ := jsonEnter_carry h hdepth
  have hfields : shape.fieldNames name = fields.map fun f => f.1 := by
    rw [Shape.fieldNames, hshape, hnames]
    rfl
  have hlen : (fields.map fun f => f.1).length = js.length := by
    rw [hall.length_eq.1, length_map, length_map]
  rw [← hnames] at hdistinct
  obtain ⟨hvalid, hnest⟩ := hall.obj hdistinct hlen
  refine ⟨.obj ((fields.map fun f => f.1).zip js), ?_, hvalid, hnest, by simp [Val.collapse],
    ?_, ?_⟩
  · rw [jsonOf, henter, hfields]
    dsimp only
    rw [jsonFields_eq (hlen.trans hall.length_eq.2) hjs]
    rfl
  · intro path
    have hkeys : (((fields.map fun f => f.1).zip js).map Prod.fst).Nodup := hvalid.1
    have hwidths : shape.widths name = decl.map fun f => f.2.1.asWidth := by
      rw [Shape.widths, hshape]
      rfl
    have hfit : fieldsFit m (shape.widths name) path 0 (Val.collapseItems vs)
        (fields.map fun f => f.1) = .ok () := by
      refine fieldsFit_ok (fun k v hk => ?_) _
      rw [hwidths, Nat.zero_add]
      exact fieldFits_collapse hty k v hk
    rw [coerceJson, coerceFields_eq hall (fun e he => (Roster.lookup_iff_mem hkeys).mpr he)]
    dsimp only
    rw [hfit]
    rfl
  · rw [Val.collapse, Equal, content, content, same_node_iff, hall.kept, Val.noSomeNone, Val.every]
    rfl

/-! ## Every value of an accepted type -/

theorem exists_int {x ty} (h : HasTy m shape x ty) (hty : ty.scalar = .int) : ∃ n, x = .int n := by
  rw [HasTy.eq_def] at h
  split at h <;> simp_all [Ty.scalar]

theorem exists_float {x ty} (h : HasTy m shape x ty) (hty : ty.scalar = .float) :
    ∃ f, x = .float f := by
  rw [HasTy.eq_def] at h
  split at h <;> simp_all [Ty.scalar]

theorem hasTyItems_mem {t} (h : HasTyItems m shape vs t) : ∀ v ∈ vs, HasTy m shape v t := by
  induction vs with
  | nil => simp
  | cons v vs ih => exact forall_mem_cons.mpr ⟨h.1, ih h.2⟩

theorem hasTyTuple_forall₂ {ts} (h : HasTyTuple m shape vs ts) : Forall₂ (HasTy m shape) vs ts := by
  induction vs generalizing ts with
  | nil =>
    cases ts
    · exact .nil
    · exact h.elim
  | cons v vs ih =>
    cases ts
    · exact h.elim
    · exact .cons h.1 (ih h.2)

theorem hasTyFields_forall₂ (h : HasTyFields m shape vs decl) :
    Forall₂ (fun v f => HasTy m shape v f.2.1) vs decl := by
  induction vs generalizing decl with
  | nil =>
    cases decl
    · exact .nil
    · exact h.elim
  | cons v vs ih =>
    cases decl
    · exact h.elim
    · exact .cons h.1 (ih h.2.2)

theorem everyItems_mem {p} (h : Val.everyItems p vs = true) : ∀ v ∈ vs, v.every p = true := by
  induction vs with
  | nil => simp
  | cons v vs ih =>
    rw [Val.everyItems, Bool.and_eq_true] at h
    exact forall_mem_cons.mpr ⟨h.1, ih h.2⟩

/-- The entries of a map whose keys are strs. -/
theorem exists_strEntries {es v} (h : HasTyEntries m shape es .str v) :
    ∃ kvs : List (Text × Val), es = kvs.map strEntry ∧ ∀ e ∈ kvs, HasTy m shape e.2 v := by
  induction es with
  | nil => exact ⟨[], rfl, by simp⟩
  | cons e es ih =>
    obtain ⟨hk, hv, hrest⟩ := h
    obtain ⟨kvs, rfl, hkvs⟩ := ih hrest
    obtain ⟨k, u⟩ := e
    cases k with
    | str k => exact ⟨(k, u) :: kvs, rfl, forall_mem_cons.mpr ⟨hv, hkvs⟩⟩
    | _ => exact hk.elim

/-- What holds of a value and its type holds along the parts of a tuple or a struct. -/
theorem forall₂_encodes {α : Type} {P} {Q : Val → α → Prop} {ts} (hds : Forall₂ P ts ds)
    (hvs : Forall₂ Q vs ts) (h : ∀ t d, ∀ v ∈ vs, P t d → Q v t → Encodes m shape tid rest d v) :
    Forall₂ (Encodes m shape tid rest) ds vs := by
  induction hds generalizing vs with
  | nil =>
    cases hvs
    exact .nil
  | cons hd _ ih =>
    cases hvs with
    | cons hv hvs =>
      refine .cons (h _ _ _ mem_cons_self hd hv) (ih hvs fun t d v hmem => ?_)
      exact h t d v (.tail _ hmem)

theorem map_eq_of_forall₂ {α β γ : Type} {f} {g : β → γ} {as : List α} {bs : List β}
    (h : Forall₂ (fun a b => g b = f a) as bs) : bs.map g = as.map f := by
  induction h with
  | nil => rfl
  | cons hab _ ih => rw [map_cons, map_cons, hab, ih]

/-- **A value of an accepted type encodes, and its tree carries it.** -/
theorem encodes {display} (hshape : shape.Distinct) :
    ∀ (fuel : Nat) (ty : Ty) (visiting : List String) (d : Desc F) (x : Val),
      fromTy display shape fuel ty visiting = .ok d → HasTy m shape x ty → x.finite = true →
      Encodes m shape tid rest d x := by
  intro fuel
  induction fuel with
  | zero =>
    intro ty visiting d x h
    cases h
  | succ fuel ih =>
    intro ty visiting d x h hx hfin
    have hitems : ∀ {vs : List Val}, Val.everyItems Val.notInfinite vs = true →
        ∀ t d visiting, ∀ v ∈ vs, fromTy display shape fuel t visiting = .ok d →
          HasTy m shape v t → Encodes m shape tid rest d v :=
      fun hvs t d visiting v hv hd hty => ih t visiting d v hd hty (everyItems_mem hvs v hv)
    cases fromTy_built h with
    | int hty =>
      obtain ⟨n, rfl⟩ := exists_int hx hty
      exact encodes_scalar (fun _ => rfl) trivial le_rfl (by simp) rfl (fun _ => rfl) rfl
    | float hty =>
      obtain ⟨f, rfl⟩ := exists_float hx hty
      have hf : nonFinite f = false := by
        simpa [Val.finite, Val.every, Val.notInfinite] using hfin
      exact encodes_scalar (fun _ => rfl) hf le_rfl (by simp) rfl (fun _ => rfl) rfl
    | str =>
      cases x with
      | str s =>
        exact encodes_scalar (fun _ => rfl) trivial le_rfl (by simp) rfl
          (fun _ => rfl) rfl
      | _ => exact hx.elim
    | bool =>
      cases x with
      | bool b =>
        exact encodes_scalar (fun _ => rfl) trivial le_rfl (by simp) rfl
          (fun _ => rfl) rfl
      | _ => exact hx.elim
    | @list t d hd =>
      cases x with
      | list vs =>
        exact encodes_list fun v hv => hitems hfin t d visiting v hv hd (hasTyItems_mem hx v hv)
      | _ => exact hx.elim
    | option hd =>
      cases x with
      | none =>
        exact encodes_scalar (fun _ => rfl) trivial le_rfl (by simp) rfl
          (fun _ => rfl) rfl
      | some v => exact encodes_some (ih _ visiting _ v hd hx hfin)
      | _ => exact hx.elim
    | tuple hds =>
      cases x with
      | tuple vs =>
        refine encodes_tuple (forall₂_encodes hds (hasTyTuple_forall₂ hx) ?_)
        exact fun t d v hv hd hty => hitems hfin t d visiting v hv hd hty
      | _ => exact hx.elim
    | map hd =>
      cases x with
      | map es =>
        obtain ⟨hkeys, hes⟩ := hx
        obtain ⟨kvs, rfl, hkvs⟩ := exists_strEntries hes
        have hnodup : (kvs.map Prod.fst).Nodup := by
          rw [map_map] at hkeys
          exact Nodup.of_map Val.str (by simpa [comp_def, strEntry] using hkeys)
        have hvals : ∀ e ∈ kvs, e.2.finite = true := (everyEntries_iff (fun _ => rfl) kvs).mp hfin
        exact encodes_map hnodup fun e he => ih _ visiting _ e.2 hd (hkvs e he) (hvals e he)
      | _ => exact hx.elim
    | @struct name shown decl fields hdecl hfields =>
      cases x with
      | struct key vs =>
        obtain ⟨rfl, hty⟩ := hx
        rw [hdecl] at hty
        have hnames : (fields.map fun f => f.1) = decl.map fun f => f.1 :=
          map_eq_of_forall₂ (hfields.imp fun _ _ h => h.1)
        refine encodes_struct hdecl hnames (hshape _ _ hdecl) hty ?_
        have hdescs : Forall₂ (fun f d =>
            fromTy display shape fuel f.2.1 (visiting ++ [key]) = .ok d) decl
            (fields.map fun f => f.2.1) :=
          forall₂_map_right_iff.mpr (hfields.imp fun _ _ h => h.2)
        refine forall₂_encodes hdescs (hasTyFields_forall₂ hty) ?_
        exact fun f d v hv hd hty => hitems hfin f.2.1 d _ v hv hd hty
      | _ => exact hx.elim

end

/-! ## The round trip -/

section

variable {F : Type}

/-- `x` encodes to a text that decodes at `d` to a value equal to `x`. -/
def RoundTrips (m : Machine F) (shape : Shape F) (tid : String → Nat) (rest : Val → Vm.Tree)
    (d : Desc F) (x : Val) : Prop :=
  ∃ s y, encode m.floats shape x = .ok s ∧ decode m shape d s = .ok y ∧ Equal tid rest y x

/-- **Encoding a value and decoding it as its type never faults and is never an `Err`.  What
    comes back is equal to the value exactly when no `Some` in it is directly around a
    `None`.** -/
theorem decode_encode (m : Machine F) (hfloats : m.floats.Faithful) (display : Ty → String)
    (shape : Shape F) (hshape : shape.Distinct) (tid : String → Nat) (rest : Val → Vm.Tree)
    (ty : Ty) (d : Desc F) (haccepts : Accepts display shape ty d) (x : Val)
    (hx : HasTy m shape x ty) (hfinite : x.finite = true) (hdepth : x.brackets ≤ maxNestDepth) :
    (∃ s y, encode m.floats shape x = .ok s ∧ decode m shape d s = .ok y) ∧
      (RoundTrips m shape tid rest d x ↔ x.noSomeNone = true) := by
  obtain ⟨fuel, hd⟩ := haccepts
  have henc : Encodes m shape tid rest d x := encodes hshape fuel ty [] d x hd hx hfinite
  obtain ⟨j, hj, hc⟩ := henc 0 (by omega)
  have hnest : nesting j ≤ maxNestDepth := hc.nest.trans hdepth
  obtain ⟨doc, hs, -⟩ := stringifyDepth_reads hfloats j 0 hc.valid (by omega)
  obtain ⟨p, hp⟩ := parse_printed hfloats hc.valid hnest hs
  set s := doc.text
  have hencode : encode m.floats shape x = .ok s := by
    rw [encode, hj]
    exact hs
  have hdecode : decode m shape d s = .ok x.collapse := by
    rw [decode, hp]
    dsimp only
    rw [hc.decodes]
  refine ⟨⟨s, x.collapse, hencode, hdecode⟩, ?_⟩
  rw [← hc.kept]
  constructor
  · rintro ⟨t, y, ht, hy, hequal⟩
    rw [hencode] at ht
    cases ht
    rw [hdecode] at hy
    cases hy
    exact hequal
  · intro hequal
    exact ⟨s, x.collapse, hencode, hdecode, hequal⟩

end

/-- A machine over `wordFloats`. -/
def wordMachine : Machine Unit where
  floats := wordFloats
  ofInt _ := 0
  overflows32 _ := false
  display _ := ""
  displayExp _ := ""
  runDefault _ := .ok .nil

/-- One struct, with an optional field and an `int8`. -/
def pairShape : Shape Unit := fun key =>
  if key = "m::P" then some [(['a'], .option .int, none), (['b'], .width .int8, some ())] else none

theorem pairShape_distinct : pairShape.Distinct := by
  intro key decl h
  rw [pairShape] at h
  split at h
  · cases h
    decide
  · cases h

theorem decode_encode_pair :
    let ty : Ty := .map .str (.list (.struct "m::P" []))
    let d : Desc Unit := .map (.list (.struct "m::P" (bareDisplay "m::P")
      [(['a'], .option .int, none), (['b'], .int, some ())]))
    let x : Val := .map [(.str ['k'], .list [.struct "m::P" [.some (.int 7), .int (-8)],
      .struct "m::P" [.none, .int 127]]), (.str [], .list [])]
    Accepts (fun _ => "") pairShape ty d ∧
      RoundTrips wordMachine pairShape (fun _ => 0) (fun _ => .leaf .nil) d x := by
  intro ty d x
  have haccepts : Accepts (fun _ => "") pairShape ty d := ⟨5, rfl⟩
  refine ⟨haccepts, ?_⟩
  refine (decode_encode wordMachine wordFloats_faithful (fun _ => "") pairShape pairShape_distinct
    _ _ ty d haccepts x ?_ rfl (by decide)).2.mpr rfl
  have hnarrow : ∀ n, fitsInt .int8 n = true → FitsWidth wordMachine (.width .int8) (.int n) := by
    intro n hn w hw
    cases hw
    rw [checkFits, hn]
    rfl
  have hwide : ∀ v, FitsWidth wordMachine (.option .int) v := nofun
  refine ⟨by simp, trivial, ⟨⟨rfl, ?_⟩, ⟨rfl, ?_⟩, trivial⟩, trivial, trivial, trivial⟩
  · exact ⟨trivial, hwide _, rfl, hnarrow _ rfl, trivial⟩
  · exact ⟨trivial, hwide _, rfl, hnarrow _ rfl, trivial⟩

/-- A `Some` around a `None` comes back as a `None`. -/
theorem some_none_comes_back_none :
    let ty : Ty := .option (.option .int)
    let d : Desc Unit := .option (.option .int)
    let x : Val := .some .none
    Accepts (fun _ => "") pairShape ty d ∧ HasTy wordMachine pairShape x ty ∧
      x.finite = true ∧ x.brackets = 0 ∧
      encode wordFloats pairShape x = .ok "null".toList ∧
      decode wordMachine pairShape d "null".toList = .ok .none ∧
      ¬ RoundTrips wordMachine pairShape (fun _ => 0) (fun _ => .leaf .nil) d x := by
  refine ⟨⟨3, rfl⟩, trivial, rfl, rfl, rfl, rfl, ?_⟩
  rintro ⟨s, y, hs, hy, hequal⟩
  cases hs
  cases hy
  revert hequal
  decide

end ChezziLang.JsonText
