/-
  Structural equality of values: `values_equal_guarded` of `vm/equality.rs`.

  `room` counts the levels left: `MAX_STRUCTURAL_DEPTH + 1` less `walk_base + depth`.  A
  declared `eq` hook runs code of the program, which may change the heap; every other pair is
  decided by reading it.

  Proved:
  * `valuesEqualIn_content`: on values without `eq` hooks the walk answers whether their
    contents are equal, and does not fault if one of them fits in the room.
  * `equality_equivalence`: it is an equivalence, and does not see the order in which maps
    and sets were filled.
-/
import ChezziLang.Vm.Content
import ChezziLang.Vm.Quicken

namespace ChezziLang.Vm

open Lib HashIndex Vm.Tree Act Heap

/-! ## Model -/

namespace Machine

/-- `eq_hook_applies`. -/
def eqHookApplies (m : Machine) (H : Heap) (l r : Value) : Bool :=
  if !m.anyEqHook || !m.hookOf H l .eq then false
  else
    match l.asObj, r.asObj with
    | some hl, some hr =>
      match H.obj hl, H.obj hr with
      | .struct a _, .struct b _ => a == b
      | .enum a _, .enum b _ => m.enumName a == m.enumName b
      | _, _ => false
    | _, _ => false

end Machine

/-- A comparison of two values. -/
abbrev Compare := Value → Value → Act Heap RuntimeError Bool

/-- `elem_equal`: `x is y or x == y`. -/
def elemEqual (worker : Compare) : Compare := fun l r =>
  if l = r then Act.pure true else worker l r

section

variable (elem : Compare)

/-- Lists, tuples, fields and payloads. -/
def seqEqual (a b : List Value) : Act Heap RuntimeError Bool :=
  if a.length ≠ b.length then Act.pure false
  else Act.all (fun p => elem p.1 p.2) (a.zip b)

/-- Every entry of `a` has a match in `b`; the cached hashes are not used. -/
def mapEqual (a b : List (MapEntry Value Value)) : Act Heap RuntimeError Bool :=
  if a.length ≠ b.length then Act.pure false
  else
    Act.all (fun e => Act.any (fun f => (elem e.key f.key).andThen fun eq =>
      if eq then elem e.val f.val else Act.pure false) b) a

def setEqual (a b : List (SetEntry Value)) : Act Heap RuntimeError Bool :=
  if a.length ≠ b.length then Act.pure false
  else Act.all (fun x => Act.any (fun y => elem x.elem y.elem) b) a

/-- Two objects in different slots, neither a number. -/
def objEqual : Obj → Obj → Act Heap RuntimeError Bool
  | .str a, .str b => Act.pure (a == b)
  | .bytes a, .bytes b => Act.pure (a == b)
  | .byteArray a, .byteArray b => Act.pure (a == b)
  | .bytes a, .byteArray b => Act.pure (a == b)
  | .byteArray a, .bytes b => Act.pure (a == b)
  | .list a, .list b => seqEqual elem a b
  | .tuple a, .tuple b => seqEqual elem a b
  | .map a, .map b => mapEqual elem a.entries b.entries
  | .set a, .set b => setEqual elem a.entries b.entries
  | .struct ta fa, .struct tb fb => if ta ≠ tb then Act.pure false else seqEqual elem fa fb
  | .enum va pa, .enum vb pb => if va ≠ vb then Act.pure false else seqEqual elem pa pb
  | .builtin a, .builtin b => Act.pure (a == b)
  | .core ka a, .core kb b => Act.pure (ka == kb && a == b)
  | _, _ => Act.pure false

end

/-- The answer of a declared `eq`. -/
def Machine.eqHook (m : Machine) (base : Nat) (l r : Value) (span : Span) :
    Act Heap RuntimeError Bool :=
  (m.invokeHook .eq base l [r] span).andThen fun res => fun H =>
    let v := res.getD .nil
    match v.asBool with
    | some b => (.ok b, H)
    | none => (.error ⟨"eq() must return bool, got " ++ H.typeName v, span⟩, H)

/-- `values_equal_guarded`, by the levels left. -/
def valuesEqualIn (m : Machine) (span : Span) : Nat → Compare
  | 0, _, _ => Act.fail (depthExceededErr span)
  | room + 1, l, r => fun H =>
    match equalNum (H.load l) (H.load r) with
    | some b => (.ok b, H)
    | none =>
      match l, r with
      | .bool a, .bool b => (.ok (a == b), H)
      | .nil, .nil => (.ok true, H)
      | .obj ha, .obj hb =>
        if !m.eqHookOff && m.eqHookApplies H (.obj ha) (.obj hb) then
          -- the hook goes on with the depth this walk has used up
          m.eqHook (maxStructuralDepth - room) (.obj ha) (.obj hb) span H
        else if ha = hb then (.ok true, H)
        else objEqual (elemEqual (valuesEqualIn m span room)) (H.obj ha) (H.obj hb) H
      | _, _ => (.ok false, H)

/-- `values_equal_guarded`. -/
def valuesEqualGuarded (m : Machine) (walkBase : Nat) (l r : Value) (depth : Nat) (span : Span) :
    Act Heap RuntimeError Bool :=
  valuesEqualIn m span (maxStructuralDepth + 1 - (walkBase + depth)) l r

/-! ## Numbers -/

/-- The number a value is. -/
def Heap.num (H : Heap) : Value → Option Num
  | .int n _ => some (.int n)
  | .float box w => some (.float box w)
  | .obj h =>
    match H.obj h with
    | .bigInt n _ => some (.int n)
    | _ => none
  | _ => none

def Num.isNan : Num → Bool
  | .int _ => false
  | .float _ w => F64.isNan w

theorem int_norm_inj {a b} : (Num.int a).norm = (Num.int b).norm ↔ a = b := by
  simp only [Num.norm, Norm.num.injEq]
  constructor
  · intro h
    exact Int64.toInt_inj.mp (Int.eq_of_mul_eq_mul_right (Int.ne_of_gt F64.one_pos) h)
  · rintro rfl
    rfl

variable {box : Handle} {w : BitVec 64}

theorem int_norm_float {a} :
    (Num.int a).norm = (Num.float box w).norm ↔ cmpIntF64 a w = some .eq := by
  rw [cmpIntF64_eq, Num.norm, Num.norm]
  split
  · simp
  · rw [Norm.num.injEq, Option.some.injEq, compare_eq_iff_eq]

theorem float_norm_inj {box' w'} (hw : F64.isNan w = false) :
    (Num.float box w).norm = (Num.float box' w').norm ↔ F64.partialCmp w w' = some .eq := by
  rw [Num.norm, Num.norm, F64.partialCmp, isNan_eq, isNan_eq, hw, Bool.false_or,
    if_neg Bool.false_ne_true]
  split
  · simp
  · rw [Norm.num.injEq, Option.some.injEq, compare_eq_iff_eq, F64.units_inj]

variable {H : Heap} {v l r : Value} {m : Machine} {x : Num}

theorem intVal_load {n} (h : H.num v = some (.int n)) : intVal (H.load v) = some n := by
  revert h
  fun_cases num H v <;> intro h <;> cases h
  · rfl
  · next hobj => simp only [load, hobj, intVal]

theorem num_float (h : H.num v = some (.float box w)) : v = .float box w := by
  revert h
  fun_cases num H v <;> intro h <;> cases h
  rfl

theorem load_float (h : H.num v = some (.float box w)) : H.load v = .float w := by
  rw [num_float h]
  rfl

/-- What is no number is no number to the operators either. -/
theorem load_of_num_none (h : H.num v = none) :
    intVal (H.load v) = none ∧ ∀ w, H.load v ≠ .float w := by
  cases v with
  | obj k =>
    unfold num at h
    unfold load
    dsimp only at h ⊢
    cases hobj : H.obj k with
    | bigInt m wide =>
      rw [hobj] at h
      cases h
    | _ => exact ⟨rfl, nofun⟩
  | bool b | nil => exact ⟨rfl, nofun⟩
  | _ => cases h

/-- **Two numbers are equal when they stand for one number.** -/
theorem equalNum_load {y} (hl : H.num l = some x) (hr : H.num r = some y) :
    equalNum (H.load l) (H.load r) = some (decide (x.norm = y.norm) && !x.isNan) := by
  unfold equalNum
  cases x with
  | int a =>
    rw [intVal_load hl]
    cases y with
    | int b =>
      rw [intVal_load hr]
      simp only [Num.isNan, Bool.not_false, Bool.and_true, int_norm_inj, Option.some.injEq]
      exact beq_eq_decide a b
    | float box w =>
      rw [load_float hr]
      simp only [Num.isNan, Bool.not_false, Bool.and_true, int_norm_float, intVal]
      exact congrArg some (beq_eq_decide ..)
  | float box w =>
    rw [load_float hl]
    cases y with
    | int b =>
      rw [intVal_load hr]
      simp only [Num.isNan, intVal]
      by_cases hw : F64.isNan w
      · simp [cmpIntF64_eq, hw]
      rw [Bool.not_eq_true] at hw
      simp only [hw, Bool.not_false, Bool.and_true, eq_comm (a := (Num.float box w).norm),
        int_norm_float]
      exact congrArg some (beq_eq_decide ..)
    | float box' w' =>
      rw [load_float hr]
      simp only [Num.isNan, intVal]
      by_cases hw : F64.isNan w
      · simp [F64.partialCmp, isNan_eq, hw]
      · rw [Bool.not_eq_true] at hw
        simp only [hw, Bool.not_false, Bool.and_true, float_norm_inj hw]
        exact congrArg some (beq_eq_decide ..)

theorem equalNum_left {O} {a b : Val O} (hint : intVal a = none) (hfloat : ∀ w, a ≠ .float w) :
    equalNum a b = none := by
  unfold equalNum
  rw [hint]
  cases a with
  | float w => exact absurd rfl (hfloat w)
  | _ => cases intVal b <;> rfl

theorem equalNum_right {O} {a b : Val O} (hint : intVal b = none) (hfloat : ∀ w, b ≠ .float w) :
    equalNum a b = none := by
  unfold equalNum
  rw [hint]
  cases b with
  | float w => exact absurd rfl (hfloat w)
  | _ => cases intVal a <;> cases a <;> rfl

theorem equalNum_none (h : H.num l = none ∨ H.num r = none) :
    equalNum (H.load l) (H.load r) = none := by
  rcases h with h | h
  · exact equalNum_left (load_of_num_none h).1 (load_of_num_none h).2
  · exact equalNum_right (load_of_num_none h).1 (load_of_num_none h).2

/-! ## The walk over the contents -/

variable {ts : List Tree} {h : Handle} {n room k : Nat} {t a b : Tree} {span : Span}

section

variable {H : Heap} {elem : Compare} {n k : Nat} {us : List Tree}

/-- `elem` answers whether the contents of its arguments are equal; those on the left are
    among `ts`. -/
def Answers (H : Heap) (elem : Compare) (n k : Nat) (ts : List Tree) : Prop :=
  ∀ x t y u, t ∈ ts → H.content n x = some t → H.content k y = some u →
    elem x y H = (.ok (Tree.same t u), H)

theorem Answers.tail (h : Answers H elem n k (t :: ts)) : Answers H elem n k ts :=
  fun x t' y u ht' => h x t' y u (List.mem_cons_of_mem t ht')

section

variable (helem : Answers H elem n k ts)
include helem

theorem all_zip {a b} (ha : List.Forall₂ (fun c t => H.content n c = some t) a ts)
    (hb : List.Forall₂ (fun c t => H.content k c = some t) b us) (hlen : a.length = b.length) :
    all (fun p => elem p.1 p.2) (a.zip b) H = (.ok (sameAll ts us), H) := by
  induction ha generalizing b us with
  | nil =>
    cases hb with
    | nil => rfl
    | cons _ _ => cases hlen
  | cons hx _ ih =>
    cases hb with
    | nil => cases hlen
    | cons hy hb =>
      rw [List.zip_cons_cons, all, sameAll, andThen_reads (helem _ _ _ _ List.mem_cons_self hx hy)]
      cases same _ _ with
      | true => exact ih helem.tail hb (Nat.succ.inj hlen)
      | false => rfl

theorem seqEqual_content {a b} (ha : List.Forall₂ (fun c t => H.content n c = some t) a ts)
    (hb : List.Forall₂ (fun c t => H.content k c = some t) b us) :
    seqEqual elem a b H = (.ok (sameAll ts us), H) := by
  unfold seqEqual
  split
  · next hlen =>
    have hno : sameAll ts us = false := by
      rw [← Bool.not_eq_true, sameAll_iff]
      intro h
      exact hlen (ha.length_eq.trans (h.length_eq.trans hb.length_eq.symm))
    rw [hno]
    rfl
  · next hlen => exact all_zip helem ha hb (Decidable.not_not.mp hlen)

theorem setEqual_content {a b} (ha : List.Forall₂ (fun c t => H.content n c = some t) (a.map
    SetEntry.elem) ts)
    (hb : List.Forall₂ (fun c t => H.content k c = some t) (b.map SetEntry.elem) us) :
    setEqual elem a b H = (.ok (decide (ts.length = us.length) && coverElems ts us), H) := by
  rw [coverElems_eq]
  exact all_any_reads (List.forall₂_map_left_iff.mp ha) (List.forall₂_map_left_iff.mp hb)
    fun x t ht hx y u hy => helem _ t _ u ht hx hy

end

theorem mapEqual_content {a b ts us} (helem : Answers H elem n k (ts.flatMap fun e => [e.1, e.2]))
    (ha : List.Forall₂ (fun e t => H.content n e.key = some t.1 ∧ H.content n e.val = some t.2) a ts)
    (hb : List.Forall₂ (fun e t => H.content k e.key = some t.1 ∧ H.content k e.val = some t.2)
      b us) :
    mapEqual elem a b H = (.ok (decide (ts.length = us.length) && coverEntries ts us), H) := by
  rw [coverEntries_eq]
  refine all_any_reads ha hb fun e t ht he f u hf => ?_
  have hmem := mem_kids_map ht
  rw [sameEntry, andThen_reads (helem _ t.1 _ _ hmem.1 he.1 hf.1)]
  cases same t.1 u.1 with
  | true => exact helem _ t.2 _ _ hmem.2 he.2 hf.2
  | false => rfl

/-- Two objects in different slots, not both numbers. -/
theorem objEqual_content {oa ob ha hb} (helem : Answers H elem n k ts) (hne : ha ≠ hb)
    (hnum : ∀ x y p q, ¬ (oa = .bigInt x p ∧ ob = .bigInt y q))
    (hta : List.Forall₂ (fun c t => H.content n c = some t) oa.children ts)
    (hub : List.Forall₂ (fun c t => H.content k c = some t) ob.children us) :
    objEqual elem oa ob H = (.ok (same (oa.tree ha ts) (ob.tree hb us)), H) := by
  -- objects of two kinds differ at once
  cases oa <;> cases ob
  case list.list a b | tuple.tuple a b =>
    rw [objEqual, show seqEqual elem a b H = _ from seqEqual_content helem hta hub]
    simp [Obj.tree, same]
  case struct.struct i a j b | enum.enum i a j b =>
    rw [objEqual, Obj.tree, Obj.tree, same]
    by_cases hij : i = j
    · rw [if_neg (not_not.mpr hij), show seqEqual elem a b H = _ from seqEqual_content helem hta hub]
      simp [hij]
    · rw [if_pos hij]
      simp [hij, Act.pure]
  case map.map a b =>
    obtain ⟨es, rfl, hes⟩ := forall₂_entries hta
    obtain ⟨fs, rfl, hfs⟩ := forall₂_entries hub
    rw [objEqual, Obj.tree, Obj.tree, pairs_flatMap, pairs_flatMap, same,
      mapEqual_content helem hes hfs]
  case set.set a b => rw [objEqual, Obj.tree, Obj.tree, same, setEqual_content helem hta hub]
  case bigInt.bigInt x p y q => exact absurd ⟨rfl, rfl⟩ (hnum x y p q)
  all_goals
    simp [objEqual, Obj.tree, same, Act.pure, Leaf.norm, Num.norm, beq_eq_decide, hne,
      Bool.decide_and]

end

/-- The part's type does not declare `hook`. -/
def Machine.Unhooked (m : Machine) (hook : Hook) : Tree → Prop
  | .node (.struct tid) _ => m.hookBit hook (.struct tid) = false
  | .node (.enum variantId) _ => m.hookBit hook (.enum variantId) = false
  | _ => True

theorem hookBit_of_unhooked {hook} {o : Obj} {key} (hu : m.Unhooked hook (o.tree h ts))
    (hkey : o.typeKey = some key) : m.hookBit hook key = false := by
  cases o <;> cases hkey <;> exact hu

theorem hookOf_of_unhooked {hook} (h : H.content n v = some t) (hu : m.Unhooked hook t) :
    m.hookOf H v hook = false := by
  obtain ⟨n, rfl⟩ := content_pos h
  cases v with
  | obj k =>
    obtain ⟨ts, -, rfl⟩ := content_obj.mp h
    simp only [Machine.hookOf, Value.asObj]
    split
    · rfl
    · next hkey => exact hookBit_of_unhooked hu hkey
  | _ => rfl

theorem eqHookApplies_of_unhooked (h : H.content n l = some t) (hu : m.Unhooked .eq t) :
    m.eqHookApplies H l r = false := by
  unfold Machine.eqHookApplies
  rw [hookOf_of_unhooked h hu]
  simp

theorem content_num (h : H.content n v = some t) (hx : H.num v = some x) : t = .leaf (.num x) := by
  obtain ⟨n, rfl⟩ := content_pos h
  revert hx
  fun_cases num H v <;> intro hx <;> cases hx
  · cases h; rfl
  · cases h; rfl
  next hobj =>
  obtain ⟨ts, -, rfl⟩ := content_obj.mp h
  rw [hobj]
  rfl

/-- A NaN is equal to nothing but its own box. -/
theorem norm_eq_of_nan {y} (hx : x.isNan = true) (h : x.norm = y.norm) : x = y := by
  cases x with
  | int a => cases hx
  | float box w =>
    rw [Num.norm, if_pos (show F64.isNan w = true from hx)] at h
    cases y with
    | int b => cases h
    | float box' w' =>
      rw [Num.norm] at h
      split at h
      · cases h
        rfl
      · cases h

/-- The leaf of a value that is no object. -/
def Value.leaf : Value → Option Leaf
  | .int n _ => some (.num (.int n))
  | .float box w => some (.num (.float box w))
  | .bool b => some (.bool b)
  | .nil => some .nil
  | .obj _ => none

theorem obj_of_leaf_none (h : v.leaf = none) : ∃ k, v = .obj k := by
  cases v with
  | obj k => exact ⟨k, rfl⟩
  | _ => cases h

theorem content_leaf {a} (h : H.content n v = some t) (ha : v.leaf = some a) : t = .leaf a := by
  obtain ⟨n, rfl⟩ := content_pos h
  cases v <;> cases ha <;> cases h <;> rfl

/-- What a number is compared by. -/
def Norm.isNumber : Norm → Bool
  | .num _ | .nan _ _ => true
  | _ => false

theorem Num.norm_isNumber (x : Num) : x.norm.isNumber = true := by
  cases x with
  | int n => rfl
  | float box w =>
    rw [Num.norm]
    split <;> rfl

/-- A number is not equal to what is no number. -/
theorem same_num_leaf (x : Num) {b} (hb : b.norm.isNumber = false) :
    same (.leaf (.num x)) (.leaf b) = false ∧ same (.leaf b) (.leaf (.num x)) = false := by
  have hne : (Leaf.num x).norm ≠ b.norm := by
    intro h
    have hx : (Leaf.num x).norm.isNumber = true := x.norm_isNumber
    rw [h, hb] at hx
    cases hx
  rw [same, same]
  exact ⟨decide_eq_false hne, decide_eq_false hne.symm⟩

theorem same_bool (a b) : same (.leaf (.bool a)) (.leaf (.bool b)) = (a == b) := by
  cases a <;> cases b <;> rfl

/-- A value that is no object against an object, not both numbers. -/
theorem same_leaf_tree {a} (ha : v.leaf = some a) (hnum : H.num v = none ∨ H.num (.obj h) = none)
    (us) : same (.leaf a) ((H.obj h).tree h us) = false ∧
      same ((H.obj h).tree h us) (.leaf a) = false := by
  -- the kinds differ at once, or a number stands against a leaf that is none
  cases ho : H.obj h <;> cases v <;> cases ha <;>
    first
    | exact ⟨rfl, rfl⟩
    | exact same_num_leaf _ rfl
    | exact (same_num_leaf _ rfl).symm
    | exact absurd hnum (by simp [num, ho])

theorem num_none_obj (hn : H.num (.obj h) = none) : ∀ n p, H.obj h ≠ .bigInt n p := by
  intro n p heq
  simp only [num, heq] at hn
  cases hn

theorem elemEqual_content {x y u} (ht : H.content room x = some t) (hu : H.content k y = some u)
    (hwalk : x ≠ y → valuesEqualIn m span room x y H = (.ok (same t u), H)) :
    elemEqual (valuesEqualIn m span room) x y H = (.ok (same t u), H) := by
  unfold elemEqual
  split
  · next heq =>
    subst heq
    rw [content_unique ht hu, show same u u = true from same_refl u]
    rfl
  · next hne => exact hwalk hne

/-- Two objects that are not both numbers. -/
theorem valuesEqualIn_obj {ha hb} (hne : ha ≠ hb) (hca : H.content (room + 1) (.obj ha) = some a)
    (hcb : H.content (k + 1) (.obj hb) = some b) (hook : m.Unhooked .eq a)
    (hnum : H.num (.obj ha) = none ∨ H.num (.obj hb) = none)
    (helem : Answers H (elemEqual (valuesEqualIn m span room)) room k a.kids) :
    valuesEqualIn m span (room + 1) (.obj ha) (.obj hb) H = (.ok (same a b), H) := by
  have hhook := eqHookApplies_of_unhooked (r := .obj hb) hca hook
  obtain ⟨ts, hts, rfl⟩ := content_obj.mp hca
  obtain ⟨us, hus, rfl⟩ := content_obj.mp hcb
  rw [Obj.kids_tree hts] at helem
  simp only [valuesEqualIn, equalNum_none hnum, hhook, Bool.and_false, Bool.false_eq_true,
    if_false, if_neg hne]
  refine objEqual_content helem hne ?_ hts hus
  rintro x y p q ⟨hx, hy⟩
  rcases hnum with h | h
  · exact num_none_obj h x p hx
  · exact num_none_obj h y q hy

/-- A pair with a value that is no object, not both numbers. -/
theorem valuesEqualIn_inline (hca : H.content (room + 1) l = some a)
    (hcb : H.content (k + 1) r = some b) (hnum : H.num l = none ∨ H.num r = none)
    (hinline : l.asObj = none ∨ r.asObj = none) :
    valuesEqualIn m span (room + 1) l r H = (.ok (same a b), H) := by
  cases hl : l.leaf with
  | none =>
    obtain ⟨ha, rfl⟩ := obj_of_leaf_none hl
    cases hr : r.leaf with
    | none =>
      obtain ⟨hb, rfl⟩ := obj_of_leaf_none hr
      simp [Value.asObj] at hinline
    | some b' =>
      obtain ⟨ts, -, rfl⟩ := content_obj.mp hca
      rw [content_leaf hcb hr, (same_leaf_tree hr hnum.symm ts).2]
      cases r <;> cases hr <;> simp only [valuesEqualIn, equalNum_none hnum]
  | some a' =>
    cases hr : r.leaf with
    | none =>
      obtain ⟨hb, rfl⟩ := obj_of_leaf_none hr
      obtain ⟨us, -, rfl⟩ := content_obj.mp hcb
      rw [content_leaf hca hl, (same_leaf_tree hl hnum us).1]
      cases l <;> cases hl <;> simp only [valuesEqualIn, equalNum_none hnum]
    | some b' =>
      rw [content_leaf hca hl, content_leaf hcb hr]
      cases l <;> cases hl <;> cases r <;> cases hr <;>
        simp only [valuesEqualIn, equalNum_none hnum] <;>
        first
        | rfl
        | rw [same_bool]
        | rw [(same_num_leaf _ rfl).1]
        | rw [(same_num_leaf _ rfl).2]
        | exact absurd hnum (by simp [num])

/-- **The walk answers whether the contents are equal.**  By induction on the room: a child
    is compared with one level less, and its content needs one level less. -/
theorem valuesEqualIn_content (hne : l ≠ r) (ha : H.content room l = some a)
    (hb : H.content k r = some b) (hooks : a.All (m.Unhooked .eq)) :
    valuesEqualIn m span room l r H = (.ok (same a b), H) := by
  induction room generalizing l r a b k with
  | zero => cases ha
  | succ room ih =>
    obtain ⟨k, rfl⟩ := content_pos hb
    by_cases hnum : H.num l = none ∨ H.num r = none
    · by_cases hinline : l.asObj = none ∨ r.asObj = none
      · exact valuesEqualIn_inline ha hb hnum hinline
      cases l with
      | obj hl =>
        cases r with
        | obj hr =>
          refine valuesEqualIn_obj (fun h => hne (by rw [h])) ha hb hooks.here hnum ?_
          intro x t y u ht hx hy
          exact elemEqual_content hx hy fun hxy => ih hxy hx hy (hooks.part ht)
        | _ => exact absurd (.inr rfl) hinline
      | _ => exact absurd (.inl rfl) hinline
    · -- two numbers: a NaN is never equal to another box
      rw [not_or, ← ne_eq, ← ne_eq, Option.ne_none_iff_exists', Option.ne_none_iff_exists'] at hnum
      obtain ⟨⟨x, hx⟩, y, hy⟩ := hnum
      have hnan : (decide (x.norm = y.norm) && !x.isNan) = decide (x.norm = y.norm) := by
        cases hxn : x.isNan with
        | false => simp
        | true =>
          have hxy : x.norm ≠ y.norm := by
            intro h
            have heq := norm_eq_of_nan hxn h
            subst heq
            cases x with
            | int n => cases hxn
            | float box w => exact hne ((num_float hx).trans (num_float hy).symm)
          simp [hxy]
      rw [content_num ha hx, content_num hb hy, same]
      simp only [valuesEqualIn, equalNum_load hx hy, hnan]
      rfl

/-! ## An equivalence -/

def Tree.NanFree : Tree → Prop
  | .leaf (.num x) => x.isNan = false
  | _ => True

theorem valuesEqualIn_self (ht : H.content room v = some t) (hook : m.Unhooked .eq t)
    (hnan : t.NanFree) :
    valuesEqualIn m span room v v H = (.ok true, H) := by
  obtain ⟨room, rfl⟩ := content_pos ht
  cases hx : H.num v with
  | some x =>
    rw [content_num ht hx] at hnan
    simp only [valuesEqualIn, equalNum_load hx hx, decide_true, Bool.true_and,
      show x.isNan = false from hnan, Bool.not_false]
  | none =>
    cases v with
    | obj h =>
      have hhook := eqHookApplies_of_unhooked (r := .obj h) ht hook
      simp only [valuesEqualIn, equalNum_none (.inl hx), hhook, Bool.and_false,
        Bool.false_eq_true, if_false, if_true]
    | bool b => simp [valuesEqualIn, equalNum_none (.inl hx)]
    | nil => simp only [valuesEqualIn, equalNum_none (.inl hx)]
    | _ => cases hx

/-- A part that takes part in the equivalence: its type declares no `eq`, it is no NaN, and
    the keys of a map differ from each other. -/
structure Machine.Ordinary (m : Machine) (t : Tree) : Prop where
  unhooked : m.Unhooked .eq t
  nanFree : t.NanFree
  keysApart : t.KeysApart

/-- An acyclic value that nests no deeper than the limit allows, all parts ordinary. -/
def Machine.Comparable (m : Machine) (H : Heap) (walkBase : Nat) (v : Value) : Prop :=
  ∃ t, H.content (maxStructuralDepth + 1 - walkBase) v = some t ∧ t.All m.Ordinary

theorem valuesEqual_eq {walkBase} (span)
    (ha : H.content (maxStructuralDepth + 1 - walkBase) l = some a)
    (hb : H.content (maxStructuralDepth + 1 - walkBase) r = some b) (hooks : a.All (m.Unhooked .eq))
    (hnan : a.NanFree) : valuesEqualGuarded m walkBase l r 0 span H = (.ok (same a b), H) := by
  unfold valuesEqualGuarded
  rw [Nat.add_zero]
  by_cases hlr : l = r
  · subst hlr
    rw [content_unique hb ha, show same a a = true from same_refl a]
    exact valuesEqualIn_self ha hooks.here hnan
  · exact valuesEqualIn_content hlr ha hb hooks

/-- The keys and values of a map, without their cached hashes. -/
def keyVals (m : MapData Value Value) : List (Value × Value) :=
  m.entries.map fun e => (e.key, e.val)

theorem same_of_keyVals_perm {k ma mb} (hma : H.obj h = .map ma) (hmb : H.obj k = .map mb)
    (ha : H.content n (.obj h) = some a) (hb : H.content n (.obj k) = some b)
    (hperm : (keyVals ma).Perm (keyVals mb)) : Same a b := by
  obtain ⟨n, rfl⟩ := content_pos ha
  obtain ⟨ts, hts, rfl⟩ := content_obj.mp ha
  obtain ⟨us, hus, rfl⟩ := content_obj.mp hb
  rw [hma] at hts ⊢
  rw [hmb] at hus ⊢
  obtain ⟨es, rfl, hes⟩ := forall₂_entries hts
  obtain ⟨fs, rfl, hfs⟩ := forall₂_entries hus
  have hlen := hperm.length_eq
  rw [keyVals, keyVals, List.length_map, List.length_map, hes.length_eq, hfs.length_eq] at hlen
  rw [Obj.tree, Obj.tree, pairs_flatMap, pairs_flatMap, same_map]
  refine ⟨fs, rfl, hlen, fun t ht => ?_⟩
  obtain ⟨e, he, hk, hv⟩ := forall₂_mem_right hes ht
  have hmem : (e.key, e.val) ∈ keyVals mb := hperm.mem_iff.mp (List.mem_map_of_mem he)
  obtain ⟨f, hf, heq⟩ := List.mem_map.mp hmem
  obtain ⟨hkey, hval⟩ := Prod.mk.inj heq
  obtain ⟨u, hu, hk', hv'⟩ := forall₂_mem_left hfs hf
  rw [hkey] at hk'
  rw [hval] at hv'
  refine ⟨u, hu, ?_, ?_⟩
  · rw [content_unique hk hk']
    exact same_refl _
  · rw [content_unique hv hv']
    exact same_refl _

theorem same_of_elems_perm {k sa sb} (hsa : H.obj h = .set sa) (hsb : H.obj k = .set sb)
    (ha : H.content n (.obj h) = some a) (hb : H.content n (.obj k) = some b)
    (hperm : (sa.entries.map SetEntry.elem).Perm (sb.entries.map SetEntry.elem)) :
    Same a b := by
  obtain ⟨n, rfl⟩ := content_pos ha
  obtain ⟨ts, hts, rfl⟩ := content_obj.mp ha
  obtain ⟨us, hus, rfl⟩ := content_obj.mp hb
  rw [hsa] at hts ⊢
  rw [hsb] at hus ⊢
  have hlen : ts.length = us.length :=
    hts.length_eq.symm.trans (hperm.length_eq.trans hus.length_eq)
  rw [Obj.tree, Obj.tree, same_set]
  refine ⟨us, rfl, hlen, fun t ht => ?_⟩
  obtain ⟨e, he, hc⟩ := forall₂_mem_right hts ht
  obtain ⟨u, hu, hc'⟩ := forall₂_mem_left hus (hperm.mem_iff.mp he)
  refine ⟨u, hu, ?_⟩
  rw [content_unique hc hc']
  exact same_refl _

/-- **`==` is an equivalence**: it never faults on such values, and the order in which a map
    or a set was filled does not matter. -/
theorem equality_equivalence (m : Machine) (H : Heap) (walkBase : Nat) (span : Span) :
    let eq := fun a b => valuesEqualGuarded m walkBase a b 0 span H
    (∀ a b, m.Comparable H walkBase a → m.Comparable H walkBase b → ∃ r, eq a b = (.ok r, H)) ∧
    Equivalence (fun a b : { v // m.Comparable H walkBase v } => eq a.1 b.1 = (.ok true, H)) ∧
    (∀ h k ma mb, H.obj h = .map ma → H.obj k = .map mb → m.Comparable H walkBase (.obj h) →
      m.Comparable H walkBase (.obj k) → (keyVals ma).Perm (keyVals mb) →
      eq (.obj h) (.obj k) = (.ok true, H)) ∧
    (∀ h k sa sb, H.obj h = .set sa → H.obj k = .set sb → m.Comparable H walkBase (.obj h) →
      m.Comparable H walkBase (.obj k) →
      (sa.entries.map SetEntry.elem).Perm (sb.entries.map SetEntry.elem) →
      eq (.obj h) (.obj k) = (.ok true, H)) := by
  have heq : ∀ {a b t u}, H.content (maxStructuralDepth + 1 - walkBase) a = some t →
      H.content (maxStructuralDepth + 1 - walkBase) b = some u → t.All m.Ordinary →
      (valuesEqualGuarded m walkBase a b 0 span H = (.ok true, H) ↔ Same t u) := by
    intro a b t u ha hb hord
    rw [valuesEqual_eq span ha hb (hord.mono fun _ h => h.unhooked) hord.here.nanFree]
    simp [Same]
  refine ⟨?_, ⟨?_, ?_, ?_⟩, ?_, ?_⟩
  · rintro a b ⟨t, ha, hord⟩ ⟨u, hb, -⟩
    exact ⟨_, valuesEqual_eq span ha hb (hord.mono fun _ h => h.unhooked) hord.here.nanFree⟩
  · rintro ⟨a, t, ha, hord⟩
    exact (heq ha ha hord).mpr (same_refl t)
  · rintro ⟨a, t, ha, hta⟩ ⟨b, u, hb, htb⟩ hab
    exact (heq hb ha htb).mpr
      (same_symm (hta.mono fun _ h => h.keysApart) ((heq ha hb hta).mp hab))
  · rintro ⟨a, t, ha, hta⟩ ⟨b, u, hb, htb⟩ ⟨c, w, hc, _⟩ hab hbc
    exact (heq ha hc hta).mpr (same_trans ((heq ha hb hta).mp hab) ((heq hb hc htb).mp hbc))
  · rintro h k ma mb hma hmb ⟨t, ha, hta⟩ ⟨u, hb, -⟩ hperm
    exact (heq ha hb hta).mpr (same_of_keyVals_perm hma hmb ha hb hperm)
  · rintro h k sa sb hsa hsb ⟨t, ha, hta⟩ ⟨u, hb, -⟩ hperm
    exact (heq ha hb hta).mpr (same_of_elems_perm hsa hsb ha hb hperm)

/-- A program without hooks. -/
def hookless (fl : FloatOps) (bytesHash : List UInt8 → Word) : Machine where
  fl := fl
  bytesHash := bytesHash
  anyEqHook := false
  eqHookOff := false
  hookBit _ _ := false
  hookCode _ _ := none
  enumName _ := "?"
  structShown _ := "?"
  enumShown _ := "?"

/-- A host whose float operations answer zero. -/
def zeroFloats : FloatOps where
  add _ _ := 0
  sub _ _ := 0
  mul _ _ := 0
  div _ _ := 0
  rem _ _ := 0
  neg _ := 0
  ofInt _ := 0

/-- Two maps of the same entries, filled in two orders; one value is a list. -/
def twoOrders : Heap where
  obj
    | 0 => .map ⟨[⟨7, .bool true, .obj 2⟩, ⟨8, .bool false, .nil⟩], [], 0⟩
    | 1 => .map ⟨[⟨8, .bool false, .nil⟩, ⟨7, .bool true, .obj 2⟩], [], 0⟩
    | _ => .list [.nil, .bool true]
  next := 3

theorem equality_equivalence_two_orders :
    valuesEqualGuarded (hookless zeroFloats fun _ => 0) 0 (.obj 0) (.obj 1) 0 0 twoOrders =
      (.ok true, twoOrders) := by
  have hleaf : ∀ a : Leaf, (∀ x, a ≠ .num x) →
      (leaf a).All (hookless zeroFloats fun _ => 0).Ordinary := by
    intro a ha
    refine .intro ⟨trivial, ?_, trivial⟩ (nofun)
    cases a with
    | num x => exact absurd rfl (ha x)
    | _ => trivial
  have hlist : (node .list [.leaf .nil, .leaf (.bool true)]).All
      (hookless zeroFloats fun _ => 0).Ordinary := by
    refine .intro ⟨trivial, trivial, trivial⟩ fun c hc => ?_
    simp only [kids, List.mem_cons, List.not_mem_nil, or_false] at hc
    rcases hc with rfl | rfl <;> exact hleaf _ (by simp)
  have hmap : ∀ k k' : Bool, k ≠ k' → ∀ t u : Tree,
      t.All (hookless zeroFloats fun _ => 0).Ordinary →
      u.All (hookless zeroFloats fun _ => 0).Ordinary →
      (map [(.leaf (.bool k), t), (.leaf (.bool k'), u)]).All
        (hookless zeroFloats fun _ => 0).Ordinary := by
    intro k k' hk t u ht hu
    refine .intro ⟨trivial, trivial, ?_⟩ fun c hc => ?_
    · simp [KeysApart, same_leaf, Leaf.norm, hk]
    simp only [kids, List.flatMap_cons, List.flatMap_nil, List.append_nil, List.cons_append,
      List.nil_append, List.mem_cons, List.not_mem_nil, or_false] at hc
    rcases hc with rfl | rfl | rfl | rfl
    · exact hleaf _ (by simp)
    · exact ht
    · exact hleaf _ (by simp)
    · exact hu
  refine (equality_equivalence _ twoOrders 0 0).2.2.1 0 1 _ _ rfl rfl ?_ ?_ ?_
  · exact ⟨_, content_mono (n := 3) rfl (by decide), hmap _ _ (by decide) _ _ hlist
      (hleaf _ (by simp))⟩
  · exact ⟨_, content_mono (n := 3) rfl (by decide), hmap _ _ (by decide) _ _
      (hleaf _ (by simp)) hlist⟩
  · exact List.Perm.swap _ _ _

end ChezziLang.Vm
