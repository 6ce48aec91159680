/-
  Hashing of map keys and set elements: `hash_value` of `vm/hash.rs`.

  Numbers hash by the bits of the float they convert to, strings and bytes by their bytes,
  a tuple by combining its elements; a struct or an enum by its declared `hash`.  Every other
  value is refused.

  Proved:
  * `hashValueIn_content`: without hooks a hash is a function of the content, and is there
    exactly for scalars, strings, bytes and tuples of those.
  * `equal_values_hash_equal`: equal values have equal hashes, unless one holds a byte array
    where the other holds bytes.
-/
import ChezziLang.Vm.Equality
import Mathlib.Order.WellFounded

namespace ChezziLang.Vm

open Lib HashIndex List Vm.Tree

/-! ## Model -/

/-- `(if n == 0 { 0.0 } else { n as f64 }).to_bits()`. -/
def intHash (fl : FloatOps) (n : Int64) : Word := if n = 0 then 0 else fl.ofInt n

/-- `(if f == 0.0 { 0.0 } else { f }).to_bits()`. -/
def floatHash (w : BitVec 64) : Word := if F64.isZero w then 0 else w

/-- `scalar_hash`. -/
def scalarHash (m : Machine) (H : Heap) : Value → Word
  | .float _ w => floatHash w
  | .int n _ => intHash m.fl n
  | .bool b => if b then 1 else 0
  | .nil => 0
  | .obj h =>
    match H.obj h with
    | .str s => m.bytesHash s
    | .bytes b => m.bytesHash b
    | .bigInt n _ => intHash m.fl n
    | _ => 0

/-- One step of the combination of a tuple's hashes. -/
def combine (acc h : Word) : Word := acc * 1000003 ^^^ h

/-- The loop over the elements of a tuple. -/
def hashItems (f : Value → Act Heap RuntimeError Word) : List Value → Word → Act Heap RuntimeError Word
  | [], acc => Act.pure acc
  | e :: es, acc => (f e).andThen fun h => hashItems f es (combine acc h)

def tupleSeed (n : Nat) : Word := 0x345678 ^^^ BitVec.ofNat 64 n

/-- The fault of a struct or enum without `hash`. -/
def Machine.noHash (m : Machine) (H : Heap) (v : Value) (span : Span) : RuntimeError :=
  match v.asObj.bind fun h => (H.obj h).typeKey with
  | some (.struct tid) =>
    ⟨"struct '" ++ m.structShown tid ++
      "' has no 'hash' method (needed to use it as a map/set key)", span⟩
  | some (.enum variantId) =>
    ⟨(Machine.carrierWord variantId).getD ("enum '" ++ m.enumShown variantId ++ "'") ++
      " has no 'hash' method", span⟩
  | none => ⟨H.typeName v ++ " has no 'hash' method", span⟩

/-- `declared_hash`. -/
def Machine.declaredHash (m : Machine) (base : Nat) (v : Value) (span : Span) :
    Act Heap RuntimeError Word :=
  (m.invokeHook .hash base v [] span).andThen fun res => fun H =>
    match res with
    | some r =>
      match intVal (H.load r) with
      | some n => (.ok n.toBitVec, H)
      | none => (.error ⟨"hash() must return int, got " ++ H.typeName r, span⟩, H)
    | none => (.error (m.noHash H v span), H)

def unhashable (H : Heap) (v : Value) (span : Span) : RuntimeError :=
  ⟨H.typeName v ++ " is not hashable (cannot be a map/set key)", span⟩

/-- `hash_value_d`, by the levels left. -/
def hashValueIn (m : Machine) (span : Span) : Nat → Value → Act Heap RuntimeError Word
  | 0, _ => Act.fail (depthExceededErr span)
  | room + 1, v => fun H =>
    match v with
    | .obj h =>
      match H.obj h with
      | .struct _ _ | .enum _ _ => m.declaredHash (maxStructuralDepth - room) (.obj h) span H
      | .tuple items => hashItems (hashValueIn m span room) items (tupleSeed items.length) H
      | .str _ | .bytes _ | .bigInt _ _ => (.ok (scalarHash m H (.obj h)), H)
      | _ => (.error (unhashable H (.obj h) span), H)
    | v => (.ok (scalarHash m H v), H)

/-- `hash_value`. -/
def hashValue (m : Machine) (walkBase : Nat) (v : Value) (span : Span) :
    Act Heap RuntimeError Word :=
  hashValueIn m span (maxStructuralDepth + 1 - walkBase) v

/-! ## The hash of a content -/

def Num.hash (fl : FloatOps) : Num → Word
  | .int n => intHash fl n
  | .float _ w => floatHash w

def Leaf.hash (m : Machine) : Leaf → Option Word
  | .num x => some (x.hash m.fl)
  | .bool b => some (if b then 1 else 0)
  | .nil => some 0
  | .str s => some (m.bytesHash s)
  | .bytes b => some (m.bytesHash b)
  | _ => none

mutual

/-- The hash of a content, if it has one. -/
def Tree.hash (m : Machine) : Tree → Option Word
  | .leaf a => a.hash m
  | .node .tuple ts => Tree.hashAll m ts (tupleSeed ts.length)
  | _ => none
termination_by structural t => t

def Tree.hashAll (m : Machine) : List Tree → Word → Option Word
  | [], acc => some acc
  | t :: ts, acc =>
    match Tree.hash m t with
    | some h => Tree.hashAll m ts (combine acc h)
    | none => none
termination_by structural t => t

end

/-- A part that has a hash without a hook. -/
def Tree.Keyable : Tree → Prop
  | .leaf (.num _) | .leaf (.bool _) | .leaf .nil | .leaf (.str _) | .leaf (.bytes _) => True
  | .node .tuple _ => True
  | _ => False

variable {m : Machine} {ts : List Tree} {w : BitVec 64}

theorem hashAll_isSome {acc} : (hashAll m ts acc).isSome ↔ ∀ t ∈ ts, (Tree.hash m t).isSome := by
  induction ts generalizing acc with
  | nil => simp [hashAll]
  | cons t ts ih =>
    rw [hashAll]
    cases ht : Tree.hash m t with
    | none => simp [ht]
    | some h => simp [ht, ih]

/-- A content has a hash when it is made of scalars, strings, bytes and tuples. -/
theorem hash_isSome {t} : (Tree.hash m t).isSome ↔ t.All Tree.Keyable := by
  induction t using induct with
  | h t ih =>
    rw [all_iff]
    cases t with
    | leaf a => cases a <;> simp [Tree.hash, Leaf.hash, Tree.Keyable, Tree.kids]
    | node s ts =>
      cases s with
      | tuple =>
        rw [Tree.hash, hashAll_isSome, Tree.Keyable, true_and]
        exact forall₂_congr ih
      | _ => simp [Tree.hash, Tree.Keyable]
    | _ => simp [Tree.hash, Tree.Keyable]

/-- The walk `x` answers the hash `r`, or faults if there is none; it only reads. -/
def Hashes (H : Heap) (x : Act Heap RuntimeError Word) (r : Option Word) : Prop :=
  match r with
  | some w => x H = (.ok w, H)
  | none => ∃ e, x H = (.error e, H)

theorem hashItems_content {H f items n}
    (hf : ∀ c t, t ∈ ts → H.content n c = some t → Hashes H (f c) (Tree.hash m t))
    (hts : Forall₂ (fun c t => H.content n c = some t) items ts) (acc) :
    Hashes H (hashItems f items acc) (hashAll m ts acc) := by
  induction hts generalizing acc with
  | nil => exact rfl
  | @cons c t cs ts hc _ ih =>
    have hhead := hf c t mem_cons_self hc
    have hrest := ih fun c' t' ht' => hf c' t' (mem_cons_of_mem t ht')
    unfold Hashes hashItems
    rw [hashAll]
    cases ht : Tree.hash m t with
    | none =>
      rw [ht] at hhead
      obtain ⟨e, he⟩ := hhead
      refine ⟨e, ?_⟩
      rw [Act.andThen_error (by rw [he]), he]
    | some h =>
      rw [ht] at hhead
      rw [Act.andThen_reads hhead]
      exact hrest (combine acc h)

theorem declaredHash_error {H base v span} (h : m.hookOf H v .hash = false) :
    m.declaredHash base v span H = (.error (m.noHash H v span), H) := by
  have hinvoke : m.invokeHook .hash base v [] span H = (.ok none, H) := by
    unfold Machine.invokeHook Machine.hookProto
    rw [h]
    rfl
  unfold Machine.declaredHash
  rw [Act.andThen_reads hinvoke]

/-- **Without hooks a hash is a function of the content.** -/
theorem hashValueIn_content {span H room v t} (ht : H.content room v = some t)
    (hooks : t.All (m.Unhooked .hash)) : Hashes H (hashValueIn m span room v) (Tree.hash m t) := by
  induction room generalizing v t with
  | zero => cases ht
  | succ room ih =>
    cases hv : v.leaf with
    | some a =>
      rw [content_leaf ht hv]
      cases v <;> cases hv <;> exact rfl
    | none =>
      obtain ⟨h, rfl⟩ := obj_of_leaf_none hv
      have hhook := hookOf_of_unhooked ht hooks.here
      obtain ⟨ts, hts, rfl⟩ := Heap.content_obj.mp ht
      have hparts : ∀ c u, u ∈ ts → H.content room c = some u →
          Hashes H (hashValueIn m span room c) (Tree.hash m u) := by
        intro c u hu hc
        refine ih hc (hooks.part ?_)
        rw [Obj.kids_tree hts]
        exact hu
      unfold Hashes
      cases ho : H.obj h with
      | tuple items =>
        rw [ho] at hts
        have hlen : items.length = ts.length := hts.length_eq
        have hitems := hashItems_content hparts hts (tupleSeed items.length)
        simp only [hashValueIn, ho, Obj.tree, Tree.hash]
        rw [hlen] at hitems ⊢
        exact hitems
      | str s | bytes b => simp only [hashValueIn, ho, Obj.tree, Tree.hash, Leaf.hash, scalarHash]
      | bigInt n p =>
        simp only [hashValueIn, ho, Obj.tree, Tree.hash, Leaf.hash, scalarHash, Num.hash]
      | struct tid fields | enum variantId payload =>
        refine ⟨m.noHash H (.obj h) span, ?_⟩
        simp only [hashValueIn, ho]
        exact declaredHash_error hhook
      | _ =>
        refine ⟨unhashable H (.obj h) span, ?_⟩
        simp only [hashValueIn, ho]

/-! ## Equal contents hash equal -/

/-- `f` converts an int to a nearest float. -/
def RoundsToNearest (f : Int64 → BitVec 64) : Prop :=
  ∀ n, Lib.F64.isNan (f n) = false ∧ ∀ w, Lib.F64.isNan w = false →
    |F64.units (f n) - n.toInt * F64.one| ≤ |F64.units w - n.toInt * F64.one|

/-- An int that is a float converts to it. -/
theorem RoundsToNearest.exact {f} (hf : RoundsToNearest f) {n} (hw : Lib.F64.isNan w = false)
    (h : F64.units w = n.toInt * F64.one) : F64.units (f n) = F64.units w := by
  have hle := (hf n).2 w hw
  rw [h, sub_self, abs_zero] at hle
  have hzero := abs_nonpos_iff.mp hle
  omega

theorem isZero_iff (w) : F64.isZero w = true ↔ F64.units w = 0 := by
  rw [F64.units_eq_zero_iff, F64.key_eq_zero_iff, F64.isZero, toNat_mask, beq_iff_eq]

/-- A word with its number of units; the two zeros hash alike. -/
theorem floatHash_eq {w'} (h : F64.units w = F64.units w') : floatHash w = floatHash w' := by
  unfold floatHash
  by_cases hz : F64.units w = 0
  · rw [if_pos ((isZero_iff w).mpr hz), if_pos ((isZero_iff w').mpr (h ▸ hz))]
  · rw [if_neg fun h0 => hz ((isZero_iff w).mp h0), if_neg fun h0 => hz (h.trans ((isZero_iff w').mp h0))]
    have hkey := F64.units_inj.mp h
    exact F64.eq_of_key_eq hkey fun h0 => hz (F64.units_eq_zero_iff.mpr h0)

theorem intHash_eq_floatHash {fl} (hf : RoundsToNearest fl.ofInt) {n} (hw : Lib.F64.isNan w = false)
    (h : F64.units w = n.toInt * F64.one) : intHash fl n = floatHash w := by
  unfold intHash
  by_cases hn : n = 0
  · subst hn
    rw [if_pos rfl, floatHash, if_pos ((isZero_iff w).mpr (by rw [h, Int64.toInt_zero, Int.zero_mul]))]
  have hunits := hf.exact hw h
  have hne : F64.units (fl.ofInt n) ≠ 0 := by
    rw [hunits, h]
    intro h0
    rcases Int.mul_eq_zero.mp h0 with h0 | h0
    · exact hn (Int64.toInt_inj.mp h0)
    · exact absurd h0 (Int.ne_of_gt F64.one_pos)
  rw [if_neg hn, ← floatHash_eq hunits, floatHash, if_neg fun h0 => hne ((isZero_iff _).mp h0)]

theorem Num.hash_eq {fl} (hf : RoundsToNearest fl.ofInt) {x y : Num} (h : x.norm = y.norm) :
    x.hash fl = y.hash fl := by
  have hmixed : ∀ {n box w}, (Num.int n).norm = (Num.float box w).norm →
      intHash fl n = floatHash w := by
    intro n box w h
    rw [Num.norm, Num.norm] at h
    split at h
    · cases h
    · next hw =>
      rw [Bool.not_eq_true, ← isNan_eq] at hw
      exact intHash_eq_floatHash hf hw (Norm.num.inj h).symm
  cases x with
  | int a =>
    cases y with
    | int b => rw [int_norm_inj.mp h]
    | float box w => exact hmixed h
  | float box w =>
    cases y with
    | int b => exact (hmixed h.symm).symm
    | float box' w' =>
      rw [Num.norm, Num.norm] at h
      split at h <;> split at h
      · cases h
        rfl
      · cases h
      · cases h
      · exact floatHash_eq (Norm.num.inj h)

def Tree.NoByteArray : Tree → Prop
  | .leaf (.byteArray _) => False
  | _ => True

theorem Leaf.num_of_isNumber {a : Leaf} (h : a.norm.isNumber = true) : ∃ x, a = .num x := by
  cases a with
  | num x => exact ⟨x, rfl⟩
  | _ => cases h

/-- Numbers and byte arrays apart, a leaf is compared by all it has. -/
theorem Leaf.eq_of_norm {a b} (h : a.norm = b.norm) (hn : a.norm.isNumber = false)
    (ha : (leaf a).NoByteArray) (hb : (leaf b).NoByteArray) : a = b := by
  cases b with
  | num y =>
    rw [h, show (Leaf.num y).norm.isNumber = true from y.norm_isNumber] at hn
    cases hn
  | byteArray b => exact hb.elim
  | _ =>
    cases a with
    | num x =>
      rw [show (Leaf.num x).norm.isNumber = true from x.norm_isNumber] at hn
      cases hn
    | byteArray b => exact ha.elim
    | _ => cases h <;> rfl

theorem Leaf.hash_eq (hf : RoundsToNearest m.fl.ofInt) {a b : Leaf} (h : a.norm = b.norm)
    (ha : (leaf a).NoByteArray) (hb : (leaf b).NoByteArray) :
    b.hash m = a.hash m := by
  cases hn : a.norm.isNumber with
  | false => rw [Leaf.eq_of_norm h hn ha hb]
  | true =>
    obtain ⟨x, rfl⟩ := Leaf.num_of_isNumber hn
    rw [h] at hn
    obtain ⟨y, rfl⟩ := Leaf.num_of_isNumber hn
    rw [Leaf.hash, Leaf.hash, Num.hash_eq hf (show x.norm = y.norm from h)]

theorem Tree.Keyable.noByteArray {t : Tree} (h : t.Keyable) : t.NoByteArray := by
  cases t with
  | leaf a => cases a <;> trivial
  | _ => trivial

theorem hashAll_eq {us} (acc) (h : Forall₂ (fun t u => Tree.hash m u = Tree.hash m t) ts us) :
    hashAll m us acc = hashAll m ts acc := by
  induction h generalizing acc with
  | nil => rfl
  | cons hhead _ ih =>
    rw [hashAll, hashAll, hhead]
    split
    · exact ih _
    · rfl

/-- **Equal contents without byte arrays have the same hash.** -/
theorem Tree.hash_eq (hf : RoundsToNearest m.fl.ofInt) {a b} (h : Same a b)
    (ha : a.All NoByteArray) (hb : b.All NoByteArray) :
    Tree.hash m b = Tree.hash m a := by
  induction a using induct generalizing b with
  | h a ih =>
    cases a with
    | leaf x =>
      obtain ⟨y, rfl, hxy⟩ := same_leaf.mp h
      exact Leaf.hash_eq hf hxy ha.here hb.here
    | node s ts =>
      obtain ⟨us, rfl, htu⟩ := same_node.mp h
      have hparts : Forall₂ (fun t u => Tree.hash m u = Tree.hash m t) ts us := by
        refine forall₂_iff_get.mpr ⟨htu.length_eq, fun i ht hu => ?_⟩
        exact ih _ (get_mem _ _) ((forall₂_iff_get.mp htu).2 i ht hu)
          (ha.part (get_mem _ _)) (hb.part (get_mem _ _))
      cases s with
      | tuple =>
        rw [Tree.hash, Tree.hash, htu.length_eq]
        exact hashAll_eq _ hparts
      | _ => rfl
    | map es =>
      obtain ⟨fs, rfl, -⟩ := same_map.mp h
      rfl
    | set ts =>
      obtain ⟨us, rfl, -⟩ := same_set.mp h
      rfl

/-- A part whose type declares no hook. -/
structure Machine.HookFree (m : Machine) (t : Tree) : Prop where
  noEq : m.Unhooked .eq t
  noHash : m.Unhooked .hash t

theorem hashValue_ok_iff {H walkBase v t span}
    (ht : H.content (maxStructuralDepth + 1 - walkBase) v = some t) (hooks : t.All m.HookFree) {w} :
    hashValue m walkBase v span H = (.ok w, H) ↔ Tree.hash m t = some w := by
  have hwalk := @hashValueIn_content m span H _ v t ht (hooks.mono fun _ h => h.noHash)
  unfold hashValue
  cases hh : Tree.hash m t with
  | some x =>
    rw [hh] at hwalk
    rw [hwalk]
    simp
  | none =>
    rw [hh] at hwalk
    obtain ⟨e, he⟩ := hwalk
    rw [he]
    simp

/-- **Equal values have equal hashes**, as far as they have any: a value has one exactly when
    it is made of scalars, strings, bytes and tuples, and a value equal to it has the same,
    unless that value holds a byte array. -/
theorem equal_values_hash_equal (m : Machine) (hround : RoundsToNearest m.fl.ofInt) (H : Heap)
    (walkBase : Nat) (span : Span) :
    (∀ v t, H.content (maxStructuralDepth + 1 - walkBase) v = some t → t.All m.HookFree →
      ((∃ w, hashValue m walkBase v span H = (.ok w, H)) ↔ t.All Tree.Keyable)) ∧
    ∀ a b ta tb, H.content (maxStructuralDepth + 1 - walkBase) a = some ta →
      H.content (maxStructuralDepth + 1 - walkBase) b = some tb →
      ta.All m.HookFree → tb.All m.HookFree → ta.All Tree.NanFree → tb.All Tree.NanFree →
      valuesEqualGuarded m walkBase a b 0 span H = (.ok true, H) →
      ∀ w, hashValue m walkBase a span H = (.ok w, H) →
        hashValue m walkBase b span H = (.ok w, H) ∨ ¬ tb.All Tree.NoByteArray := by
  refine ⟨?_, ?_⟩
  · intro v t ht hooks
    simp only [hashValue_ok_iff ht hooks]
    rw [← Option.isSome_iff_exists]
    exact hash_isSome
  intro a b ta tb ha hb hooksa hooksb hnan _ heq w hw
  rw [valuesEqual_eq span ha hb (hooksa.mono fun _ h => h.noEq) hnan.here] at heq
  have hsame : Same ta tb := by
    injection heq with h _
    exact Except.ok.inj h
  have hta := (hashValue_ok_iff ha hooksa).mp hw
  have hkey : ta.All Tree.Keyable := hash_isSome.mp (by rw [hta]; rfl)
  by_cases hno : tb.All NoByteArray
  · left
    rw [hashValue_ok_iff hb hooksb,
      hash_eq hround hsame (hkey.mono fun _ h => h.noByteArray) hno]
    exact hta
  · exact .inr hno

/-- Bytes equal a byte array of the same bytes, which has no hash. -/
theorem byteArray_has_no_hash :
    let H : Heap := ⟨fun h => if h = 0 then .bytes [97] else .byteArray [97], 2⟩
    let m := hookless zeroFloats fun _ => 5
    valuesEqualGuarded m 0 (.obj 0) (.obj 1) 0 0 H = (.ok true, H) ∧
      hashValue m 0 (.obj 0) 0 H = (.ok 5, H) ∧
      hashValue m 0 (.obj 1) 0 H =
        (.error ⟨"bytearray is not hashable (cannot be a map/set key)", 0⟩, H) :=
  ⟨rfl, rfl, rfl⟩

theorem exists_nearest (n : Int64) : ∃ w, Lib.F64.isNan w = false ∧ ∀ u, Lib.F64.isNan u = false →
    |F64.units w - n.toInt * F64.one| ≤ |F64.units u - n.toInt * F64.one| := by
  let dist : BitVec 64 → Nat := fun w => (F64.units w - n.toInt * F64.one).natAbs
  obtain ⟨w, hw, hmin⟩ := (measure dist).wf.has_min { w | Lib.F64.isNan w = false } ⟨0, by decide⟩
  refine ⟨w, hw, fun u hu => ?_⟩
  have hle : dist w ≤ dist u := Nat.not_lt.mp (hmin u hu)
  rw [Int.abs_eq_natAbs, Int.abs_eq_natAbs]
  exact Int.ofNat_le.mpr hle

/-- A host that converts ints to a nearest float. -/
noncomputable def nearestFloats : FloatOps :=
  { zeroFloats with ofInt := fun n => Classical.choose (exists_nearest n) }

theorem nearestFloats_rounds : RoundsToNearest nearestFloats.ofInt :=
  fun n => Classical.choose_spec (exists_nearest n)

/-- The tuples `(1, "x")` and `(1.0, "x")`. -/
def oneTwice : Heap where
  obj
    | 0 => .tuple [.int 1 (by decide), .obj 2]
    | 1 => .tuple [.float 4 0x3ff0000000000000, .obj 3]
    | _ => .str [120]
  next := 5

theorem hookless_hookFree (fl bytesHash) (t : Tree) : t.All (hookless fl bytesHash).HookFree := by
  have hunhooked : ∀ hook (t : Tree), (hookless fl bytesHash).Unhooked hook t := by
    intro hook t
    cases t with
    | node s ts => cases s <;> first | rfl | trivial
    | _ => trivial
  induction t using induct with
  | h t ih => exact .intro ⟨hunhooked _ t, hunhooked _ t⟩ ih

theorem Tree.All.pair {p a b} (h : p (.node .tuple [.leaf a, .leaf b])) (ha : p (.leaf a))
    (hb : p (.leaf b)) : All p (.node .tuple [.leaf a, .leaf b]) := by
  refine .intro h fun c hc => ?_
  simp only [Tree.kids, mem_cons, not_mem_nil, or_false] at hc
  rcases hc with rfl | rfl
  · exact .intro ha (forall_mem_nil _)
  · exact .intro hb (forall_mem_nil _)

theorem equal_values_hash_equal_tuples :
    ∃ w, hashValue (hookless nearestFloats fun _ => 5) 0 (.obj 0) 0 oneTwice = (.ok w, oneTwice) ∧
      hashValue (hookless nearestFloats fun _ => 5) 0 (.obj 1) 0 oneTwice = (.ok w, oneTwice) := by
  let one : Leaf := .num (.int 1)
  let oneFloat : Leaf := .num (.float 4 0x3ff0000000000000)
  let x : Leaf := .str [120]
  have ha : oneTwice.content (maxStructuralDepth + 1 - 0) (.obj 0) =
      some (.node .tuple [.leaf one, .leaf x]) := rfl
  have hb : oneTwice.content (maxStructuralDepth + 1 - 0) (.obj 1) =
      some (.node .tuple [.leaf oneFloat, .leaf x]) := rfl
  have hmain := equal_values_hash_equal (hookless nearestFloats fun _ => 5) nearestFloats_rounds
    oneTwice 0 0
  obtain ⟨w, hw⟩ := (hmain.1 (.obj 0) _ ha (hookless_hookFree _ _ _)).mpr
    (.pair trivial trivial trivial)
  have hnan : (node .tuple [.leaf one, .leaf x]).All NanFree := .pair trivial rfl trivial
  have hequal : valuesEqualGuarded (hookless nearestFloats fun _ => 5) 0 (.obj 0) (.obj 1) 0 0
      oneTwice = (.ok true, oneTwice) := by
    rw [valuesEqual_eq 0 ha hb ((hookless_hookFree _ _ _).mono fun _ h => h.noEq) hnan.here]
    rw [show same _ _ = true from by decide +kernel]
  refine ⟨w, hw, (hmain.2 (.obj 0) (.obj 1) _ _ ha hb (hookless_hookFree _ _ _)
    (hookless_hookFree _ _ _) hnan (.pair trivial rfl trivial) hequal w hw).resolve_right ?_⟩
  exact fun hno => hno (.pair trivial trivial trivial)

end ChezziLang.Vm
