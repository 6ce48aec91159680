/-
  The checker's types: `Ty` and `FnLabels` of `checker/ty.rs`, with `compatible`,
  the context-free comparison that every container's type arguments go through.

  `compatible` is a symmetric comparison except at two places: an `Error` slot
  takes a `str`, and a function slot takes a function with fewer required
  arguments or with more keyword-only parameters.  `oneWay` finds such a place in
  a pair of types.

  Proved:
  * `compatible_flip`: of an accepted pair, the swapped pair is accepted exactly
    when no such place is in it.
-/
import Mathlib.Data.List.Basic

namespace ChezziLang.Checker

/-! ## Types -/

/-- The C widths a slot may be declared with (the members of `CType` that
    `ffi_width_ty` builds a `Ty::Width` from). -/
inductive CWidth where
  | int8
  | int16
  | int32
  | int64
  | uint8
  | uint16
  | uint32
  | uint64
  | float32
  deriving DecidableEq, Repr

inductive Variadic where
  | no
  | pack
  | c
  deriving DecidableEq, Repr

/-- `FnLabels`: what rides along with a function type's parameters.  `kw` has the
    types of the keyword-only parameters. -/
structure FnLabels (T : Type) where
  names : List (Option String)
  min : Option Nat
  kw : List T

namespace FnLabels
variable {T : Type}

/-- The fewest arguments a call may supply. -/
def minOr (l : FnLabels T) (params : Nat) : Nat :=
  let all := params + l.kw.length
  Nat.min (l.min.getD all) all

end FnLabels

inductive Ty where
  | int
  | float
  | bool
  | str
  | bytes
  | byteArray
  | nil
  | list (t : Ty)
  | map (k v : Ty)
  | set (t : Ty)
  | func (params : List Ty) (ret : Ty) (labels : FnLabels Ty) (variadic : Variadic)
  | tuple (ts : List Ty)
  | struct (name : String) (args : List Ty)
  | enum (name : String) (args : List Ty)
  | param (name : String)
  | result (t e : Ty)
  | option (t : Ty)
  | channel (t : Ty)
  | shared (t : Ty)
  | atomic (t : Ty)
  | atomicInt
  | rwShared (t : Ty)
  | executor
  | socket
  | listener
  | writer
  | reader
  | ptr
  | width (w : CWidth)
  | protocol (name : String) (args : List Ty)
  | module (name : String)
  | unknown
  | var (n : Nat)

/-- `Ty::scalar` at a width. -/
def CWidth.scalar : CWidth → Ty
  | .float32 => .float
  | _ => .int

/-- `Ty::scalar`. -/
def Ty.scalar : Ty → Ty
  | .width w => w.scalar
  | t => t

def Ty.isUnknown : Ty → Bool
  | .unknown => true
  | _ => false

variable (w : CWidth)

@[simp] theorem sizeOf_scalar : sizeOf w.scalar = 1 := by cases w <;> rfl

@[simp] theorem CWidth.sizeOf_eq_one : sizeOf w = 1 := by cases w <;> rfl

/-! ## Compatibility -/

mutual

/-- `compatible`: may a value of type `actual` stand where `expected` is asked
    for, without a registry to look protocols up in? -/
def compatible (expected actual : Ty) : Bool :=
  match expected, actual with
  | .unknown, _ => true
  | _, .unknown => true
  | .var a, .var b => a == b
  | .width w, a => compatible w.scalar a
  | e, .width w => compatible e w.scalar
  | .int, .int => true
  | .float, .float => true
  | .bool, .bool => true
  | .str, .str => true
  | .bytes, .bytes => true
  | .byteArray, .byteArray => true
  | .nil, .nil => true
  | .list a, .list b => compatible a b
  | .option a, .option b => compatible a b
  | .channel a, .channel b => compatible a b
  | .shared a, .shared b => compatible a b
  | .rwShared a, .rwShared b => compatible a b
  | .atomic a, .atomic b => compatible a b
  | .result at' ae, .result bt be => compatible at' bt && compatible ae be
  | .protocol a aa, .protocol b ba => a == b && aa.length == ba.length && compatibleAll aa ba
  | .protocol p pa, .str => p == "Error" && pa.isEmpty
  | .map ka va, .map kb vb => compatible ka kb && compatible va vb
  | .set a, .set b => compatible a b
  | .struct a aa, .struct b ba => a == b && aa.length == ba.length && compatibleAll aa ba
  | .enum a aa, .enum b ba => a == b && aa.length == ba.length && compatibleAll aa ba
  | .atomicInt, .atomicInt => true
  | .executor, .executor => true
  | .socket, .socket => true
  | .listener, .listener => true
  | .writer, .writer => true
  | .reader, .reader => true
  | .ptr, .ptr => true
  | .module a, .module b => a == b
  | .param a, .param b => a == b
  | .func p1 r1 ⟨n1, m1, k1⟩ v1, .func p2 r2 ⟨n2, m2, k2⟩ v2 =>
    p1.length == p2.length && v1 == v2 && kwFits k1 k2 &&
      decide ((FnLabels.mk n2 m2 k2).minOr p2.length ≤ (FnLabels.mk n1 m1 k1).minOr p1.length) &&
      invariantAll p1 p2 && compatible r1 r2
  | .tuple a, .tuple b => a.length == b.length && compatibleAll a b
  | _, _ => false
termination_by (sizeOf expected + sizeOf actual, 0)
decreasing_by
  all_goals
    apply Prod.Lex.left
    simp <;> omega

/-- `param_invariant`. -/
def paramInvariant (a b : Ty) : Bool := compatible a b && compatible b a
termination_by (sizeOf a + sizeOf b, 1)
decreasing_by
  · exact Prod.Lex.right _ Nat.zero_lt_one
  · rw [Nat.add_comm]
    exact Prod.Lex.right _ Nat.zero_lt_one

/-- `kw_fits`, on the keyword-only parameters of the slot and of the value. -/
def kwFits (slot actual : List Ty) : Bool :=
  decide (slot.length ≤ actual.length) && invariantAll slot actual
termination_by (sizeOf slot + sizeOf actual, 1)

/-- The elements of the two lists are compatible pair by pair. -/
def compatibleAll (as bs : List Ty) : Bool :=
  match as, bs with
  | a :: as, b :: bs => compatible a b && compatibleAll as bs
  | _, _ => true
termination_by (sizeOf as + sizeOf bs, 0)

def invariantAll (as bs : List Ty) : Bool :=
  match as, bs with
  | a :: as, b :: bs => paramInvariant a b && invariantAll as bs
  | _, _ => true
termination_by (sizeOf as + sizeOf bs, 0)

end

/-! ## One-way places -/

mutual

/-- Does comparing `actual` with `expected` rest on a grant that holds one way
    only?  Function parameters are compared both ways, so they are not searched. -/
def oneWay : Ty → Ty → Bool
  | .list a, .list b => oneWay a b
  | .option a, .option b => oneWay a b
  | .channel a, .channel b => oneWay a b
  | .shared a, .shared b => oneWay a b
  | .rwShared a, .rwShared b => oneWay a b
  | .atomic a, .atomic b => oneWay a b
  | .set a, .set b => oneWay a b
  | .result a e, .result b f => oneWay a b || oneWay e f
  | .map k v, .map l w => oneWay k l || oneWay v w
  | .protocol _ _, .str => true
  | .protocol _ aa, .protocol _ ba => oneWayAll aa ba
  | .struct _ aa, .struct _ ba => oneWayAll aa ba
  | .enum _ aa, .enum _ ba => oneWayAll aa ba
  | .tuple a, .tuple b => oneWayAll a b
  | .func p1 r1 l1 _, .func p2 r2 l2 _ =>
    decide (l1.kw.length ≠ l2.kw.length) ||
      decide (l1.minOr p1.length ≠ l2.minOr p2.length) || oneWay r1 r2
  | _, _ => false

def oneWayAll : List Ty → List Ty → Bool
  | a :: as, b :: bs => oneWay a b || oneWayAll as bs
  | _, _ => false

end

/-! ## Swapping the sides -/

variable (e : Ty)

theorem compatible_unknown_right : compatible e .unknown = true := by
  cases e <;> simp only [compatible]

theorem compatible_width_left (a) : compatible (.width w) a = compatible w.scalar a := by
  cases a with
  | unknown => rw [compatible_unknown_right, compatible_unknown_right]
  | _ => rw [compatible]; exact nofun

theorem CWidth.scalar_cases : w.scalar = .int ∨ w.scalar = .float := by
  cases w <;> first | exact .inl rfl | exact .inr rfl

theorem compatible_width_right (w) : compatible e (.width w) = compatible e w.scalar := by
  cases e with
  | width v =>
    rw [compatible_width_left, compatible_width_left]
    cases v.scalar_cases with
    | inl h => rw [h, compatible] <;> exact nofun
    | inr h => rw [h, compatible] <;> exact nofun
  | unknown => simp only [compatible]
  | _ => rw [compatible] <;> exact nofun

theorem paramInvariant_comm (a b) : paramInvariant a b = paramInvariant b a := by
  rw [paramInvariant, paramInvariant, Bool.and_comm]

theorem invariantAll_comm (as bs) : invariantAll as bs = invariantAll bs as := by
  induction as generalizing bs with
  | nil => cases bs <;> simp [invariantAll]
  | cons a as ih =>
    cases bs with
    | nil => simp [invariantAll]
    | cons b bs => rw [invariantAll, invariantAll, paramInvariant_comm, ih]

theorem and_flip {x y x' y' u v} (h : (x && y) = true) (hx : x = true → x' = !u)
    (hy : y = true → y' = !v) : (x' && y') = !(u || v) := by
  rw [Bool.and_eq_true] at h
  rw [hx h.1, hy h.2, Bool.not_or]

theorem decide_le_flip {m n : Nat} (h : m ≤ n) : decide (n ≤ m) = !decide (m ≠ n) := by
  rw [← decide_not]
  exact decide_eq_decide.mpr (by omega)

theorem kwFits_flip {as bs : List Ty} (h : kwFits as bs = true) :
    kwFits bs as = !decide (as.length ≠ bs.length) := by
  rw [kwFits, Bool.and_eq_true, decide_eq_true_eq] at h
  rw [kwFits, invariantAll_comm, h.2, Bool.and_true, decide_le_flip h.1]

/-- The part of two function types that is compared as labels. -/
theorem labels_flip {l1 l2 : FnLabels Ty} {m n} (hk : kwFits l1.kw l2.kw = true)
    (hm : l2.minOr n ≤ l1.minOr m) : (kwFits l2.kw l1.kw && decide (l1.minOr m ≤ l2.minOr n)) =
      !(decide (l1.kw.length ≠ l2.kw.length) || decide (l1.minOr m ≠ l2.minOr n)) := by
  rw [kwFits_flip hk, decide_le_flip hm, Bool.not_or]
  simp only [ne_comm]

/-- The parts of two nominal types: a name and a list of arguments. -/
theorem args_flip {n m : String} {as bs}
    (h : (n == m && as.length == bs.length && compatibleAll as bs) = true)
    (ih : as.length = bs.length → compatibleAll as bs = true →
      compatibleAll bs as = !oneWayAll as bs) :
    (m == n && bs.length == as.length && compatibleAll bs as) = !oneWayAll as bs := by
  simp only [Bool.and_eq_true, beq_iff_eq] at h
  obtain ⟨⟨rfl, hl⟩, hc⟩ := h
  rw [ih hl hc, hl, beq_self_eq_true, beq_self_eq_true, Bool.true_and, Bool.true_and]

theorem oneWay_width_left (a) : oneWay (.width w) a = false := by
  cases a <;> rfl

theorem oneWay_width_right (w) : oneWay e (.width w) = false := by
  cases e <;> rfl

theorem oneWay_scalar_left (a) : oneWay w.scalar a = false := by
  cases w.scalar_cases with
  | inl h => rw [h]; cases a <;> rfl
  | inr h => rw [h]; cases a <;> rfl

theorem oneWay_scalar_right (w : CWidth) : oneWay e w.scalar = false := by
  cases w.scalar_cases with
  | inl h => rw [h]; cases e <;> rfl
  | inr h => rw [h]; cases e <;> rfl

mutual

/-- **Of an accepted pair, the swapped pair is accepted exactly when the
    acceptance rests on no one-way grant.** -/
theorem compatible_flip (e a : Ty) (h : compatible e a = true) : compatible a e = !oneWay e a := by
  rw [compatible.eq_def] at h
  split at h
  case h_1 => rw [compatible_unknown_right]; cases a <;> rfl
  case h_4 w =>
    rw [compatible_width_right, compatible_flip _ _ h, oneWay_scalar_left, oneWay_width_left]
  case h_5 w _ _ _ =>
    rw [compatible_width_left, compatible_flip _ _ h, oneWay_scalar_right, oneWay_width_right]
  case h_13 | h_14 | h_15 | h_16 | h_17 | h_18 | h_23 =>
    rw [compatible, oneWay]
    exact compatible_flip _ _ h
  case h_19 | h_22 =>
    rw [compatible, oneWay]
    exact and_flip h (compatible_flip _ _) (compatible_flip _ _)
  case h_20 | h_24 | h_25 =>
    rw [compatible, oneWay]
    exact args_flip h (compatibleAll_flip _ _)
  case h_21 => simp only [compatible, oneWay, Bool.not_true]
  case h_3 | h_33 | h_34 =>
    rw [beq_iff_eq] at h
    simp only [compatible, oneWay, h, beq_self_eq_true, Bool.not_false]
  case h_35 =>
    simp only [Bool.and_eq_true, beq_iff_eq, decide_eq_true_eq] at h
    obtain ⟨⟨⟨⟨⟨hp, hv⟩, hk⟩, hm⟩, hi⟩, hr⟩ := h
    rw [hp] at hm
    rw [compatible, oneWay, compatible_flip _ _ hr, invariantAll_comm, hi, hp, hv,
      beq_self_eq_true, beq_self_eq_true, Bool.true_and, Bool.true_and, Bool.and_true,
      Bool.not_or, ← labels_flip hk hm]
  case h_36 =>
    rw [Bool.and_eq_true, beq_iff_eq] at h
    rw [compatible, oneWay, compatibleAll_flip _ _ h.1 h.2, h.1, beq_self_eq_true, Bool.true_and]
  case h_37 => cases h
  all_goals simp only [compatible, oneWay, Bool.not_false]
termination_by sizeOf e + sizeOf a
decreasing_by
  all_goals
    subst_vars
    simp <;> omega

theorem compatibleAll_flip (as bs) (hl : as.length = bs.length) (h : compatibleAll as bs = true) :
    compatibleAll bs as = !oneWayAll as bs := by
  match as, bs with
  | [], [] => simp only [compatibleAll, oneWayAll, Bool.not_false]
  | a :: as, b :: bs =>
    rw [compatibleAll] at h
    rw [compatibleAll, oneWayAll]
    exact and_flip h (compatible_flip a b) (compatibleAll_flip as bs (Nat.succ.inj hl))
termination_by sizeOf as + sizeOf bs
decreasing_by all_goals simp only [List.cons.sizeOf_spec]; omega

end

end ChezziLang.Checker
