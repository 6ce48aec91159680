/-
  Slices: `slice.rs`, where every sequence type resolves a `Range` into the indices it
  selects.

  `rangeIndices` is the code on machine integers: saturating where the code saturates,
  and stopping with `panic` where plain arithmetic would overflow or `clamp` be given
  crossed bounds.  `CPython.sliceIndices` and `CPython.range` are the exact integer
  functions it is meant to agree with.

  Proved:
  * `range_indices_exact`: for every nonzero step and every length a machine integer
    can hold, the code never panics and selects what the exact functions give; the
    indices are in bounds and strictly monotone.
  * `slices_meet`: the two slices at a bound make up the whole.
-/
import ChezziLang.Lib.I64
import Mathlib.Tactic.Linarith
import Mathlib.Tactic.Ring

namespace ChezziLang.Slice

open Function List Option

open Lib.I64

/-! ## The code -/

/-- How a call can stop without a result. -/
inductive Halt where
  | err (message : String)
  | panic
  deriving DecidableEq, Repr

/-- `norm_index`. -/
def normIndex (n : Int64) (len : Nat) : Option Nat :=
  let i := if n < 0 then n + Int64.ofNat len else n
  if 0 ≤ i ∧ i.toUInt64.toNat < len then some i.toUInt64.toNat else none

/-- The fields of a `Range` value, read for a slice. -/
structure RangeParts where
  start : Option Int64
  stop : Option Int64
  step : Int64
  inclusive : Bool

section

variable (a b : Int64)

/-- `a - b`, plain. -/
def sub : Except Halt Int64 :=
  match checked (a.toInt - b.toInt) with
  | some v => .ok v
  | none => .error .panic

def saturatingAdd : Int64 := Int64.ofIntClamp (a.toInt + b.toInt)

def saturatingSub : Int64 := Int64.ofIntClamp (a.toInt - b.toInt)

end

/-- `Ord::clamp`, which panics when the bounds cross. -/
def clamp (x lo hi : Int64) : Except Halt Int64 :=
  if hi < lo then .error .panic
  else .ok (if x < lo then lo else if hi < x then hi else x)

/-- A negative bound counts from the end. -/
def norm (n b : Int64) : Int64 := if b < 0 then saturatingAdd b n else b

/-- An inclusive end is one position further in the step's direction. -/
def pastEnd (up inclusive : Bool) (b : Int64) : Int64 :=
  if !inclusive then b
  else if up then saturatingAdd b 1
  else saturatingSub b 1

/-- Where the walk starts and where it stops. -/
def bounds (r : RangeParts) (n : Int64) : Except Halt (Int64 × Int64) := do
  let up := decide (r.step > 0)
  let last ← if up then pure n else sub n 1
  let first := if up then 0 else -1
  let lo ← clamp ((r.start.map (norm n)).getD (if up then 0 else last)) first last
  let hi ← clamp ((r.stop.map fun b => pastEnd up r.inclusive (norm n b)).getD
    (if up then n else -1)) first last
  return (lo, hi)

/-- The stepping loop; a step that overflows is past the end. -/
def walk (step hi : Int64) (hs : step ≠ 0) (i : Int64) : List Nat :=
  if h : (step > 0 ∧ i < hi) ∨ (¬ step > 0 ∧ i > hi) then
    i.toUInt64.toNat ::
      match hn : checked (i.toInt + step.toInt) with
      | some next => walk step hi hs next
      | none => []
  else []
termination_by (if step > 0 then hi.toInt - i.toInt else i.toInt - hi.toInt).toNat
decreasing_by
  have hnext := checked_eq_some_iff.mp hn
  have hne : step.toInt ≠ 0 := fun h0 => hs (Int64.toInt_inj.mp h0)
  have hpos : step > 0 ↔ 0 < step.toInt := Int64.lt_iff_toInt_lt
  simp only [hpos, GT.gt, Int64.lt_iff_toInt_lt] at h ⊢
  split <;> omega

/-- `range_indices`. -/
def rangeIndices (r : RangeParts) (len : Nat) : Except Halt (List Nat) :=
  if hs : r.step = 0 then .error (.err "slice step cannot be zero")
  else (bounds r (Int64.ofNat len)).map fun b => walk r.step b.2 hs b.1

/-! ## The exact functions -/

namespace CPython

/-- `slice(start, stop, step).indices(length)`, without the step. -/
def sliceIndices (start stop : Option Int) (step length : Int) : Int × Int :=
  let lower := if step < 0 then -1 else 0
  let upper := if step < 0 then length - 1 else length
  let position b := if b < 0 then max (b + length) lower else min b upper
  (start.elim (if step < 0 then upper else lower) position,
    stop.elim (if step < 0 then lower else upper) position)

/-- How many values `range(start, stop, step)` has. -/
def rangeLen (start stop step : Int) : Nat :=
  if 0 < step then ((stop - start + step - 1) / step).toNat
  else ((start - stop - step - 1) / (-step)).toNat

def range (start stop step : Int) : List Int :=
  (List.range (rangeLen start stop step)).map fun k : Nat => start + k * step

end CPython

/-- The end of an inclusive range, by the documented rules: a missing end is the last
    position, a negative one counts from the end, and only then it moves one position
    further in the step's direction and is clamped. -/
def inclusiveStop (stop : Option Int) (step length : Int) : Int :=
  let lower := if step < 0 then -1 else 0
  let upper := if step < 0 then length - 1 else length
  stop.elim (if step < 0 then lower else upper) fun b =>
    let b := if b < 0 then b + length else b
    let b := if step < 0 then b - 1 else b + 1
    max lower (min b upper)

/-! ## Ranges -/

namespace CPython

variable {start stop step : Int}

theorem ceil_step {d s : Int} (hs : 0 < s) (hd : 0 < d) :
    ((d + s - 1) / s).toNat = ((d - 1) / s).toNat + 1 := by
  have hnonneg : 0 ≤ (d - 1) / s := Int.ediv_nonneg (by omega) (by omega)
  rw [show d + s - 1 = d - 1 + 1 * s by ring, Int.add_mul_ediv_right _ _ (by omega)]
  omega

theorem rangeLen_zero (hs : step ≠ 0)
    (h : ¬ ((0 < step ∧ start < stop) ∨ (¬ 0 < step ∧ stop < start))) :
    rangeLen start stop step = 0 := by
  unfold rangeLen
  split
  · next hpos =>
    have : (stop - start + step - 1) / step < 1 := Int.ediv_lt_of_lt_mul hpos (by omega)
    omega
  · next hpos =>
    have : (start - stop - step - 1) / -step < 1 := Int.ediv_lt_of_lt_mul (by omega) (by omega)
    omega

/-- A range is its first value and the range from the next. -/
theorem range_cons (hs : step ≠ 0) (h : (0 < step ∧ start < stop) ∨ (¬ 0 < step ∧ stop < start)) :
    range start stop step = start :: range (start + step) stop step := by
  have hlen : rangeLen start stop step = rangeLen (start + step) stop step + 1 := by
    unfold rangeLen
    rcases h with ⟨hpos, hlt⟩ | ⟨hneg, hlt⟩
    · rw [if_pos hpos, if_pos hpos, ceil_step hpos (show 0 < stop - start by omega)]
      ring_nf
    · rw [if_neg hneg, if_neg hneg, show start - stop - step - 1 = start - stop + -step - 1 by ring,
        ceil_step (by omega) (by omega)]
      ring_nf
  rw [range, range, hlen, List.range_succ_eq_map, List.map_cons, List.map_map]
  congr 1
  · simp
  refine map_congr_left fun k _ => ?_
  simp only [comp_apply]
  push_cast
  ring

theorem range_nil (hs : step ≠ 0)
    (h : ¬ ((0 < step ∧ start < stop) ∨ (¬ 0 < step ∧ stop < start))) :
    range start stop step = [] := by
  rw [range, rangeLen_zero hs h]
  rfl

/-- Strictly monotone in the direction of the step. -/
theorem range_pairwise (start stop step) :
    (range start stop step).Pairwise fun a b => if 0 < step then a < b else step < 0 → b < a := by
  refine List.Pairwise.map _ (fun a b hab => ?_) pairwise_lt_range
  have hab : (a : Int) < b := by exact_mod_cast hab
  split
  · next hpos => nlinarith
  · intro hneg
    nlinarith

/-- Every value lies between the start and the stop. -/
theorem mem_range {v} (h : v ∈ range start stop step) :
    (0 < step → start ≤ v ∧ v < stop) ∧ (step < 0 → v ≤ start ∧ stop < v) := by
  obtain ⟨k, hk, rfl⟩ := mem_map.mp h
  have hk := List.mem_range.mp hk
  unfold rangeLen at hk
  have hk0 : (0 : Int) ≤ k := Int.natCast_nonneg k
  refine ⟨fun hpos => ?_, fun hneg => ?_⟩
  · rw [if_pos hpos] at hk
    have hlt : (k : Int) + 1 ≤ (stop - start + step - 1) / step := by omega
    have := (Int.le_ediv_iff_mul_le hpos).mp hlt
    constructor <;> nlinarith
  rw [if_neg (by omega)] at hk
  have hlt : (k : Int) + 1 ≤ (start - stop - step - 1) / -step := by omega
  have := (Int.le_ediv_iff_mul_le (show 0 < -step by omega)).mp hlt
  constructor <;> nlinarith

end CPython

/-! ## The code is exact -/

theorem toNat_toUInt64 {i : Int64} (h : 0 ≤ i.toInt) : (i.toUInt64.toNat : Int) = i.toInt := by
  have hdef : i.toInt = if 2 * i.toUInt64.toNat < 2 ^ 64 then (i.toUInt64.toNat : Int)
      else i.toUInt64.toNat - 2 ^ 64 := by
    exact_mod_cast BitVec.toInt_eq_toNat_cond i.toBitVec
  have hlt : i.toUInt64.toNat < 2 ^ 64 := i.toUInt64.toNat_lt
  split at hdef <;> omega

/-- The loop walks the exact range, as long as it stays at nonnegative indices. -/
theorem walk_eq (step hi) (hs : step ≠ 0) (i) (hup : 0 < step.toInt → 0 ≤ i.toInt)
    (hdown : step.toInt < 0 → -1 ≤ hi.toInt) :
    (walk step hi hs i).map Int.ofNat = CPython.range i.toInt hi.toInt step.toInt := by
  have hne : step.toInt ≠ 0 := fun h0 => hs (Int64.toInt_inj.mp h0)
  have hpos : step > 0 ↔ 0 < step.toInt := Int64.lt_iff_toInt_lt
  have hin : ∀ i : Int64, ((step > 0 ∧ i < hi) ∨ (¬ step > 0 ∧ i > hi)) ↔
      ((0 < step.toInt ∧ i.toInt < hi.toInt) ∨ (¬ 0 < step.toInt ∧ hi.toInt < i.toInt)) := by
    intro i
    simp only [hpos, GT.gt, Int64.lt_iff_toInt_lt]
  induction i using walk.induct step hi hs with
  | case1 i h ih =>
    have hexact := (hin i).mp h
    have hcast : (i.toUInt64.toNat : Int) = i.toInt := toNat_toUInt64 (by omega)
    rw [walk, dif_pos h, map_cons, CPython.range_cons hne hexact, Int.ofNat_eq_natCast, hcast]
    congr 1
    split
    · next next hnext =>
      have hval := checked_eq_some_iff.mp hnext
      rw [ih next hnext (by omega), hval]
    next hnone =>
    -- past what a machine integer holds is past the end
    have hfit := checked_eq_none_iff.mp hnone
    have h₁ := fits_toInt i
    have h2 := fits_toInt hi
    unfold Fits at hfit h₁ h2
    rw [CPython.range_nil hne (by omega)]
    rfl
  | case2 i h =>
    rw [walk, dif_neg h, CPython.range_nil hne (fun h' => h ((hin i).mpr h'))]
    rfl

theorem clamp_ok {x lo hi} (h : lo.toInt ≤ hi.toInt) :
    ∃ v, clamp x lo hi = .ok v ∧ v.toInt = max lo.toInt (min x.toInt hi.toInt) := by
  unfold clamp
  rw [if_neg (by rw [Int64.lt_iff_toInt_lt]; omega)]
  refine ⟨_, rfl, ?_⟩
  simp only [Int64.lt_iff_toInt_lt]
  split
  · omega
  · split <;> omega

theorem norm_toInt {n b} (hn : 0 ≤ n.toInt) :
    (norm n b).toInt = if b.toInt < 0 then b.toInt + n.toInt else b.toInt := by
  have hb := fits_toInt b
  have hn' := fits_toInt n
  unfold Fits at hb hn'
  have h0 : (0 : Int64).toInt = 0 := rfl
  unfold norm saturatingAdd
  simp only [Int64.lt_iff_toInt_lt, h0]
  split
  · rw [toInt_ofIntClamp]
    omega
  · rfl

/-- Saturation does not show once the bound is clamped. -/
theorem clamp_pastEnd {up inclusive b lo hi} (hlo : -1 ≤ lo) (hhi : hi < 2 ^ 63) :
    max lo (min (pastEnd up inclusive b).toInt hi) =
      max lo (min (if !inclusive then b.toInt else if up then b.toInt + 1 else b.toInt - 1) hi) := by
  have hb := fits_toInt b
  have h1 : (1 : Int64).toInt = 1 := rfl
  unfold pastEnd saturatingAdd saturatingSub
  split
  · rfl
  split
  · rw [toInt_ofIntClamp, h1]
    omega
  · rw [toInt_ofIntClamp, h1]
    omega

section
variable {start stop : Option Int64} {n lower upper : Int64} {step : Int} (hn : 0 ≤ n.toInt)
  (hl : lower.toInt = if step < 0 then -1 else 0)
  (hu : upper.toInt = if step < 0 then n.toInt - 1 else n.toInt)
include hn hl hu

/-- The clamped start. -/
theorem start_eq :
    max lower.toInt (min ((start.map (norm n)).getD (if step < 0 then upper else lower)).toInt
        upper.toInt) =
      (CPython.sliceIndices (start.map Int64.toInt) (stop.map Int64.toInt) step n.toInt).1 := by
  cases start with
  | none =>
    simp only [CPython.sliceIndices, map_none, getD_none, elim_none]
    split_ifs at hl hu ⊢ <;> omega
  | some b =>
    simp only [CPython.sliceIndices, map_some, getD_some, elim_some, norm_toInt hn]
    split_ifs at hl hu ⊢ <;> omega

/-- The clamped end. -/
theorem stop_eq (inclusive) :
    max lower.toInt (min ((stop.map fun b => pastEnd (!decide (step < 0)) inclusive (norm n b)).getD
        (if step < 0 then lower else upper)).toInt upper.toInt) =
      if inclusive then inclusiveStop (stop.map Int64.toInt) step n.toInt
      else (CPython.sliceIndices (start.map Int64.toInt) (stop.map Int64.toInt) step n.toInt).2 := by
  cases stop with
  | none =>
    simp only [CPython.sliceIndices, inclusiveStop, map_none, getD_none, elim_none]
    split_ifs at hl hu ⊢ <;> omega
  | some b =>
    have hlow : -1 ≤ lower.toInt := by split at hl <;> omega
    simp only [CPython.sliceIndices, inclusiveStop, map_some, getD_some, elim_some,
      clamp_pastEnd hlow upper.toInt_lt, norm_toInt hn]
    by_cases hs : step < 0 <;> cases inclusive <;>
      simp only [hs, if_true, if_false, decide_true, decide_false, Bool.not_true, Bool.not_false,
        Bool.false_eq_true] at hl hu ⊢ <;> split <;> omega

end

/-- The code's bounds are the exact ones, and nothing overflows on the way. -/
theorem bounds_ok (r) {n} (hn : 0 ≤ n.toInt) (hs : r.step ≠ 0) :
    ∃ lo hi, bounds r n = .ok (lo, hi) ∧
      lo.toInt = (CPython.sliceIndices (r.start.map Int64.toInt) (r.stop.map Int64.toInt)
        r.step.toInt n.toInt).1 ∧
      hi.toInt = if r.inclusive then inclusiveStop (r.stop.map Int64.toInt) r.step.toInt n.toInt
        else (CPython.sliceIndices (r.start.map Int64.toInt) (r.stop.map Int64.toInt)
          r.step.toInt n.toInt).2 := by
  have hne : r.step.toInt ≠ 0 := fun h0 => hs (Int64.toInt_inj.mp h0)
  have hup : decide (r.step > 0) = !decide (r.step.toInt < 0) := by
    rw [← decide_not, decide_eq_decide, gt_iff_lt, Int64.lt_iff_toInt_lt]
    change 0 < _ ↔ _
    omega
  have hfirst : (if r.step.toInt < 0 then -1 else 0 : Int64).toInt =
      if r.step.toInt < 0 then -1 else 0 := by split <;> rfl
  obtain ⟨last, hsub, hlast⟩ : ∃ last, (if !decide (r.step.toInt < 0) then pure n else sub n 1) =
      .ok last ∧ last.toInt = if r.step.toInt < 0 then n.toInt - 1 else n.toInt := by
    by_cases hneg : r.step.toInt < 0
    · have hfit : Fits (n.toInt - 1) := by
        have := fits_toInt n
        unfold Fits at this ⊢
        omega
      refine ⟨_, ?_, (toInt_ofInt_of_fits hfit).trans (if_pos hneg).symm⟩
      simp [hneg, sub, checked_of_fits hfit]
    · exact ⟨n, by simp [hneg]; rfl, (if_neg hneg).symm⟩
  have hle : (if r.step.toInt < 0 then -1 else 0 : Int64).toInt ≤ last.toInt := by
    rw [hfirst, hlast]
    split <;> omega
  obtain ⟨lo, hlo, hlov⟩ := @clamp_ok
    ((r.start.map (norm n)).getD (if r.step.toInt < 0 then last else _)) _ _ hle
  obtain ⟨hi, hhi, hhiv⟩ := @clamp_ok
    ((r.stop.map fun b => pastEnd (!decide (r.step.toInt < 0)) r.inclusive (norm n b)).getD
      (if r.step.toInt < 0 then _ else last)) _ _ hle
  refine ⟨lo, hi, ?_, hlov.trans (start_eq hn hfirst hlast),
    hhiv.trans (stop_eq hn hfirst hlast r.inclusive)⟩
  by_cases hneg : r.step.toInt < 0 <;>
    simp only [bounds, hup, hneg, decide_true, decide_false, Bool.not_true, Bool.not_false,
      Bool.false_eq_true, if_true, if_false] at hsub hlo hhi ⊢
  · simp only [hsub, bind, Except.bind, hlo, hhi]
    rfl
  · cases hsub
    simp only [pure_bind, hlo, hhi]
    rfl

/-- The exact bounds are positions of the sequence. -/
theorem exact_in_range {start stop step length x} (hlen : 0 ≤ length)
    (hx : x = (CPython.sliceIndices start stop step length).1 ∨
      x = (CPython.sliceIndices start stop step length).2 ∨ x = inclusiveStop stop step length) :
    (0 < step → 0 ≤ x ∧ x ≤ length) ∧ (step < 0 → -1 ≤ x ∧ x ≤ length - 1) := by
  simp only [CPython.sliceIndices, inclusiveStop] at hx
  obtain rfl | rfl | rfl := hx
  · cases start <;> simp only [elim_none, elim_some] <;> split_ifs <;> omega
  · cases stop <;> simp only [elim_none, elim_some] <;> split_ifs <;> omega
  · cases stop <;> simp only [elim_none, elim_some] <;> split_ifs <;> omega

/-- **Slices are exact.**  For every nonzero step and every length a machine integer
    can hold, the code returns: an exclusive range selects what `slice.indices` and
    `range` give, an inclusive one what they give with the end moved one further.  Every
    index is in bounds, and the indices go strictly in the direction of the step. -/
theorem range_indices_exact (r : RangeParts) (len : Nat) (hlen : len < 2 ^ 63)
    (hs : r.step ≠ 0) :
    ∃ out, rangeIndices r len = .ok out ∧
      (r.inclusive = false → out.map Int.ofNat =
        let idx := CPython.sliceIndices (r.start.map Int64.toInt) (r.stop.map Int64.toInt)
          r.step.toInt len
        CPython.range idx.1 idx.2 r.step.toInt) ∧
      (r.inclusive = true → out.map Int.ofNat =
        CPython.range (CPython.sliceIndices (r.start.map Int64.toInt) none r.step.toInt len).1
          (inclusiveStop (r.stop.map Int64.toInt) r.step.toInt len) r.step.toInt) ∧
      (∀ i ∈ out, i < len) ∧
      out.Pairwise fun i j => if 0 < r.step.toInt then i < j else j < i := by
  have hne : r.step.toInt ≠ 0 := fun h0 => hs (Int64.toInt_inj.mp h0)
  have hn : (Int64.ofNat len).toInt = len := Int64.toInt_ofNat_of_lt hlen
  have hn0 : 0 ≤ (Int64.ofNat len).toInt := by omega
  obtain ⟨lo, hi, hb, hlo, hhi⟩ := bounds_ok r hn0 hs
  rw [hn] at hlo hhi
  obtain ⟨hloUp, hloDown⟩ := exact_in_range (Int.natCast_nonneg len) (.inl hlo)
  obtain ⟨hhiUp, hhiDown⟩ := exact_in_range (x := hi.toInt) (Int.natCast_nonneg len)
    (.inr ((ite_eq_or_eq ..).symm.imp hhi.trans hhi.trans))
  have hwalk := walk_eq r.step hi hs lo (fun h => (hloUp h).1) fun h => (hhiDown h).1
  refine ⟨walk r.step hi hs lo, ?_, ?_, ?_, ?_, ?_⟩
  · rw [rangeIndices, dif_neg hs, hb]
    rfl
  · intro hinc
    rw [hwalk, hlo, hhi, hinc]
    rfl
  · intro hinc
    rw [hwalk, hlo, hhi, hinc]
    rfl
  · intro i hmem
    have hin : (i : Int) ∈ CPython.range lo.toInt hi.toInt r.step.toInt := by
      rw [← hwalk]
      exact mem_map.mpr ⟨i, hmem, rfl⟩
    obtain ⟨h₁, h2⟩ := CPython.mem_range hin
    rcases lt_or_gt_of_ne hne with hneg | hpos
    · have := (h2 hneg).1
      have := (hloDown hneg).2
      omega
    · have := (h₁ hpos).2
      have := (hhiUp hpos).2
      omega
  · have hpair := CPython.range_pairwise lo.toInt hi.toInt r.step.toInt
    rw [← hwalk, pairwise_map] at hpair
    refine hpair.imp fun {i j} hij => ?_
    simp only [Int.ofNat_eq_natCast, Int.ofNat_lt] at hij
    split
    · next hpos => rwa [if_pos hpos] at hij
    · next hpos =>
      rw [if_neg hpos] at hij
      exact hij (by omega)

/-- `xs[::-1]` over three elements. -/
theorem range_indices_exact_reversed :
    ∃ out, rangeIndices ⟨none, none, -1, false⟩ 3 = .ok out ∧
      out.map Int.ofNat = CPython.range 2 (-1) (-1) ∧ ∀ i ∈ out, i < 3 := by
  obtain ⟨out, hout, hex, -, hlt, -⟩ :=
    range_indices_exact ⟨none, none, -1, false⟩ 3 (by decide) (by decide)
  exact ⟨out, hout, hex rfl, hlt⟩

theorem CPython.range_append {a b c : Int} (hab : a ≤ b) (hbc : b ≤ c) :
    range a b 1 ++ range b c 1 = range a c 1 := by
  have hlen : ∀ x y, rangeLen x y 1 = (y - x).toNat := fun x y => by simp [rangeLen]
  have hsum : (c - a).toNat = (b - a).toNat + (c - b).toNat := by omega
  simp only [range, hlen, hsum, List.range_add, map_append, List.map_map, append_cancel_left_eq]
  refine map_congr_left fun k _ => ?_
  simp only [comp_apply]
  omega

theorem rangeIndices_one (start stop) {len} (hlen : len < 2 ^ 63) :
    ∃ out, rangeIndices ⟨start, stop, 1, false⟩ len = .ok out ∧ out.map Int.ofNat =
      uncurry (CPython.range · · 1)
        (CPython.sliceIndices (start.map Int64.toInt) (stop.map Int64.toInt) 1 len) := by
  have hn : (Int64.ofNat len).toInt = len := Int64.toInt_ofNat_of_lt hlen
  have hone : (1 : Int64) ≠ 0 := by decide
  obtain ⟨lo, hi, hb, hlo, hhi⟩ :=
    bounds_ok ⟨start, stop, 1, false⟩ (hn ▸ Int.natCast_nonneg len) hone
  rw [hn] at hlo hhi
  have hpos := (exact_in_range (Int.natCast_nonneg len) (.inl hlo)).1 Int.one_pos
  refine ⟨walk 1 hi hone lo, ?_, ?_⟩
  · rw [rangeIndices, dif_neg hone, hb]
    rfl
  · rw [walk_eq _ _ _ _ (fun _ => hpos.1) (fun h => absurd h (by decide)), hlo, hhi]
    rfl

/-- **A sequence is its two slices at any bound**. -/
theorem slices_meet (len : Nat) (hlen : len < 2 ^ 63) (b : Int64) :
    ∃ front back, rangeIndices ⟨none, some b, 1, false⟩ len = .ok front ∧
      rangeIndices ⟨some b, none, 1, false⟩ len = .ok back ∧ front ++ back = List.range len := by
  obtain ⟨front, hfront, hf⟩ := rangeIndices_one none (some b) hlen
  obtain ⟨back, hback, hb⟩ := rangeIndices_one (some b) none hlen
  refine ⟨front, back, hfront, hback, (List.map_inj_right fun _ _ => Int.ofNat.inj).mp ?_⟩
  have hmid : 0 ≤ (CPython.sliceIndices none (some b.toInt) 1 len).2 ∧ _ ≤ (len : Int) :=
    (exact_in_range (Int.natCast_nonneg len) (.inr (.inl rfl))).1 Int.one_pos
  rw [map_append, hf, hb]
  exact (CPython.range_append hmid.1 hmid.2).trans (by simp [CPython.range, CPython.rangeLen])

theorem slices_meet_far : ∃ front back, rangeIndices ⟨none, some (-7), 1, false⟩ 3 = .ok front ∧
    rangeIndices ⟨some (-7), none, 1, false⟩ 3 = .ok back ∧ front ++ back = List.range 3 :=
  slices_meet 3 (by decide) (-7)

end ChezziLang.Slice
