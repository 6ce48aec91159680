/-
  The `str` operations of library code written in the language itself.

  A `str` is the list of its characters, and a function that returns `T!` is a run that ends with
  a value or with an error message.  Numbers are read and written in decimal.

  Proved:
  * `toUint_eq`: a run of digits is read as its value, if that fits.
  * `value_lt`: a run of digits is below the power of ten of its length.
  * `value_showNat`, `showNat_isDigit`: a number written out is digits that read as the number.
  * `padded_digits`, `value_padded`, `length_padded`: and so is a number padded with zeros.
  * `Meets.bind`, `Meets.ite`: what a run ends with, step by step.
-/
import ChezziLang.Stdlib.Int
import Mathlib.Data.Nat.Digits.Lemmas

namespace ChezziLang.Stdlib

open Lib.I64 List

abbrev Text := List Char

/-- What a function of type `T!` does: it ends with a value or an error message, or faults. -/
abbrev Fallible := ExceptT String Run

/-- `x[i..j]`, which is cut at the ends of `x`. -/
def slice (x : Text) (i j : Nat) : Text := (x.take j).drop i

/-- `xs[i]`. -/
def index {α : Type} (xs : List α) (i : Nat) : Run α :=
  match xs[i]? with
  | some x => .ok x
  | none => .error (.panic "list index out of range")

/-- The text of `x` in a message. -/
def quoted (before : String) (x : Text) (after : String) : String :=
  before ++ String.ofList x ++ after

/-- `s.pad_left(width, fill)` for a `fill` of one character. -/
def padLeft (x : Text) (width : Nat) (fill : Char) : Text := x.leftpad width fill

/-- `"{n}"`. -/
def showInt (n : Int) : Text :=
  if n < 0 then '-' :: Nat.toDigits 10 n.natAbs else Nat.toDigits 10 n.natAbs

/-- `all_digits`, and `_all_digits` of `std.duration`. -/
def allDigits (x : Text) : Bool :=
  if x.length = 0 then false else x.all fun c => !(c < '0' || c > '9')

/-- `to_uint`, and `_to_uint` of `std.duration`. -/
def toUint (x : Text) : Run Int :=
  x.foldlM (fun n c => do add (← mul n 10) ((c.toNat : Int) - 48)) 0

/-! ## Digits -/

variable {c : Char} {x : Text}

theorem isDigit_iff : (!(c < '0' || c > '9')) = true ↔ c.isDigit = true := by
  simp only [Char.isDigit, Bool.not_eq_true', Bool.or_eq_false_iff, decide_eq_false_iff_not,
    Bool.and_eq_true, decide_eq_true_eq, Char.lt_def, UInt32.not_lt, gt_iff_lt, ge_iff_le]

/-- Every character is a digit. -/
def Digits (x : Text) : Prop := ∀ c ∈ x, c.isDigit = true

instance (x : Text) : Decidable (Digits x) :=
  decidable_of_iff (x.all Char.isDigit = true) all_eq_true

theorem allDigits_iff : allDigits x = true ↔ x ≠ [] ∧ Digits x := by
  unfold allDigits Digits
  cases x with
  | nil => simp
  | cons c x =>
    rw [if_neg (by simp), all_eq_true]
    simp only [isDigit_iff, ne_eq, cons_ne_nil, not_false_eq_true, true_and]

theorem Digits.cons_iff : Digits (c :: x) ↔ c.isDigit = true ∧ Digits x := forall_mem_cons

theorem Digits.append_iff {y} : Digits (x ++ y) ↔ Digits x ∧ Digits y := forall_mem_append

/-- What a digit is worth. -/
theorem digit_bounds (h : c.isDigit = true) : 48 ≤ c.toNat ∧ c.toNat ≤ 57 := by
  simp only [Char.isDigit, Bool.and_eq_true, decide_eq_true_eq, ge_iff_le, UInt32.le_iff_toNat_le]
    at h
  exact h

/-- The value of a run of digits. -/
def value (x : Text) : Nat := Nat.ofDigitChars 10 x 0

@[simp] theorem value_nil : value [] = 0 := rfl

theorem value_append (x y) : value (x ++ y) = 10 ^ y.length * value x + value y := by
  rw [value, Nat.ofDigitChars_append, Nat.ofDigitChars_eq_ofDigitChars_zero]
  rfl

theorem value_replicate_zero (n) : value (replicate n '0') = 0 := by
  rw [value, Nat.ofDigitChars_replicate_zero, Nat.mul_zero]

theorem value_lt (h : Digits x) : value x < 10 ^ x.length := by
  induction x with
  | nil => decide
  | cons c x ih =>
    obtain ⟨hc, hx⟩ := Digits.cons_iff.mp h
    have hbounds := digit_bounds hc
    have hcons : value (c :: x) = 10 ^ x.length * value [c] + value x := value_append [c] x
    have hone : value [c] ≤ 9 := by
      change 10 * 0 + (c.toNat - 48) ≤ 9
      omega
    have hle := Nat.mul_le_mul_left (10 ^ x.length) hone
    have := ih hx
    rw [hcons, length_cons, Nat.pow_succ]
    omega

/-- The digits read so far only grow. -/
theorem le_ofDigitChars (x : Text) : ∀ n, n ≤ Nat.ofDigitChars 10 x n := by
  induction x with
  | nil => exact fun n => Nat.le_refl n
  | cons c x ih =>
    intro n
    rw [Nat.ofDigitChars_cons]
    have := ih (10 * n + (c.toNat - '0'.toNat))
    omega

theorem toUint_eq (hx : Digits x) (hfits : value x < 2 ^ 63) : toUint x = .ok (value x : Int) := by
  have hfold : ∀ (x : Text) (n : Nat), Digits x → Nat.ofDigitChars 10 x n < 2 ^ 63 →
      x.foldlM (fun n c => do add (← mul n 10) ((c.toNat : Int) - 48)) (n : Int) =
        (.ok (Nat.ofDigitChars 10 x n : Int) : Run Int) := by
    intro x
    induction x with
    | nil => exact fun n _ _ => rfl
    | cons c x ih =>
      intro n hx hfits
      obtain ⟨hc, hx⟩ := Digits.cons_iff.mp hx
      have hbounds := digit_bounds hc
      rw [Nat.ofDigitChars_cons, show '0'.toNat = 48 from rfl] at hfits ⊢
      have hle := le_ofDigitChars x (10 * n + (c.toNat - 48))
      have hmul : mul (n : Int) 10 = .ok ((n : Int) * 10) := mul_ok (by unfold Fits; omega)
      have hadd : add ((n : Int) * 10) ((c.toNat : Int) - 48) =
          .ok ((10 * n + (c.toNat - 48) : Nat) : Int) := by
        have hsum : (n : Int) * 10 + ((c.toNat : Int) - 48) =
            ((10 * n + (c.toNat - 48) : Nat) : Int) := by omega
        rw [add_ok (by unfold Fits; omega), hsum]
      rw [foldlM_cons, hmul, ok_bind, hadd, ok_bind]
      exact ih _ hx hfits
  exact hfold x 0 hx hfits

/-! ## Numbers written out -/

theorem showNat_isDigit (n) : Digits (Nat.toDigits 10 n) :=
  fun _ hc => Nat.isDigit_of_mem_toDigits (by decide) (by decide) hc

theorem value_showNat (n) : value (Nat.toDigits 10 n) = n :=
  Nat.ofDigitChars_toDigits (by decide) (by decide)

theorem showInt_natCast (n : Nat) : showInt n = Nat.toDigits 10 n := if_neg (by omega)

/-- A number padded with zeros. -/
def padded (n width : Nat) : Text := padLeft (showInt n) width '0'

theorem padded_eq (n width) : padded n width =
    replicate (width - (Nat.toDigits 10 n).length) '0' ++ Nat.toDigits 10 n := by
  rw [padded, showInt_natCast]
  rfl

theorem padded_digits (n width) : Digits (padded n width) := by
  rw [padded_eq, Digits.append_iff]
  refine ⟨?_, showNat_isDigit n⟩
  intro c hc
  rw [eq_of_mem_replicate hc]
  decide

theorem value_padded (n width) : value (padded n width) = n := by
  rw [padded_eq, value_append, value_replicate_zero, value_showNat, Nat.mul_zero, Nat.zero_add]

/-- A number of at most `k` digits padded to at most `k`. -/
theorem length_padded {n width k} (hk : 0 < k) (hn : n < 10 ^ k) (hw : width ≤ k) :
    width ≤ (padded n width).length ∧ (padded n width).length ≤ k := by
  have hlen : (Nat.toDigits 10 n).length ≤ k := (Nat.length_toDigits_le_iff (by decide) hk).mpr hn
  rw [padded_eq, length_append, length_replicate]
  omega

theorem padded_ne_nil (n width) : padded n width ≠ [] := by
  rw [padded_eq]
  intro h
  exact Nat.toDigits_ne_nil (append_eq_nil_iff.mp h).2

/-! ## Runs -/

section

variable {α β : Type} {P : α → Prop} {Q : β → Prop} {r : Fallible α}

theorem throw_bind (e) (f : α → Fallible β) : (throw e : Fallible α) >>= f = throw e := rfl

theorem lift_ok_bind (a) (f : α → Fallible β) :
    (liftM (.ok a : Run α) : Fallible α) >>= f = f a := rfl

/-- `r` ends with an error message, or with a value that has `P`. -/
def Meets (r : Fallible α) (P : α → Prop) : Prop :=
  (∃ e, r = throw e) ∨ ∃ a, r = pure a ∧ P a

theorem Meets.throw (e) : Meets (throw e : Fallible α) P := .inl ⟨e, rfl⟩

theorem Meets.pure {a} (h : P a) : Meets (Pure.pure a) P := .inr ⟨a, rfl, h⟩

theorem Meets.lift {x : Run α} {a} (hx : x = .ok a) (h : P a) : Meets (liftM x : Fallible α) P := by
  subst hx
  exact Meets.pure h

theorem Meets.bind {f} (hr : Meets r P) (hf : ∀ a, P a → Meets (f a) Q) : Meets (r >>= f) Q := by
  rcases hr with ⟨e, rfl⟩ | ⟨a, rfl, ha⟩
  · exact Meets.throw e
  · exact hf a ha

theorem Meets.ite {c} [Decidable c] {s} (hr : c → Meets r P) (hs : ¬ c → Meets s P) :
    Meets (if c then r else s) P := by
  split
  · next h => exact hr h
  · next h => exact hs h

theorem Meets.total (h : Meets r P) : ∃ x, r.run = .ok x := by
  rcases h with ⟨e, rfl⟩ | ⟨a, rfl, _⟩
  · exact ⟨.error e, rfl⟩
  · exact ⟨.ok a, rfl⟩

end

end ChezziLang.Stdlib
