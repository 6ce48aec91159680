/-
  Ints as bytes: `int_to_bytes` and `int_from_bytes` of `vm/core_method.rs`.

  A conversion takes the low bytes of the 64-bit two's-complement word; the way back puts the
  sign, or zeroes, above them.

  Proved:
  * `int_bytes_round_trip`: an int is converted exactly when it fits, and each way undoes the
    other, for every length, signedness and byte order.
-/
import ChezziLang.Lib.I64
import Mathlib.Tactic.IntervalCases

namespace ChezziLang.Vm.IntBytes

open List

/-! ## Big-endian bytes -/

/-- The low `k` bytes of a number, the highest first. -/
def beBytes : Nat → Nat → List UInt8
  | 0, _ => []
  | k + 1, x => .ofNat (x / 256 ^ k) :: beBytes k x

def beValue : List UInt8 → Nat
  | [] => 0
  | b :: bs => b.toNat * 256 ^ bs.length + beValue bs

variable {k x : Nat} {bs : List UInt8}

theorem beBytes_length : (beBytes k x).length = k := by
  induction k with
  | zero => rfl
  | succ k ih => rw [beBytes, length_cons, ih]

theorem drop_beBytes (j) : (beBytes (j + k) x).drop j = beBytes k x := by
  induction j with
  | zero => rw [Nat.zero_add, drop_zero]
  | succ j ih => rw [Nat.succ_add, beBytes, drop_succ_cons, ih]

theorem beValue_beBytes : beValue (beBytes k x) = x % 256 ^ k := by
  induction k with
  | zero => rw [beBytes, beValue, Nat.pow_zero, Nat.mod_one]
  | succ k ih =>
    rw [beBytes, beValue, beBytes_length, ih, UInt8.toNat_ofNat', show 2 ^ 8 = 256 from rfl,
      Nat.mod_pow_succ, Nat.mul_comm, Nat.add_comm]

theorem beValue_append (as) : beValue (as ++ bs) = beValue as * 256 ^ bs.length + beValue bs := by
  induction as with
  | nil => simp [beValue]
  | cons a as ih =>
    rw [cons_append, beValue, ih, beValue, length_append, Nat.pow_add, Nat.add_mul, Nat.mul_assoc,
      Nat.add_assoc]

theorem beValue_lt : beValue bs < 256 ^ bs.length := by
  induction bs with
  | nil => decide
  | cons b bs ih =>
    have hb : b.toNat * 256 ^ bs.length ≤ 255 * 256 ^ bs.length :=
      Nat.mul_le_mul_right _ (Nat.le_of_lt_succ b.toNat_lt)
    rw [beValue, length_cons, Nat.pow_succ]
    omega

/-- Whatever stands above them, the low bytes are read back. -/
theorem beBytes_beValue (c) : beBytes bs.length (c * 256 ^ bs.length + beValue bs) = bs := by
  induction bs generalizing c with
  | nil => rfl
  | cons b bs ih =>
    have hx : c * 256 ^ (bs.length + 1) + (b.toNat * 256 ^ bs.length + beValue bs) =
        (c * 256 + b.toNat) * 256 ^ bs.length + beValue bs := by
      rw [Nat.pow_succ', Nat.add_mul, Nat.mul_assoc, Nat.add_assoc]
    rw [length_cons, beValue, hx, beBytes, ih, Nat.add_comm, Nat.add_mul_div_right _ _ (Nat.pow_pos (by decide)),
      Nat.div_eq_of_lt beValue_lt]
    congr 1
    apply UInt8.toNat_inj.mp
    have := b.toNat_lt
    rw [UInt8.toNat_ofNat']
    omega

/-! ## The two conversions -/

/-- The bytes in the asked-for order. -/
def inOrder (big : Bool) (bs : List UInt8) : List UInt8 := if big then bs else bs.reverse

/-- `fits` of `int_to_bytes`. -/
def fits (n : Int) (bits : Nat) (signed : Bool) : Bool :=
  if bits = 64 then true
  else if signed then -2 ^ (bits - 1) ≤ n ∧ n < 2 ^ (bits - 1)
  else n < 2 ^ bits

/-- `int_to_bytes`. -/
def intToBytes (name : String) (n len : Int64) (signed big : Bool) : Except String (List UInt8) :=
  if ¬ (1 ≤ len.toInt ∧ len.toInt ≤ 8) then .error s!"{name}: len must be 1 to 8, got {len}"
  else if signed = false ∧ n.toInt < 0 then .error s!"{name}: {n} is negative; pass signed=true"
  else
    let len' := len.toInt.toNat
    if !fits n.toInt (8 * len') signed then
      .error (s!"{name}: {n} does not fit in {len} " ++ if len = 1 then "byte" else "bytes")
    else
      -- `to_be_bytes`
      let be := beBytes 8 n.toUInt64.toNat
      .ok (inOrder big (be.drop (8 - len')))

/-- `int_from_bytes`. -/
def intFromBytes (name : String) (b : List UInt8) (signed big : Bool) : Except String Int64 :=
  if b.length > 8 then .error s!"{name}: {b.length} bytes is more than 8"
  else
    let be := inOrder big b
    let negative := signed && be.head?.any fun top => top &&& 0x80 != 0
    let buf := replicate (8 - be.length) (if negative then 0xff else 0) ++ be
    -- `from_be_bytes`
    let n := (UInt64.ofNat (beValue buf)).toInt64
    if signed = false ∧ n.toInt < 0 then
      .error s!"{name}: the value does not fit in int; pass signed=true"
    else .ok n

/-- `n` is one of the ints that `len` bytes can hold. -/
def Representable (n : Int) (len : Nat) (signed : Bool) : Prop :=
  if signed then -2 ^ (8 * len - 1) ≤ n ∧ n < 2 ^ (8 * len - 1) else 0 ≤ n ∧ n < 2 ^ (8 * len)

variable {name : String} {n : Int64} {signed big : Bool}

@[simp] theorem inOrder_inOrder : inOrder big (inOrder big bs) = bs := by
  cases big <;> simp [inOrder]

@[simp] theorem length_inOrder : (inOrder big bs).length = bs.length := by
  cases big <;> simp [inOrder]

/-! ## The bytes above -/

/-- A number of `k` bytes, with the sign or zeroes above them. -/
def extended (signed : Bool) (k v : Nat) : Nat :=
  (if signed && 128 * 256 ^ (k - 1) ≤ v then 256 ^ (8 - k) - 1 else 0) * 256 ^ k + v

theorem beValue_replicate (negative : Bool) (j) :
    beValue (replicate j (if negative then 0xff else 0)) = if negative then 256 ^ j - 1 else 0 := by
  induction j with
  | zero => cases negative <;> rfl
  | succ j ih =>
    have := Nat.pow_pos (n := j) (show 0 < 256 by decide)
    rw [replicate_succ, beValue, ih, length_replicate, Nat.pow_succ]
    cases negative
    · simp
    · simp only [if_true, UInt8.reduceToNat]
      omega

theorem highBit (b : UInt8) : b &&& 0x80 ≠ 0 ↔ 128 ≤ b.toNat := by
  have hb := b.toNat_lt
  have hand : (b &&& 0x80).toNat = b.toNat &&& 2 ^ 7 := UInt8.toNat_and b 0x80
  rw [Nat.and_two_pow, Nat.testBit_eq_decide_div_mod_eq] at hand
  rw [ne_eq, ← UInt8.toNat_inj, hand]
  simp
  omega

theorem head_any_highBit (hne : 1 ≤ bs.length) : (bs.head?.any fun top => top &&& 0x80 != 0) =
    decide (128 * 256 ^ (bs.length - 1) ≤ beValue bs) := by
  cases bs with
  | nil => cases hne
  | cons b bs =>
    have hv := @beValue_lt bs
    rw [head?_cons, Option.any_some, Bool.eq_iff_iff, bne_iff_ne, highBit, decide_eq_true_iff,
      beValue, length_cons, Nat.add_sub_cancel]
    refine ⟨fun h => Nat.le_add_right_of_le (Nat.mul_le_mul_right _ h), fun h => ?_⟩
    by_contra hlt
    have := Nat.mul_le_mul_right (256 ^ bs.length) (show b.toNat + 1 ≤ 128 by omega)
    rw [Nat.add_mul] at this
    omega

/-- The int of a word. -/
theorem toInt_eq (n : Int64) : n.toInt =
    if n.toUInt64.toNat < 2 ^ 63 then (n.toUInt64.toNat : Int) else n.toUInt64.toNat - 2 ^ 64 := by
  have h : n.toInt = if 2 * n.toUInt64.toNat < 2 ^ 64 then (n.toUInt64.toNat : Int)
      else n.toUInt64.toNat - (2 ^ 64 : Nat) := BitVec.toInt_eq_toNat_cond n.toBitVec
  rw [h]
  split <;> split <;> omega

/-- The ints that fit are those whose word is the extension of its low bytes. -/
theorem representable_iff (hk : 1 ≤ k) (hk' : k ≤ 8) (hx : n.toUInt64.toNat = x) :
    Representable n.toInt k signed ↔
      ¬ (signed = false ∧ n.toInt < 0) ∧ extended signed k (x % 256 ^ k) = x := by
  have hlt := n.toUInt64.toNat_lt
  have hn := toInt_eq n
  unfold Representable extended
  rw [hx] at hlt hn
  interval_cases k <;> cases signed <;> simp <;> split at hn <;> (try split) <;> omega

/-! ## Round trips -/

theorem fits_iff (hk' : k ≤ 8) : Representable n.toInt k signed ↔
    ¬ (signed = false ∧ n.toInt < 0) ∧ fits n.toInt (8 * k) signed = true := by
  have hn := Lib.I64.fits_toInt n
  unfold Lib.I64.Fits at hn
  unfold Representable fits
  by_cases h8 : k = 8
  · subst h8
    cases signed <;> simp <;> omega
  · cases signed <;> simp [show 8 * k ≠ 64 by omega]

theorem intToBytes_ok_iff {len} : intToBytes name n len signed big = .ok bs ↔
    (1 ≤ len.toInt ∧ len.toInt ≤ 8) ∧ Representable n.toInt len.toInt.toNat signed ∧
      bs = inOrder big (beBytes len.toInt.toNat n.toUInt64.toNat) := by
  unfold intToBytes
  by_cases h : 1 ≤ len.toInt ∧ len.toInt ≤ 8
  · have hdrop := @drop_beBytes len.toInt.toNat n.toUInt64.toNat (8 - len.toInt.toNat)
    rw [Nat.sub_add_cancel (by omega)] at hdrop
    rw [if_neg (not_not.mpr h), fits_iff (by omega)]
    dsimp only
    rw [hdrop]
    by_cases hneg : signed = false ∧ n.toInt < 0
    · simp [hneg]
    · cases fits n.toInt (8 * len.toInt.toNat) signed <;> simp [hneg, h, eq_comm]
  · simp [h]

theorem intFromBytes_ok_iff (hlen : bs.length = k) (hk : 1 ≤ k) (hk' : k ≤ 8) :
    intFromBytes name (inOrder big bs) signed big = .ok n ↔
      ¬ (signed = false ∧ n.toInt < 0) ∧ extended signed k (beValue bs) = n.toUInt64.toNat := by
  subst hlen
  have hlt := @beValue_lt (replicate (8 - bs.length)
    (if signed && 128 * 256 ^ (bs.length - 1) ≤ beValue bs then 0xff else 0) ++ bs)
  rw [length_append, length_replicate, Nat.sub_add_cancel hk'] at hlt
  simp only [intFromBytes, length_inOrder, inOrder_inOrder, if_neg (Nat.not_lt.mpr hk'),
    head_any_highBit hk, extended, ← beValue_replicate, ← beValue_append]
  generalize beValue _ = x at hlt ⊢
  have hword : x = n.toUInt64.toNat ↔ (UInt64.ofNat x).toInt64 = n := by
    constructor
    · rintro rfl
      rw [UInt64.ofNat_toNat]
      rfl
    · rintro rfl
      exact (UInt64.toNat_ofNat_of_lt hlt).symm
  rw [hword]
  constructor
  · intro h
    split at h
    · cases h
    · next hneg =>
      obtain rfl := Except.ok.inj h
      exact ⟨hneg, rfl⟩
  · rintro ⟨hneg, rfl⟩
    exact if_neg hneg

/-- **Each conversion undoes the other**, whatever the length, the signedness and the byte
    order; an int is converted exactly when it fits in 1 to 8 bytes. -/
theorem int_bytes_round_trip (name : String) (n len : Int64) (signed big : Bool) :
    ((∃ bs, intToBytes name n len signed big = .ok bs) ↔
      (1 ≤ len.toInt ∧ len.toInt ≤ 8) ∧ Representable n.toInt len.toInt.toNat signed) ∧
    (∀ bs, intToBytes name n len signed big = .ok bs → intFromBytes name bs signed big = .ok n) ∧
    ∀ bs : List UInt8, 1 ≤ bs.length → bs.length ≤ 8 → intFromBytes name bs signed big = .ok n →
      intToBytes name n (.ofNat bs.length) signed big = .ok bs := by
  refine ⟨by simp only [intToBytes_ok_iff, exists_and_left, exists_eq, and_true], ?_, ?_⟩
  · intro bs h
    obtain ⟨hlen, hrep, rfl⟩ := intToBytes_ok_iff.mp h
    rw [intFromBytes_ok_iff beBytes_length (by omega) (by omega), beValue_beBytes]
    exact (representable_iff (by omega) (by omega) rfl).mp hrep
  intro bs hk hk' h
  obtain ⟨be, rfl⟩ : ∃ be, bs = inOrder big be := ⟨_, inOrder_inOrder.symm⟩
  rw [length_inOrder] at hk hk' ⊢
  have hlen : (Int64.ofNat be.length).toInt = be.length := Int64.toInt_ofNat_of_lt (by omega)
  obtain ⟨hneg, hx⟩ := (intFromBytes_ok_iff rfl hk hk').mp h
  have hmod : n.toUInt64.toNat % 256 ^ be.length = beValue be := by
    rw [← hx, extended, Nat.mul_add_mod', Nat.mod_eq_of_lt beValue_lt]
  rw [intToBytes_ok_iff, hlen, Int.toNat_natCast, representable_iff hk hk' rfl, hmod]
  refine ⟨by omega, ⟨hneg, hx⟩, ?_⟩
  rw [← hx, extended, beBytes_beValue]

end ChezziLang.Vm.IntBytes
