/-
  `std.rand`: the generator and `int` of `native/rand.rs`.

  The generator is SplitMix64; `rand.int` draws until the draw is below the largest multiple of
  the range.  The number of draws is not bounded in the source, so that `int` has fuel here, and
  some fuel is always enough.

  Proved:
  * `mix_bijective`, `advance_iterate`: every 64-bit draw comes once in a period.
  * `rand_int_uniform`: `rand.int` ends in its range, each value of which has the same number of
    draws.
-/
import ChezziLang.Lib.I64
import Mathlib.Data.FinEnum
import Mathlib.Data.Int.CardIntervalMod

namespace ChezziLang.Stdlib.Rand

open Function

def gamma : UInt64 := 0x9E3779B97F4A7C15

/-- What `next_u64` does to the state. -/
def advance (s : UInt64) : UInt64 := s + gamma

/-- What `next_u64` makes of the new state. -/
def mix (z : UInt64) : UInt64 :=
  let z := (z ^^^ (z >>> 30)) * 0xBF58476D1CE4E5B9
  let z := (z ^^^ (z >>> 27)) * 0x94D049BB133111EB
  z ^^^ (z >>> 31)

/-- `next_u64`: the draw and the state after it. -/
def nextU64 (s : UInt64) : UInt64 × UInt64 := (mix (advance s), advance s)

/-- `range`, for `lo < hi`. -/
def range (lo hi : Int64) : UInt64 := .ofNat (hi.toInt - lo.toInt).toNat

def zone (lo hi : Int64) : UInt64 := 0xFFFFFFFFFFFFFFFF - 0xFFFFFFFFFFFFFFFF % range lo hi

/-- The loop of `int`. -/
def drawBelow (zone : UInt64) : Nat → UInt64 → Option (UInt64 × UInt64)
  | 0, _ => none
  | fuel + 1, s =>
    let (r, s) := nextU64 s
    if r < zone then some (r, s) else drawBelow zone fuel s

/-- The value of an accepted draw. -/
def pick (lo hi : Int64) (r : UInt64) : Int64 := lo + (r % range lo hi).toInt64

/-- `int`. -/
def int (lo hi : Int64) (fuel : Nat) (s : UInt64) : Option (Except String Int64 × UInt64) :=
  if hi ≤ lo then some (.error "rand.int(lo, hi): hi must be > lo", s)
  else (drawBelow (zone lo hi) fuel s).map fun (r, s) => (.ok (pick lo hi r), s)

/-! ## The generator -/

theorem xorshift_injective {k : UInt64} (hk : (k.toBitVec % 64).toNat ≠ 0) :
    Injective fun z : UInt64 => z ^^^ (z >>> k) := by
  intro x y h
  -- from the highest bit down
  have hbit : ∀ d i, 64 ≤ i + d → x.toBitVec.getLsbD i = y.toBitVec.getLsbD i := by
    intro d
    induction d with
    | zero =>
      intro i hi
      rw [BitVec.getLsbD_of_ge _ i hi, BitVec.getLsbD_of_ge _ i hi]
    | succ d ih =>
      intro i hi
      have hi' := congrArg (fun z : UInt64 => z.toBitVec.getLsbD i) h
      simp only [UInt64.toBitVec_xor, UInt64.toBitVec_shiftRight, BitVec.getLsbD_xor,
        BitVec.ushiftRight_eq', BitVec.getLsbD_ushiftRight] at hi'
      rw [ih ((k.toBitVec % 64).toNat + i) (by omega)] at hi'
      exact Bool.xor_left_inj.mp hi'
  exact UInt64.toBitVec_inj.mp (BitVec.eq_of_getLsbD_eq fun i _ => hbit 64 i (by omega))

theorem mul_injective {c d : UInt64} (h : c * d = 1) : Injective (· * c) := by
  intro x y hxy
  have := congrArg (· * d) hxy
  simpa only [UInt64.mul_assoc, h, UInt64.mul_one] using this

theorem mix_bijective : Bijective mix := by
  refine Finite.injective_iff_bijective.mp ?_
  have h1 := (mul_injective (c := 0xBF58476D1CE4E5B9) (d := 0x96DE1B173F119089) (by decide)).comp
    (xorshift_injective (k := 30) (by decide))
  have h2 := (mul_injective (c := 0x94D049BB133111EB) (d := 0x319642B2D24D8EC3) (by decide)).comp
    (xorshift_injective (k := 27) (by decide))
  exact ((xorshift_injective (k := 31) (by decide)).comp h2).comp h1

theorem advance_iterate (n s) : advance^[n] s = s + .ofNat n * gamma := by
  induction n with
  | zero => simp
  | succ n ih =>
    rw [iterate_succ_apply', ih, advance, UInt64.ofNat_add]
    grind

/-- From any state, each state is reached in one number of steps below the period. -/
theorem exists_unique_advance (s t) : ∃! n, n < 2 ^ 64 ∧ advance^[n] s = t := by
  have hinv : gamma * 0xF1DE83E19937733D = 1 := by decide
  simp only [advance_iterate]
  refine ⟨((t - s) * 0xF1DE83E19937733D).toNat, ⟨UInt64.toNat_lt _, ?_⟩, ?_⟩
  · rw [UInt64.ofNat_toNat]
    grind
  · rintro n ⟨hn, rfl⟩
    have hcancel : (s + .ofNat n * gamma - s) * 0xF1DE83E19937733D = UInt64.ofNat n := by grind
    rw [hcancel, UInt64.toNat_ofNat_of_lt' hn]

theorem nextU64_iterate (n s) : (nextU64 (advance^[n] s)).1 = mix (advance^[n] (advance s)) :=
  congrArg mix ((iterate_succ_apply' ..).symm.trans (iterate_succ_apply ..))

/-- Over a full period every draw occurs exactly once. -/
theorem exists_unique_draw (s r) : ∃! n, n < 2 ^ 64 ∧ (nextU64 (advance^[n] s)).1 = r := by
  obtain ⟨t, rfl⟩ := mix_bijective.surjective r
  simp only [nextU64_iterate, mix_bijective.injective.eq_iff]
  exact exists_unique_advance _ _

theorem drawBelow_finds {zone n s} (h : (nextU64 (advance^[n] s)).1 < zone) :
    ∃ p, drawBelow zone (n + 1) s = some p := by
  induction n generalizing s with
  | zero => exact ⟨_, if_pos h⟩
  | succ n ih =>
    rw [drawBelow]
    dsimp only
    split
    · exact ⟨_, rfl⟩
    · exact ih (by rwa [iterate_succ_apply] at h)

/-! ## The range -/

section

variable {lo hi : Int64} (h : lo.toInt < hi.toInt)
include h

theorem range_toNat : ((range lo hi).toNat : Int) = hi.toInt - lo.toInt := by
  have hlo := Lib.I64.fits_toInt lo
  have hhi := Lib.I64.fits_toInt hi
  unfold Lib.I64.Fits at hlo hhi
  rw [range, UInt64.toNat_ofNat', Nat.mod_eq_of_lt (by omega)]
  omega

theorem pick_toInt (r) : (pick lo hi r).toInt = lo.toInt + (r.toNat % (range lo hi).toNat : Nat) := by
  have hrange := range_toNat h
  have hlo := Lib.I64.fits_toInt lo
  have hhi := Lib.I64.fits_toInt hi
  unfold Lib.I64.Fits at hlo hhi
  have hlt := Nat.mod_lt r.toNat (show 0 < (range lo hi).toNat by omega)
  have hcast : (r % range lo hi).toInt64.toInt =
      ((r.toNat % (range lo hi).toNat : Nat) : Int).bmod (2 ^ 64) := by
    rw [← UInt64.toNat_mod]
    exact BitVec.toInt_eq_toNat_bmod _
  rw [pick, Int64.toInt_add, hcast, Int.add_bmod_bmod, Int.bmod_eq_of_le (by omega) (by omega)]

/-- The zone is a multiple of the range, and more than half of the draws. -/
theorem zone_toNat : (range lo hi).toNat ∣ (zone lo hi).toNat ∧ 2 ^ 64 ≤ 2 * (zone lo hi).toNat := by
  have hrange := range_toNat h
  have hlt := UInt64.toNat_lt (range lo hi)
  have hmod := Nat.mod_lt (2 ^ 64 - 1) (show 0 < (range lo hi).toNat by omega)
  have hzone : (zone lo hi).toNat = 2 ^ 64 - 1 - (2 ^ 64 - 1) % (range lo hi).toNat := by
    rw [zone, UInt64.toNat_sub_of_le]
    · rw [UInt64.toNat_mod]; rfl
    · rw [UInt64.le_iff_toNat_le, UInt64.toNat_mod]
      exact Nat.mod_le _ _
  rw [hzone]
  refine ⟨Nat.dvd_sub_mod _, ?_⟩
  have hdiv := Nat.div_add_mod (2 ^ 64 - 1) (range lo hi).toNat
  have hquot := Nat.le_mul_of_pos_right (range lo hi).toNat
    (Nat.div_pos (show (range lo hi).toNat ≤ 2 ^ 64 - 1 by omega) (by omega))
  omega

end

theorem count_below {p q : Nat → Prop} [DecidablePred p] [DecidablePred q] {z n} (hz : z ≤ n)
    (h : ∀ r < n, p r ↔ r < z ∧ q r) : Nat.count p n = Nat.count q z := by
  rw [Nat.count_eq_card_filter_range, Nat.count_eq_card_filter_range]
  congr 1
  ext r
  simp only [Finset.mem_filter, Finset.mem_range]
  exact ⟨fun hr => (h r hr.1).mp hr.2, fun hr => ⟨hr.1.trans_le hz, (h r (hr.1.trans_le hz)).mpr hr⟩⟩

/-- **`rand.int` is uniform on `[lo, hi)`.**  It ends, in the range, and each value of the range
    is that of the same number of accepted draws, which are at least half of all draws; and the
    generator goes through all states and gives every draw once in a period. -/
theorem rand_int_uniform (lo hi : Int64) :
    (lo < hi →
      (∀ s, ∃ fuel v s', int lo hi fuel s = some (.ok v, s')) ∧
      (∀ fuel s v s', int lo hi fuel s = some (.ok v, s') → lo ≤ v ∧ v < hi) ∧
      (∀ v, lo ≤ v → v < hi →
        Nat.count (fun r => .ofNat r < zone lo hi ∧ pick lo hi (.ofNat r) = v) (2 ^ 64) =
          (zone lo hi).toNat / (range lo hi).toNat) ∧
      2 ^ 64 ≤ 2 * Nat.count (fun r => .ofNat r < zone lo hi) (2 ^ 64)) ∧
    (∀ s t, ∃! n, n < 2 ^ 64 ∧ advance^[n] s = t) ∧ Bijective mix ∧
    ∀ s r, ∃! n, n < 2 ^ 64 ∧ (nextU64 (advance^[n] s)).1 = r := by
  refine ⟨fun hlt => ?_, exists_unique_advance, mix_bijective, exists_unique_draw⟩
  have h := Int64.lt_iff_toInt_lt.mp hlt
  have hint : ∀ fuel s, int lo hi fuel s =
      (drawBelow (zone lo hi) fuel s).map fun (r, s) => (.ok (pick lo hi r), s) :=
    fun fuel s => if_neg (by rw [Int64.le_iff_toInt_le]; omega)
  obtain ⟨hdvd, hhalf⟩ := zone_toNat h
  have hrange := range_toNat h
  have hbelow : ∀ r < 2 ^ 64, UInt64.ofNat r < zone lo hi ↔ r < (zone lo hi).toNat := by
    intro r hr
    rw [UInt64.lt_iff_toNat_lt, UInt64.toNat_ofNat', Nat.mod_eq_of_lt hr]
  refine ⟨fun s => ?_, fun fuel s v s' hv => ?_, fun v hv hv' => ?_, ?_⟩
  · obtain ⟨n, ⟨-, hn⟩, -⟩ := exists_unique_draw s 0
    have hpos : (nextU64 (advance^[n] s)).1 < zone lo hi := by
      rw [hn, UInt64.lt_iff_toNat_lt]
      exact (show 0 < (zone lo hi).toNat by omega)
    obtain ⟨⟨r, s'⟩, hr⟩ := drawBelow_finds hpos
    exact ⟨n + 1, _, s', by rw [hint, hr]; rfl⟩
  · rw [hint] at hv
    obtain ⟨⟨r, s''⟩, -, hr⟩ := Option.map_eq_some_iff.mp hv
    cases hr
    have hpick := pick_toInt h r
    have hmod := Nat.mod_lt r.toNat (show 0 < (range lo hi).toNat by omega)
    rw [Int64.le_iff_toInt_le, Int64.lt_iff_toInt_lt]
    omega
  · rw [Int64.le_iff_toInt_le] at hv
    rw [Int64.lt_iff_toInt_lt] at hv'
    have hd : (v.toInt - lo.toInt).toNat < (range lo hi).toNat := by omega
    rw [count_below (z := (zone lo hi).toNat) (q := (· ≡ (v.toInt - lo.toInt).toNat
      [MOD (range lo hi).toNat])) (UInt64.toNat_lt _).le,
      Nat.count_modEq_card _ (by omega), Nat.mod_eq_zero_of_dvd hdvd, if_neg (Nat.not_lt_zero _)]
    · rfl
    intro r hr
    have hpick := pick_toInt h (.ofNat r)
    rw [UInt64.toNat_ofNat', Nat.mod_eq_of_lt hr] at hpick
    rw [hbelow r hr, Nat.ModEq, Nat.mod_eq_of_lt hd, ← Int64.toInt_inj, hpick]
    refine and_congr_right fun _ => ?_
    omega
  · rw [count_below (q := fun _ => True) (UInt64.toNat_lt (zone lo hi)).le fun r hr => ?_]
    · rwa [Nat.count_true]
    · rw [hbelow r hr, and_true]

end ChezziLang.Stdlib.Rand
