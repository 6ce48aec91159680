/-
  The index of a map or set finds every entry.

  `Holds` says how a table of slot words stores a list of cached hashes: linear-probing
  chains (`Lib.Probe`) whose homes are the first slots of the hashes, each slot word naming
  its entry, every other slot empty. `Indexed` adds the load bound. Each operation keeps
  `Indexed` (`build_indexed`, `insert_indexed`), and `Indexed` reads back as
  `candidates_eq`: the probe for `h` yields the positions of the entries with cached hash
  `h`, each once, ascending. `map_candidates` and `set_candidates` are the statements over
  whole runs.
-/
import ChezziLang.Lib.Probe
import ChezziLang.Vm.MapData

namespace ChezziLang.Vm.HashIndex

open ChezziLang.Lib.Probe Function List Option Table

/-! ## Slot words -/

/-- The most entries a table holds: positions `0 .. 2^40 - 2`. -/
def maxLen : Nat := 2 ^ 40 - 1

theorem posMask_toNat : posMask.toNat = 2 ^ 40 - 1 := by decide

theorem and_posMask (s) : (s &&& posMask).toNat = s.toNat % 2 ^ 40 := by
  rw [BitVec.toNat_and, posMask_toNat, Nat.and_two_pow_sub_one_eq_mod]

theorem place_tag_lt (h : Word) (cap) : (place h cap).2.toNat < 2 ^ 24 := by
  unfold place
  simp only [BitVec.toNat_ushiftRight, Nat.shiftRight_eq_div_pow]
  have := (h * spread <<< trailingZeros cap).isLt
  unfold tagBits posBits
  omega

variable {pos b cap : Nat} {hashes v : List Word} {slotOf : Nat → Nat}

/-- The word of entry `pos` with tag `tag`, as a number. -/
theorem slotWord_toNat {tag : Word} (ht : tag.toNat < 2 ^ 24) (hp : pos + 1 < 2 ^ 40) :
    (tag <<< posBits ||| BitVec.ofNat 64 (pos + 1)).toNat = tag.toNat * 2 ^ 40 + (pos + 1) := by
  have h1 : (tag <<< posBits).toNat = tag.toNat * 2 ^ 40 := by
    rw [BitVec.toNat_shiftLeft, Nat.shiftLeft_eq]
    unfold posBits
    rw [Nat.mod_eq_of_lt (by omega)]
  have h2 : (BitVec.ofNat 64 (pos + 1)).toNat = pos + 1 := by
    rw [BitVec.toNat_ofNat, Nat.mod_eq_of_lt (by omega)]
  rw [BitVec.toNat_or, h1, h2, Nat.mul_comm, ← Nat.two_pow_add_eq_or_of_lt hp]

/-- The slot word of hash `h` at position `pos` in a table of `cap` slots. -/
def wordOf (cap : Nat) (h : Word) (pos : Nat) : Word :=
  (place h cap).2 <<< posBits ||| BitVec.ofNat 64 (pos + 1)

theorem slotWord_ok (h : Word) (hp : pos < maxLen) :
    slotWord (place h cap).2 pos = .ok (wordOf cap h pos) := by
  unfold slotWord
  rw [if_neg (by rw [posMask_toNat]; unfold maxLen at hp; omega)]
  rfl

theorem slotWord_error {tag} (hp : maxLen ≤ pos) : slotWord tag pos = .error .capacityOverflow := by
  unfold slotWord
  rw [if_pos (by rw [posMask_toNat]; unfold maxLen at hp; omega)]

theorem wordOf_toNat (h : Word) (hp : pos < maxLen) :
    (wordOf cap h pos).toNat = (place h cap).2.toNat * 2 ^ 40 + (pos + 1) :=
  slotWord_toNat (place_tag_lt h cap) (by unfold maxLen at hp; omega)

theorem wordOf_ne_zero (h : Word) (hp : pos < maxLen) : wordOf cap h pos ≠ 0 := by
  intro he
  have hw : (wordOf cap h pos).toNat = _ := wordOf_toNat h hp
  rw [he, show (0 : Word).toNat = 0 from rfl] at hw
  omega

theorem wordPos_wordOf (h : Word) (hp : pos < maxLen) :
    Candidates.wordPos (wordOf cap h pos) = pos := by
  have hw : (wordOf cap h pos).toNat = _ := wordOf_toNat h hp
  have hm := and_posMask (wordOf cap h pos)
  unfold maxLen at hp
  have hmod : (wordOf cap h pos &&& posMask).toNat = pos + 1 := by omega
  unfold Candidates.wordPos
  rw [BitVec.toNat_sub, hmod]
  have h1 : (1 : Word).toNat = 1 := rfl
  rw [h1]
  omega

theorem wordOf_tag (h : Word) (hp : pos < maxLen) :
    wordOf cap h pos >>> posBits = (place h cap).2 := by
  apply BitVec.eq_of_toNat_eq
  rw [BitVec.toNat_ushiftRight, Nat.shiftRight_eq_div_pow, wordOf_toNat h hp]
  unfold posBits
  unfold maxLen at hp
  omega

/-! ## Capacities -/

theorem trailingZeros_two_pow (hb : b < 64) : trailingZeros (2 ^ b) = b := by
  unfold trailingZeros
  have h : (range 64).find? (fun i => (2 ^ b).testBit i) = some b := by
    rw [find?_range_eq_some]
    refine ⟨by simp, mem_range.mpr hb, fun j hj => ?_⟩
    simp [Nat.testBit_two_pow]
    omega
  rw [h, getD_some]

/-- The first slot of a hash lies in the table. -/
theorem place_start_lt (h : Word) (hb : b < 64) : (place h (2 ^ b)).1 < 2 ^ b := by
  unfold place
  simp only [trailingZeros_two_pow hb, BitVec.toNat_ushiftRight, Nat.shiftRight_eq_div_pow]
  have hx := (h * spread).isLt
  rw [Nat.div_lt_iff_lt_mul (Nat.two_pow_pos _), ← Nat.pow_add]
  have : b + (64 - b) = 64 := by omega
  rw [this]
  exact hx

variable {n : Nat}

theorem nextPowerOfTwo_spec (hn : n ≤ 2 ^ 63) : ∃ b ≤ 63, nextPowerOfTwo n = 2 ^ b ∧ n ≤ 2 ^ b := by
  unfold nextPowerOfTwo
  rcases h : (range 64).find? (fun b => decide (n ≤ 2 ^ b)) with _ | b
  · have := find?_eq_none.mp h 63 (by decide)
    simp only [decide_eq_true_eq] at this
    omega
  have hs := find?_some h
  have hm := mem_range.mp (mem_of_find?_eq_some h)
  refine ⟨b, by omega, by rw [getD_some], ?_⟩
  simpa using hs

/-- A table for `n` entries is a power of two of at least 8 slots, at most half full. -/
theorem tableCap_spec (hn : n ≤ 2 ^ 62) :
    ∃ b, 3 ≤ b ∧ b ≤ 63 ∧ tableCap n = 2 ^ b ∧ 2 * n ≤ 2 ^ b := by
  have hd : saturatingDouble n = n * 2 := by
    unfold saturatingDouble
    omega
  obtain ⟨b, hb, he, hle⟩ := nextPowerOfTwo_spec (n := n * 2) (by omega)
  unfold tableCap
  rw [hd, he]
  rcases Nat.lt_or_ge b 3 with h3 | h3
  · have : 2 ^ b ≤ 2 ^ 3 := Nat.pow_le_pow_right (by omega) (by omega)
    exact ⟨3, le_rfl, by omega, by omega, by omega⟩
  · refine ⟨b, h3, hb, ?_, by omega⟩
    have : 2 ^ 3 ≤ 2 ^ b := Nat.pow_le_pow_right (by omega) h3
    omega

/-! ## The invariant -/

/-- The home of entry `p` in a table of `2^b` slots. -/
def homeOf (b : Nat) (hashes : List Word) (p : Nat) : Nat := (place (hashes.getD p 0) (2 ^ b)).1

/-- The table `v` of `2^b` slots stores the entries hashed `hashes`, entry `p` in slot
    `slotOf p`. -/
structure Holds (b : Nat) (hashes : List Word) (slotOf : Nat → Nat) (v : List Word) : Prop where
  len : v.length = 2 ^ b
  fits : hashes.length ≤ maxLen
  chains : Chains (2 ^ b) hashes.length (homeOf b hashes) slotOf
  full : ∀ p < hashes.length, v.getD (slotOf p) 0 = wordOf (2 ^ b) (hashes.getD p 0) p
  rest : ∀ j, ¬ Taken hashes.length slotOf j → v.getD j 0 = 0

theorem holds_replicate (b slotOf) : Holds b [] slotOf (replicate (2 ^ b) 0) where
  len := length_replicate
  fits := by simp
  chains := Chains.empty _ _ _
  full := by intro p hp; simp at hp
  rest := by
    intro j _
    rw [getD_eq_getElem?_getD, getElem?_replicate]
    split <;> rfl

/-- A slot is full exactly when an entry sits in it. -/
theorem Holds.empty_iff (hv : Holds b hashes slotOf v) (j) :
    v.getD j 0 = 0 ↔ ¬ Taken hashes.length slotOf j := by
  constructor
  · rintro h ⟨p, hp, rfl⟩
    rw [hv.full p hp] at h
    exact wordOf_ne_zero _ (hp.trans_le hv.fits) h
  · exact hv.rest j

/-- `firstEmpty` walks over full slots to the first empty one. -/
theorem firstEmpty_eq (hlen : v.length = 2 ^ b) : ∀ (k fuel i : Nat), i < 2 ^ b → k < fuel →
      (∀ k' < k, v.getD ((i + k') % 2 ^ b) 0 ≠ 0) → v.getD ((i + k) % 2 ^ b) 0 = 0 →
      firstEmpty v fuel i = some ((i + k) % 2 ^ b)
  | 0, fuel + 1, i, hi, _, _, hz => by
      rw [Nat.add_zero, Nat.mod_eq_of_lt hi] at hz
      rw [firstEmpty, if_pos hz, Nat.add_zero, Nat.mod_eq_of_lt hi]
  | k + 1, fuel + 1, i, hi, hk, hnz, hz => by
      have h0 := hnz 0 (by omega)
      rw [Nat.add_zero, Nat.mod_eq_of_lt hi] at h0
      rw [firstEmpty, if_neg h0, hlen, succ_land_mask]
      have ih := firstEmpty_eq hlen k fuel ((i + 1) % 2 ^ b) (Nat.mod_lt _ (Nat.two_pow_pos b))
        (by omega) (fun k' hk' => by rw [walk_succ]; exact hnz (k' + 1) (by omega))
        (by rw [walk_succ]; exact hz)
      rw [ih, walk_succ]

/-- The probe for the next entry finds an empty slot whenever the table is not full, and
    writing the entry there keeps `Holds`. -/
theorem Holds.push (hv : Holds b hashes slotOf v) (hb : b ≤ 63) (h : Word)
    (hroom : hashes.length < 2 ^ b) :
    ∃ i, firstEmpty v (2 ^ b) (place h (2 ^ b)).1 = some i ∧ (hashes.length < maxLen →
      ∃ slotOf', Holds b (hashes ++ [h]) slotOf' (v.set i (wordOf (2 ^ b) h hashes.length))) := by
  have hs := place_start_lt h (b := b) (by omega)
  obtain ⟨k, hk, hfree, hbefore⟩ := exists_first_free slotOf hroom hs
  refine ⟨_, firstEmpty_eq hv.len k _ _ hs hk (fun k' hk' hz => (hv.empty_iff _).mp hz
    (hbefore k' hk')) ((hv.empty_iff _).mpr hfree), fun hfit => ?_⟩
  have hchains := hv.chains.extend hs hk hfree hbefore
  have hin := Nat.mod_lt ((place h (2 ^ b)).1 + k) (Nat.two_pow_pos b)
  revert hchains hin hfree
  generalize ((place h (2 ^ b)).1 + k) % 2 ^ b = i
  refine fun hfree hchains hin => ⟨update slotOf hashes.length i, ?_⟩
  have hlen : (hashes ++ [h]).length = hashes.length + 1 := by simp
  have hold : ∀ p < hashes.length, (hashes ++ [h]).getD p 0 = hashes.getD p 0 :=
    fun p hp => getD_append _ _ _ _ hp
  have hnew : (hashes ++ [h]).getD hashes.length 0 = h := by simp
  have hslot : ∀ p < hashes.length, update slotOf hashes.length i p = slotOf p :=
    fun p hp => update_of_ne (by omega) _ _
  constructor
  · rw [length_set, hv.len]
  · rw [hlen]; omega
  · rw [hlen]
    refine hchains.congr ?_
    intro p hp
    unfold homeOf
    rcases Nat.lt_succ_iff_lt_or_eq.mp hp with hp | rfl
    · rw [update_of_ne (by omega), hold p hp]
    · rw [update_self, hnew]
  · intro p hp
    rw [hlen] at hp
    rcases Nat.lt_succ_iff_lt_or_eq.mp hp with hp | rfl
    · have hne : i ≠ slotOf p := fun he => hfree ⟨p, hp, he.symm⟩
      rw [hslot p hp, hold p hp, getD_eq_getElem?_getD, getElem?_set_ne hne,
        ← getD_eq_getElem?_getD]
      exact hv.full p hp
    · rw [update_self, hnew, getD_eq_getElem?_getD,
        getElem?_set_self (by rw [hv.len]; exact hin), getD_some]
  · intro j hj
    have hne : i ≠ j := by
      rintro rfl
      exact hj ⟨hashes.length, by omega, update_self _ _ _⟩
    rw [getD_eq_getElem?_getD, getElem?_set_ne hne, ← getD_eq_getElem?_getD]
    refine hv.rest j ?_
    rintro ⟨p, hp, he⟩
    exact hj ⟨p, by omega, by rw [hslot p hp, he]⟩

/-! ## Building a table -/

/-- A turn of the loop of `build` places the next entry, or faults past the position field. -/
theorem buildStep_spec (hv : Holds b hashes slotOf v) (hb : b ≤ 63) (h : Word)
    (hroom : hashes.length < 2 ^ b) :
    if hashes.length < maxLen then
      ∃ slotOf' v', buildStep (2 ^ b) v (h, hashes.length) = .ok v' ∧
        Holds b (hashes ++ [h]) slotOf' v'
    else buildStep (2 ^ b) v (h, hashes.length) = .error .capacityOverflow := by
  obtain ⟨i, hi, hpush⟩ := hv.push hb h hroom
  simp only [buildStep, hi]
  split
  · next hfit =>
    obtain ⟨slotOf', hv'⟩ := hpush hfit
    exact ⟨slotOf', _, by rw [slotWord_ok h hfit]; rfl, hv'⟩
  · next hfull => rw [slotWord_error (Nat.le_of_not_lt hfull)]; rfl

/-- The loop of `build` over the entries from position `hashes.length` on. -/
theorem buildLoop_spec (hb : b ≤ 63) :
    ∀ (more hashes : List Word) (slotOf : Nat → Nat) (v : List Word), Holds b hashes slotOf v →
      hashes.length + more.length ≤ 2 ^ b →
      if hashes.length + more.length ≤ maxLen then
        ∃ slotOf' v', (more.zipIdx hashes.length).foldlM (buildStep (2 ^ b)) v = .ok v' ∧
          Holds b (hashes ++ more) slotOf' v'
      else (more.zipIdx hashes.length).foldlM (buildStep (2 ^ b)) v = .error .capacityOverflow
  | [], hashes, slotOf, v, hv, _ => by
      rw [if_pos (by simpa using hv.fits)]
      exact ⟨slotOf, v, rfl, by simpa using hv⟩
  | h :: more, hashes, slotOf, v, hv, hroom => by
      rw [length_cons] at hroom ⊢
      rw [zipIdx_cons, foldlM_cons]
      have hstep := buildStep_spec hv hb h (by omega)
      split at hstep
      · obtain ⟨slotOf', v', hstep, hv'⟩ := hstep
        have hlen : (hashes ++ [h]).length = hashes.length + 1 := by simp
        have ih := buildLoop_spec hb more (hashes ++ [h]) slotOf' v' hv' (by omega)
        rw [hlen, Nat.add_assoc, Nat.add_comm 1, append_assoc, singleton_append] at ih
        rw [hstep]
        exact ih
      · rw [if_neg (by omega), hstep]
        rfl

/-- The index `v` serves the entries hashed `hashes`: no table yet, or a table at most half
    full that holds them all. -/
def Indexed (hashes : List Word) (v : SharedIndex) : Prop :=
  (hashes = [] ∧ v = []) ∨
    ∃ b slotOf, 3 ≤ b ∧ b ≤ 63 ∧ Holds b hashes slotOf v ∧ 2 * hashes.length ≤ 2 ^ b

/-- What an operation that leaves the entries hashed `hashes` does to the index: it returns
    one that serves them, or it faults because they pass the position field. -/
def Serves (hashes : List Word) (r : Except Fault SharedIndex) : Prop :=
  (hashes.length ≤ maxLen → ∃ v, r = .ok v ∧ Indexed hashes v) ∧
    (maxLen < hashes.length → r = .error .capacityOverflow)

theorem Serves.cases {r} (h : Serves hashes r) :
    (r = .error .capacityOverflow ∧ maxLen < hashes.length) ∨ ∃ v, r = .ok v ∧ Indexed hashes v :=
  (Nat.lt_or_ge maxLen hashes.length).imp (fun hlt => ⟨h.2 hlt, hlt⟩) h.1

/-- `build` for at least as many entries as it is given, in position order. -/
theorem build_serves (hashes : List Word) (hn : n ≤ 2 ^ 62) (hle : hashes.length ≤ n) :
    Serves hashes (build n hashes.zipIdx) := by
  obtain ⟨b, hb3, hb, hcap, hload⟩ := tableCap_spec hn
  have h := buildLoop_spec hb hashes [] id _ (holds_replicate b id)
    (by rw [length_nil]; omega)
  rw [length_nil, Nat.zero_add, nil_append] at h
  unfold build
  rw [hcap]
  constructor
  · intro hfit
    rw [if_pos hfit] at h
    obtain ⟨slotOf, v, hv, hh⟩ := h
    exact ⟨v, hv, .inr ⟨b, slotOf, hb3, hb, hh, by omega⟩⟩
  · intro hfull
    rwa [if_neg (by omega)] at h

theorem fromHashes_serves (hashes : List Word) (hn : hashes.length ≤ 2 ^ 62) :
    Serves hashes (SharedIndex.fromHashes hashes) := by
  rcases hashes with _ | ⟨h, hs⟩
  · exact ⟨fun _ => ⟨[], rfl, .inl ⟨rfl, rfl⟩⟩, fun hc => absurd hc (by simp)⟩
  · exact build_serves (h :: hs) hn le_rfl

theorem Indexed.length_le {v} (hi : Indexed hashes v) : hashes.length ≤ maxLen := by
  rcases hi with ⟨rfl, _⟩ | ⟨b, slotOf, _, _, hv, _⟩
  · simp
  · exact hv.fits

/-- A table is never full. -/
theorem Indexed.pos_lt_cap {v} (hi : Indexed hashes v) (hv : v ≠ []) :
    hashes.length < v.length := by
  rcases hi with ⟨_, rfl⟩ | ⟨b, slotOf, hb3, _, hh, hload⟩
  · exact absurd rfl hv
  · have : 2 ^ 3 ≤ 2 ^ b := Nat.pow_le_pow_right (by omega) hb3
    rw [hh.len]
    omega

section

variable {E : Type} [CachedHash E]

/-- The grown table, built from the cached hashes of the old entries and the new one. -/
theorem grow_serves {v} (hi : Indexed hashes v) (entries : List E) (h : Word)
    (hes : (entries.take hashes.length).map CachedHash.hash = hashes)
    (hcap : v.length < (hashes.length + 1) * 2) :
    Serves (hashes ++ [h]) (SharedIndex.grow v entries h hashes.length) := by
  unfold SharedIndex.grow
  have hkeys : hashes.zipIdx ++ [(h, hashes.length)] = (hashes ++ [h]).zipIdx := by
    rw [zipIdx_append]
    simp
  have hle := hi.length_le
  unfold maxLen at hle
  simp only [hes, hkeys]
  exact build_serves _ (by omega) (by rw [length_append, length_singleton]; omega)

/-- `insert` at the entry count: the slot found in place, or a grown table. -/
theorem insert_serves {v} (hi : Indexed hashes v) (entries : List E) (h : Word)
    (hes : (entries.take hashes.length).map CachedHash.hash = hashes) :
    Serves (hashes ++ [h]) (SharedIndex.insert v entries h hashes.length) := by
  have hlen : (hashes ++ [h]).length = hashes.length + 1 := by simp
  unfold SharedIndex.insert
  dsimp only
  split
  · next hroom =>
    rcases hi with ⟨_, rfl⟩ | ⟨b, slotOf, hb3, hb, hh, hload⟩
    · simp at hroom
    rw [hh.len] at hroom ⊢
    have hstep := buildStep_spec hh hb h (by omega)
    obtain ⟨i, hfe, _⟩ := hh.push hb h (by omega)
    simp only [buildStep, hfe] at hstep ⊢
    split at hstep
    · obtain ⟨slotOf', v', hok, hh'⟩ := hstep
      exact ⟨fun _ => ⟨v', hok, .inr ⟨b, slotOf', hb3, hb, hh', by omega⟩⟩, fun hc => by omega⟩
    · exact ⟨fun hc => by omega, fun _ => hstep⟩
  · next hroom => exact grow_serves hi entries h hes (by omega)

end

/-! ## Reading the index back -/

section

variable {E : Type} [CachedHash E]

/-- The slot words of a probe, as the scan of a chain. -/
def slotAt (v : List Word) (j : Nat) : Option Word :=
  if v.getD j 0 = 0 then none else some (v.getD j 0)

theorem slotAt_empty {j} (h : v.getD j 0 = 0) : slotAt v j = none := if_pos h

theorem slotAt_full {j} (h : v.getD j 0 ≠ 0) : slotAt v j = some (v.getD j 0) := if_neg h

/-- The loop of `next` reads its own cursor, not the one of the probe it belongs to. -/
theorem nextFrom_cursor (c : Candidates E) (i0 left0) :
    ∀ left i, Candidates.nextFrom { c with i := i0, left := left0 } left i = c.nextFrom left i
  | 0, _ => rfl
  | left + 1, i => by
      have ih := nextFrom_cursor c i0 left0 left
      have hhit : ∀ s, Candidates.isHit { c with i := i0, left := left0 } s = c.isHit s :=
        fun _ => rfl
      simp only [Candidates.nextFrom, ih, hhit]

/-- Draining a probe with enough calls keeps the hits of the scan, in order. -/
theorem collect_eq (c : Candidates E) (hlen : c.v.length = 2 ^ b) :
    ∀ (left fuel i : Nat), left < fuel → Candidates.collect fuel { c with i, left } =
        ((scan (slotAt c.v) (2 ^ b) left i).filter c.isHit).map Candidates.wordPos
  | 0, fuel + 1, i, _ => by
      simp [Candidates.collect, Candidates.next, Candidates.nextFrom, scan]
  | left + 1, fuel + 1, i, hf => by
      have ih := collect_eq c hlen left
      have hstep : (i + 1) &&& (c.v.length - 1) = (i + 1) % 2 ^ b := by
        rw [hlen, succ_land_mask]
      by_cases hz : c.v.getD i 0 = 0
      · rw [scan, slotAt_empty hz]
        simp only [Candidates.collect, Candidates.next, Candidates.nextFrom, if_pos hz]
        rfl
      rw [scan, slotAt_full hz]
      by_cases hh : c.isHit (c.v.getD i 0) = true
      · rw [filter_cons_of_pos hh, map_cons, ← ih fuel _ (by omega), ← hstep]
        have : Candidates.isHit { c with i, left := left + 1 } (c.v.getD i 0) = true := hh
        simp only [Candidates.collect, Candidates.next, Candidates.nextFrom, if_neg hz, this,
          if_true]
      rw [filter_cons_of_neg hh, ← ih (fuel + 1) _ (by omega), ← hstep]
      have : ¬ Candidates.isHit { c with i, left := left + 1 } (c.v.getD i 0) = true := hh
      simp only [Candidates.collect, Candidates.next, Candidates.nextFrom, if_neg hz]
      rw [if_neg this, nextFrom_cursor c i, nextFrom_cursor c _ left]

section

variable (hv : Holds b hashes slotOf v)
include hv

/-- The slot of entry `p` holds its word. -/
theorem Holds.slotAt_slotOf {p} (hp : p < hashes.length) :
    slotAt v (slotOf p) = some (wordOf (2 ^ b) (hashes.getD p 0) p) := by
  rw [slotAt_full, hv.full p hp]
  rw [hv.full p hp]
  exact wordOf_ne_zero _ (hp.trans_le hv.fits)

/-- The position named by slot `j` is that of the entry in it. -/
theorem Holds.slotAt_pos (j p) :
    (slotAt v j).map Candidates.wordPos = some p ↔ p < hashes.length ∧ slotOf p = j := by
  by_cases ht : Taken hashes.length slotOf j
  · obtain ⟨q, hq, rfl⟩ := ht
    rw [hv.slotAt_slotOf hq, map_some, some_inj, wordPos_wordOf _ (hq.trans_le hv.fits)]
    constructor
    · rintro rfl; exact ⟨hq, rfl⟩
    · rintro ⟨hp, he⟩; exact (hv.chains.inj p hp q hq he).symm
  · rw [slotAt_empty (hv.rest j ht)]
    constructor
    · intro h; simp at h
    · intro h; exact absurd ⟨p, h⟩ ht

/-- A scan over slot words is the scan over positions, each position as its word. -/
theorem Holds.scan_words (left i) : scan (slotAt v) (2 ^ b) left i =
      (scan (fun j => (slotAt v j).map Candidates.wordPos) (2 ^ b) left i).map
        (fun p => wordOf (2 ^ b) (hashes.getD p 0) p) := by
  rw [← scan_map]
  congr 1
  funext j
  by_cases ht : Taken hashes.length slotOf j
  · obtain ⟨q, hq, rfl⟩ := ht
    rw [hv.slotAt_slotOf hq, map_some, map_some, wordPos_wordOf _ (hq.trans_le hv.fits)]
  · rw [slotAt_empty (hv.rest j ht)]
    rfl

end

/-- The positions of the entries whose cached hash is `h`, ascending. -/
def positions (entries : List E) (h : Word) : List Nat :=
  (range entries.length).filter (fun p => (entries[p]?).any (fun e => CachedHash.hash e == h))

/-- The word of entry `p` is a hit of the probe for `h` exactly when `p` hashed to `h`. -/
theorem isHit_wordOf (c : Candidates E) {p} (htag : c.tag = (place c.h cap).2)
    (hp : p < c.entries.length) (hfit : p < maxLen) :
    c.isHit (wordOf cap ((c.entries.map CachedHash.hash).getD p 0) p) =
      (c.entries[p]?).any (fun e => CachedHash.hash e == c.h) := by
  unfold Candidates.isHit
  rw [wordPos_wordOf _ hfit, wordOf_tag _ hfit, htag, getElem?_eq_getElem hp, any_some]
  have hg : (c.entries.map CachedHash.hash).getD p 0 = CachedHash.hash c.entries[p] := by
    rw [getD_eq_getElem?_getD, getElem?_map, getElem?_eq_getElem hp]
    rfl
  rw [hg]
  by_cases he : CachedHash.hash c.entries[p] = c.h
  · simp [he]
  · simp [he]

/-- **The probe finds every entry.** Over an index that serves the entries, `candidates h`
    yields exactly the positions of the entries with cached hash `h`, each once, ascending.
    It ends: any number of calls past the table size gives the same list. -/
theorem candidates_eq (entries : List E) {v} (hi : Indexed (entries.map CachedHash.hash) v)
    (h : Word) {fuel} (hf : v.length < fuel) :
    Candidates.collect fuel (v.candidates h entries) = positions entries h := by
  rcases hi with ⟨he, rfl⟩ | ⟨b, slotOf, hb3, hb, hv, hload⟩
  · rw [map_eq_nil_iff] at he
    subst he
    obtain ⟨fuel, rfl⟩ := Nat.exists_eq_succ_of_ne_zero (by omega : fuel ≠ 0)
    simp [Candidates.collect, Candidates.next, Candidates.nextFrom, SharedIndex.candidates,
      positions]
  have hpos : 0 < 2 ^ b := Nat.two_pow_pos b
  have hs := place_start_lt h (b := b) (by omega)
  obtain ⟨c, hc, rfl, rfl, rfl, htag⟩ : ∃ c : Candidates E,
      v.candidates h entries = { c with i := (place h (2 ^ b)).1, left := 2 ^ b } ∧
        c.v = v ∧ c.entries = entries ∧ c.h = h ∧ c.tag = (place h (2 ^ b)).2 := by
    refine ⟨{ v, entries, h, tag := (place h (2 ^ b)).2, i := 0, left := 0 }, ?_,
      rfl, rfl, rfl, rfl⟩
    unfold SharedIndex.candidates
    simp only [hv.len, if_neg (Nat.pos_iff_ne_zero.mp hpos)]
  have hlen : (c.entries.map CachedHash.hash).length = c.entries.length := List.length_map _
  rw [hc, collect_eq c hv.len _ _ _ (by rw [← hv.len]; exact hf), hv.scan_words, List.filter_map,
    List.map_map]
  have hfit : ∀ p, p < c.entries.length → p < maxLen := fun p hp => by
    have := hv.fits
    omega
  -- on the entries themselves the test of the probe is the comparison of full hashes
  have hhit : ∀ p ∈ scan (fun j => (slotAt c.v j).map Candidates.wordPos) (2 ^ b) (2 ^ b)
      (place c.h (2 ^ b)).1,
      (c.isHit ∘ fun p => wordOf (2 ^ b) ((c.entries.map CachedHash.hash).getD p 0) p) p =
        (c.entries[p]?).any (fun e => CachedHash.hash e == c.h) := by
    intro p hp
    obtain ⟨j, hj⟩ := mem_scan hp
    have hpn := ((hv.slotAt_pos j p).mp hj).1
    rw [hlen] at hpn
    -- `comp_apply` first: by unfolding, the kernel would evaluate the slot word
    rw [comp_apply]
    exact isHit_wordOf c htag hpn (hfit p hpn)
  rw [filter_congr hhit, hv.chains.scan_filter (by omega) hs (fun j _ p => hv.slotAt_pos j p), hlen]
  · refine (map_congr_left fun p hp => ?_).trans (map_id (positions c.entries c.h))
    rw [comp_apply, id_eq]
    exact wordPos_wordOf _ (hfit p (mem_range.mp (mem_filter.mp hp).1))
  intro p hp hP
  rw [hlen] at hp
  rw [getElem?_eq_getElem hp, any_some, beq_iff_eq] at hP
  unfold homeOf
  rw [getD_eq_getElem?_getD, getElem?_map, getElem?_eq_getElem hp, map_some, getD_some, hP]

end

/-! ## Operations on tables -/

section

variable {E : Type} [CachedHash E]

/-- The index of `t` serves its entries. -/
def Table.Good (t : Table E) : Prop := Indexed (t.entries.map CachedHash.hash) t.index

/-- What one operation on a table of `n` entries leaves: a fault past the position field, or
    a good table with at most one entry more. -/
def StepFrom (n : Nat) (r : Except Fault (Table E)) : Prop :=
  (r = .error .capacityOverflow ∧ maxLen < n + 1) ∨
    ∃ t, r = .ok t ∧ t.Good ∧ t.entries.length ≤ n + 1

variable {t : Table E}

theorem Table.push_step (ht : t.Good) (e : E) : StepFrom t.entries.length (t.push e) := by
  have hlen : (t.entries.map CachedHash.hash).length = t.entries.length := length_map _
  have hins := insert_serves ht (t.entries ++ [e]) (CachedHash.hash e)
    (by rw [hlen, take_left])
  rw [hlen] at hins
  unfold push
  have hmap : t.entries.map CachedHash.hash ++ [CachedHash.hash e] =
      (t.entries ++ [e]).map CachedHash.hash := by simp
  rw [hmap] at hins
  rcases hins.cases with ⟨he, hfull⟩ | ⟨v, hv, hgood⟩
  · exact .inl ⟨by simp only [he]; rfl, by simpa using hfull⟩
  · exact .inr ⟨⟨t.entries ++ [e], v, t.version + 1⟩, by simp only [hv]; rfl, hgood, by simp⟩

theorem Table.removeAt_step (ht : t.Good) (i) :
    ∃ r t', t.removeAt i = .ok (r, t') ∧ t'.Good ∧ t'.entries.length ≤ t.entries.length := by
  unfold removeAt
  rcases t.entries[i]? with _ | removed
  · exact ⟨none, t, rfl, ht, le_rfl⟩
  have hle : ((t.entries.eraseIdx i).map CachedHash.hash).length ≤ t.entries.length := by
    rw [length_map, length_eraseIdx]
    split <;> omega
  have hmax := ht.length_le
  rw [length_map] at hmax
  have hb := fromHashes_serves ((t.entries.eraseIdx i).map CachedHash.hash)
    (by unfold maxLen at hmax; omega)
  obtain ⟨v, hv, hgood⟩ := hb.1 (by omega)
  rw [length_map] at hle
  refine ⟨some removed, ⟨t.entries.eraseIdx i, v, t.version + 1⟩, ?_, hgood, hle⟩
  have hre : SharedIndex.rebuild ((t.entries.eraseIdx i).map CachedHash.hash) = .ok v := hv
  simp only [hre]
  rfl

theorem Table.fromEntries_spec (entries : List E) (hn : entries.length ≤ 2 ^ 62) :
    (fromEntries entries = .error .capacityOverflow ∧ maxLen < entries.length) ∨
      ∃ t, fromEntries entries = .ok t ∧ t.Good ∧ t.entries = entries := by
  have hlen : (entries.map CachedHash.hash).length = entries.length := length_map _
  have hb := fromHashes_serves (entries.map CachedHash.hash) (by rw [hlen]; exact hn)
  unfold fromEntries
  rcases hb.cases with ⟨he, hfull⟩ | ⟨v, hv, hgood⟩
  · exact .inl ⟨by simp only [he]; rfl, by rwa [hlen] at hfull⟩
  · exact .inr ⟨⟨entries, v, 0⟩, by simp only [hv]; rfl, hgood, rfl⟩

/-- A run of operations, each of which keeps good tables good, keeps them good. -/
theorem foldlM_step {O : Type} {step}
    (hstep : ∀ t, t.Good → ∀ o, StepFrom t.entries.length (step t o)) :
    ∀ (ops : List O) (t : Table E), t.Good →
      (ops.foldlM step t = .error .capacityOverflow ∧ maxLen < t.entries.length + ops.length) ∨
        ∃ t', ops.foldlM step t = .ok t' ∧ t'.Good
  | [], t, ht => .inr ⟨t, rfl, ht⟩
  | o :: ops, t, ht => by
      rw [foldlM_cons, length_cons]
      rcases hstep t ht o with ⟨he, hlt⟩ | ⟨t', ht', hgood, hle⟩
      · exact .inl ⟨by rw [he]; rfl, by omega⟩
      rw [ht']
      rcases foldlM_step hstep ops t' hgood with ⟨he, hlt⟩ | h
      · exact .inl ⟨he, by omega⟩
      · exact .inr h

/-- What a client sees of a table: each probe ends with the positions of its hash, and the
    table is at most half full, so a table with slots has an empty one. -/
structure Table.Probes (t : Table E) : Prop where
  hits : ∀ h fuel, t.index.length < fuel →
    (t.candidates h).collect fuel = positions t.entries h
  load : 2 * t.entries.length ≤ t.index.length
  room : t.index ≠ [] → ∃ j < t.index.length, t.index.getD j 0 = 0

theorem Table.Good.probes (ht : t.Good) : t.Probes where
  hits := fun h _ hf => candidates_eq t.entries ht h hf
  load := by
    rcases ht with ⟨he, _⟩ | ⟨b, slotOf, _, _, hv, hload⟩
    · rw [map_eq_nil_iff] at he
      simp [he]
    · rw [length_map] at hload
      rw [hv.len]
      exact hload
  room := by
    intro hne
    have hlt := ht.pos_lt_cap hne
    rcases ht with ⟨_, he⟩ | ⟨b, slotOf, _, _, hv, _⟩
    · exact absurd he hne
    rw [hv.len] at hlt ⊢
    obtain ⟨k, _, hfree⟩ := exists_free slotOf hlt (Nat.two_pow_pos b)
    exact ⟨_, Nat.mod_lt _ (Nat.two_pow_pos b), (hv.empty_iff _).mpr hfree⟩

end

/-! ## Whole runs -/

theorem MapData.step_from {K V} (m : MapData K V) (hm : m.Good) (o) :
    StepFrom m.entries.length (m.step o) := by
  rcases o with ⟨h, k, v⟩ | ⟨i, v⟩ | i
  · exact push_step hm _
  · -- an overwrite keeps every cached hash in its place
    refine .inr ⟨_, rfl, ?_, ?_⟩
    · unfold MapData.setValue Good
      rcases he : m.entries[i]? with _ | e
      · exact hm
      have hset : (m.entries.set i { e with val := v }).map CachedHash.hash =
          m.entries.map CachedHash.hash := by
        obtain ⟨hlt, rfl⟩ := List.getElem?_eq_some_iff.mp he
        rw [List.map_set]
        refine (congrArg _ ?_).trans (set_getElem_self (by rwa [length_map] : i < _))
        rw [getElem_map]
        rfl
      simp only [hset]
      exact hm
    · unfold MapData.setValue
      rcases m.entries[i]? with _ | e <;> simp
  · obtain ⟨r, m', hr, hgood, hle⟩ := removeAt_step hm i
    refine .inr ⟨m', ?_, hgood, by omega⟩
    simp only [MapData.step, hr]
    rfl

theorem SetData.step_from {K} (s : SetData K) (hs : s.Good) (o) :
    StepFrom s.entries.length (s.step o) := by
  rcases o with ⟨h, e⟩ | i
  · exact push_step hs _
  obtain ⟨r, s', hr, hgood, hle⟩ := removeAt_step hs i
  refine .inr ⟨s', ?_, hgood, by omega⟩
  simp only [SetData.step, hr]
  rfl

/-- A run ends in a table whose probes are exact, or faults because the entries it was given
    and those it pushed pass the position field. -/
def RunProbes {E : Type} [CachedHash E] (bound : Nat) (r : Except Fault (Table E)) : Prop :=
  (r = .error .capacityOverflow ∧ maxLen < bound) ∨ ∃ t, r = .ok t ∧ t.Probes

theorem run_probes {E O : Type} [CachedHash E] {step}
    (hstep : ∀ t, t.Good → ∀ o, StepFrom t.entries.length (step t o)) (entries : List E)
    (hn : entries.length ≤ 2 ^ 62) (ops : List O) : RunProbes (entries.length + ops.length)
      (fromEntries entries >>= fun t => ops.foldlM step t) := by
  rcases fromEntries_spec entries hn with ⟨he, hlt⟩ | ⟨t, ht, hgood, hes⟩
  · exact .inl ⟨by rw [he]; rfl, by omega⟩
  rw [ht]
  rcases foldlM_step hstep ops t hgood with ⟨he, hlt⟩ | ⟨t', ht', hgood'⟩
  · exact .inl ⟨he, by rw [← hes]; exact hlt⟩
  · exact .inr ⟨t', ht', hgood'.probes⟩

/-- **Every probe is exact, after any history.** From any entries, after any pushes,
    overwrites and removals, with any hashes: `candidates h` yields exactly the positions
    whose cached hash is `h`, each once, ascending; it ends; and the index is at most half
    full. The only fault is the capacity fault past `2^40 - 1` entries. (`2^62` bounds the
    length of a Rust `Vec` of 16-byte entries.) Maps and sets alike. -/
theorem candidates_after_run {K V : Type} :
    (∀ (entries : List (MapEntry K V)) (ops : List (MapData.Op K V)), entries.length ≤ 2 ^ 62 →
      RunProbes (entries.length + ops.length) (MapData.run entries ops)) ∧
    (∀ (entries : List (SetEntry K)) (ops : List (SetData.Op K)), entries.length ≤ 2 ^ 62 →
      RunProbes (entries.length + ops.length) (SetData.run entries ops)) :=
  ⟨fun entries ops hn => run_probes MapData.step_from entries hn ops,
    fun entries ops hn => run_probes SetData.step_from entries hn ops⟩

/-- Three keys of one hash, the first removed again: the run returns, and its probes are
    exact. -/
theorem candidates_after_run_colliding :
    ∃ m : MapData Nat Nat,
      MapData.run [⟨7, 0, 0⟩] [.push 7 1 10, .push 7 2 20, .setValue 1 11, .removeAt 0] = .ok m ∧
        m.Probes := by
  rcases candidates_after_run.1 [⟨7, 0, 0⟩]
    [.push 7 1 10, .push 7 2 20, .setValue 1 11, .removeAt 0] (by decide) with ⟨_, hlt⟩ | h
  · exact absurd hlt (by decide)
  · exact h

end ChezziLang.Vm.HashIndex
