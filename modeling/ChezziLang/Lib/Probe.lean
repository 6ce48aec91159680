/-
  Linear probing, in general. A table has `cap` slots on a ring; item `p` (numbered in
  order of insertion) starts at `home p` and sits at `slotOf p`.

  `Chains` is the invariant of a table that is only ever filled: the slots between an
  item's home and its place are taken, and of two items with one home the older is met
  first. `Chains.extend` keeps it when an item goes to the first free slot of its chain,
  and `Chains.scan_filter` reads a chain back: the scan from a home meets the items of
  that home in order of insertion, each once.

  Nothing here knows what a slot holds.
-/
import Mathlib.Algebra.Group.Nat.Defs
import Mathlib.Data.Fintype.EquivFin

namespace ChezziLang.Lib.Probe

open Function List Option

/-! ## The ring -/

/-- Steps from slot `s` forward to slot `j` on a ring of `cap` slots. -/
def dist (cap s j : Nat) : Nat := (j + cap - s) % cap

variable {cap s k n : Nat} {slotOf home : Nat → Nat} {α : Type}

theorem dist_lt {j} (hs : s < cap) : dist cap s j < cap := Nat.mod_lt _ (by omega)

/-- Walking `dist s j` steps from `s` arrives at `j`. -/
theorem walk_dist {j} (hs : s < cap) (hj : j < cap) : (s + dist cap s j) % cap = j := by
  unfold dist
  rw [Nat.add_mod_mod]
  have h : s + (j + cap - s) = j + cap := by omega
  rw [h, Nat.add_mod_right, Nat.mod_eq_of_lt hj]

/-- The distance to the slot `k < cap` steps ahead is `k`. -/
theorem dist_walk (hs : s < cap) (hk : k < cap) : dist cap s ((s + k) % cap) = k := by
  unfold dist
  rcases Nat.lt_or_ge (s + k) cap with h | h
  · rw [Nat.mod_eq_of_lt h]
    have : s + k + cap - s = k + cap := by omega
    rw [this, Nat.add_mod_right, Nat.mod_eq_of_lt hk]
  have hmod : (s + k) % cap = s + k - cap := by
    rw [Nat.mod_eq_sub_mod h, Nat.mod_eq_of_lt (by omega)]
  rw [hmod]
  have : s + k - cap + cap - s = k := by omega
  rw [this, Nat.mod_eq_of_lt hk]

/-- The step of a probe as a masked increment, on a ring whose size is a power of two. -/
theorem succ_land_mask (b i) : (i + 1) &&& (2 ^ b - 1) = (i + 1) % 2 ^ b :=
  Nat.and_two_pow_sub_one_eq_mod _ _

/-! ## Chains -/

/-- `n` items are placed on a ring of `cap` slots by linear probing. -/
structure Chains (cap n : Nat) (home slotOf : Nat → Nat) : Prop where
  home_lt : ∀ p < n, home p < cap
  slot_lt : ∀ p < n, slotOf p < cap
  inj : ∀ p < n, ∀ q < n, slotOf p = slotOf q → p = q
  /-- No hole between an item's home and its slot. -/
  chain : ∀ p < n, ∀ k < dist cap (home p) (slotOf p), ∃ q < n, slotOf q = (home p + k) % cap
  /-- Items of one home stand in order of insertion. -/
  order : ∀ p q, p < q → q < n → home p = home q →
    dist cap (home p) (slotOf p) < dist cap (home q) (slotOf q)

theorem Chains.empty (cap) (home slotOf : Nat → Nat) : Chains cap 0 home slotOf where
  home_lt := by intro p hp; omega
  slot_lt := by intro p hp; omega
  inj := by intro p hp; omega
  chain := by intro p hp; omega
  order := by intro p q _ hq; omega

theorem Chains.congr {home'} (hc : Chains cap n home slotOf) (h : ∀ p < n, home p = home' p) :
    Chains cap n home' slotOf where
  home_lt := by intro p hp; rw [← h p hp]; exact hc.home_lt p hp
  slot_lt := hc.slot_lt
  inj := hc.inj
  chain := by
    intro p hp
    rw [← h p hp]
    exact hc.chain p hp
  order := by
    intro p q hpq hq
    rw [← h p (by omega), ← h q hq]
    exact hc.order p q hpq hq

/-- Slot `j` holds one of the first `n` items. -/
def Taken (n : Nat) (slotOf : Nat → Nat) (j : Nat) : Prop := ∃ q < n, slotOf q = j

/-- A ring with more slots than items has a free slot on every chain. -/
theorem exists_free (slotOf) (hn : n < cap) (hs : s < cap) :
    ∃ k < cap, ¬ Taken n slotOf ((s + k) % cap) := by
  by_contra hall
  push Not at hall
  choose! f hf using hall
  -- every slot names the item it holds, so the slots inject into the items
  let g : Fin cap → Fin n := fun j =>
    ⟨f (dist cap s j), (hf _ (dist_lt hs)).1⟩
  have hg : Injective g := by
    intro i j hij
    have hi := (hf _ (dist_lt (j := i) hs)).2
    have hj := (hf _ (dist_lt (j := j) hs)).2
    rw [walk_dist hs i.isLt] at hi
    rw [walk_dist hs j.isLt] at hj
    have he : f (dist cap s i) = f (dist cap s j) := congrArg Fin.val hij
    exact Fin.ext (by rw [← hi, ← hj, he])
  have hcard := Fintype.card_le_of_injective g hg
  rw [Fintype.card_fin, Fintype.card_fin] at hcard
  omega

/-- The first free slot of the chain from `s`. -/
theorem exists_first_free (slotOf) (hn : n < cap) (hs : s < cap) :
    ∃ k < cap, ¬ Taken n slotOf ((s + k) % cap) ∧ ∀ k' < k, Taken n slotOf ((s + k') % cap) := by
  classical
  have hex : ∃ k, k < cap ∧ ¬ Taken n slotOf ((s + k) % cap) := exists_free slotOf hn hs
  refine ⟨Nat.find hex, (Nat.find_spec hex).1, (Nat.find_spec hex).2, ?_⟩
  intro k' hk'
  by_contra hfree
  have := Nat.find_min hex hk'
  exact this ⟨hk'.trans (Nat.find_spec hex).1, hfree⟩

/-- On the chain from a home every item of that home stands before the first free slot. -/
theorem Chains.dist_lt_free (hc : Chains cap n home slotOf)
    (hfree : ¬ Taken n slotOf ((s + k) % cap)) {p} (hp : p < n) (hhome : home p = s) :
    dist cap s (slotOf p) < k := by
  subst hhome
  rcases Nat.lt_trichotomy (dist cap (home p) (slotOf p)) k with h | h | h
  · exact h
  · refine absurd ⟨p, hp, ?_⟩ hfree
    rw [← h, walk_dist (hc.home_lt p hp) (hc.slot_lt p hp)]
  · exact absurd (hc.chain p hp k h) hfree

/-- Placing item `n` at the first free slot of its chain keeps the invariant. -/
theorem Chains.extend (hc : Chains cap n home slotOf) (hs : s < cap) (hk : k < cap)
    (hfree : ¬ Taken n slotOf ((s + k) % cap))
    (hbefore : ∀ k' < k, Taken n slotOf ((s + k') % cap)) :
    Chains cap (n + 1) (update home n s)
      (update slotOf n ((s + k) % cap)) := by
  have hcap : 0 < cap := by omega
  have hold : ∀ {f : Nat → Nat} {v p : Nat}, p < n → update f n v p = f p :=
    fun hp => update_of_ne (by omega) _ _
  have hnew : ∀ {f : Nat → Nat} {v : Nat}, update f n v n = v := update_self _ _ _
  constructor
  · intro p hp
    rcases Nat.lt_succ_iff_lt_or_eq.mp hp with hp | rfl
    · rw [hold hp]; exact hc.home_lt p hp
    · rw [hnew]; exact hs
  · intro p hp
    rcases Nat.lt_succ_iff_lt_or_eq.mp hp with hp | rfl
    · rw [hold hp]; exact hc.slot_lt p hp
    · rw [hnew]; exact Nat.mod_lt _ hcap
  · intro p hp q hq h
    rcases Nat.lt_succ_iff_lt_or_eq.mp hp with hp | rfl <;>
      rcases Nat.lt_succ_iff_lt_or_eq.mp hq with hq | rfl
    · rw [hold hp, hold hq] at h; exact hc.inj p hp q hq h
    · rw [hold hp, hnew] at h; exact absurd ⟨p, hp, h⟩ hfree
    · rw [hnew, hold hq] at h; exact absurd ⟨q, hq, h.symm⟩ hfree
    · rfl
  · intro p hp j hj
    rcases Nat.lt_succ_iff_lt_or_eq.mp hp with hp | rfl
    · rw [hold hp, hold hp] at hj
      obtain ⟨q, hq, he⟩ := hc.chain p hp j hj
      exact ⟨q, by omega, by rw [hold hq, hold hp, he]⟩
    · rw [hnew, hnew, dist_walk hs hk] at hj
      obtain ⟨q, hq, he⟩ := hbefore j hj
      exact ⟨q, by omega, by rw [hold hq, hnew, he]⟩
  · intro p q hpq hq hh
    have hp : p < n := by omega
    rcases Nat.lt_succ_iff_lt_or_eq.mp hq with hq | rfl
    · rw [hold hp, hold hq] at hh
      rw [hold hp, hold hp, hold hq, hold hq]
      exact hc.order p q hpq hq hh
    · rw [hold hp, hnew] at hh
      rw [hold hp, hold hp, hnew, hnew, dist_walk hs hk, hh]
      exact hc.dist_lt_free hfree hp hh

/-! ## Scanning a chain -/

/-- The items met from slot `i` on, at most `left` slots, up to the first free slot. -/
def scan {α : Type} (occ : Nat → Option α) (cap : Nat) : Nat → Nat → List α
  | 0, _ => []
  | left + 1, i =>
    match occ i with
    | none => []
    | some a => a :: scan occ cap left ((i + 1) % cap)

theorem mem_scan {occ} {a : α} : ∀ {left i : Nat}, a ∈ scan occ cap left i → ∃ j, occ j = some a
  | 0, _, h => by simp [scan] at h
  | left + 1, i, h => by
      rw [scan] at h
      rcases ho : occ i with _ | c
      · rw [ho] at h; simp at h
      rw [ho] at h
      rcases mem_cons.mp h with rfl | h
      · exact ⟨i, ho⟩
      · exact mem_scan h

theorem scan_map {β} (occ) (f : α → β) (cap) :
    ∀ left i, scan (fun j => (occ j).map f) cap left i = (scan occ cap left i).map f
  | 0, _ => rfl
  | left + 1, i => by
      rw [scan, scan]
      rcases occ i with _ | a
      · rfl
      · simp only [map_some, map_cons, scan_map occ f cap left]

theorem walk_succ (cap i k) : ((i + 1) % cap + k) % cap = (i + (k + 1)) % cap := by
  rw [Nat.mod_add_mod, Nat.add_assoc, Nat.add_comm 1 k]

/-- A scan reads the slots before the first free one, in ring order. -/
theorem scan_eq (occ : Nat → Option α) :
    ∀ (k left i : Nat), i < cap → k < left → (∀ k' < k, (occ ((i + k') % cap)).isSome) →
      occ ((i + k) % cap) = none →
      scan occ cap left i = (range k).filterMap (fun k' => occ ((i + k') % cap))
  | 0, left + 1, i, hi, _, _, hfree => by
      rw [Nat.add_zero, Nat.mod_eq_of_lt hi] at hfree
      simp [scan, hfree]
  | k + 1, left + 1, i, hi, hk, hocc, hfree => by
      have h0 := hocc 0 (by omega)
      rw [Nat.add_zero, Nat.mod_eq_of_lt hi] at h0
      obtain ⟨a, ha⟩ := isSome_iff_exists.mp h0
      have ih := scan_eq occ k left ((i + 1) % cap) (Nat.mod_lt _ (by omega)) (by omega)
        (fun k' hk' => by rw [walk_succ]; exact hocc (k' + 1) (by omega))
        (by rw [walk_succ]; exact hfree)
      rw [scan, ha, range_succ_eq_map, filterMap_cons]
      simp only [Nat.add_zero, Nat.mod_eq_of_lt hi, ha, ih, filterMap_map]
      congr 2
      funext k'
      simp only [comp_apply, walk_succ]

/-- Reading a chain back. `P` picks items whose home is `s`: the scan from `s` meets
    exactly the items `P` picks, each once, in order of insertion. -/
theorem Chains.scan_filter (hc : Chains cap n home slotOf) (hn : n < cap) (hs : s < cap) {occ}
    (hocc : ∀ j < cap, ∀ p, occ j = some p ↔ p < n ∧ slotOf p = j) (P : Nat → Bool)
    (hP : ∀ p < n, P p = true → home p = s) :
    (scan occ cap cap s).filter P = (range n).filter P := by
  obtain ⟨k, hk, hfree, hbefore⟩ := exists_first_free slotOf hn hs
  have hring : ∀ k', (s + k') % cap < cap := fun k' => Nat.mod_lt _ (by omega)
  have hsome : ∀ k' < k, (occ ((s + k') % cap)).isSome := by
    intro k' hk'
    obtain ⟨q, hq, he⟩ := hbefore k' hk'
    rw [(hocc _ (hring k') q).mpr ⟨hq, he⟩]
    rfl
  have hnone : occ ((s + k) % cap) = none := by
    rcases h : occ ((s + k) % cap) with _ | q
    · rfl
    · exact absurd ⟨q, (hocc _ (hring k) q).mp h⟩ hfree
  rw [scan_eq occ k cap s hs hk hsome hnone]
  -- both sides ascend strictly and hold the same items
  refine Pairwise.eq_of_mem_iff (r := (· < ·)) ?_
    (pairwise_lt_range.filter _) ?_
  · rw [pairwise_filter, pairwise_filterMap]
    refine pairwise_lt_range.imp_of_mem ?_
    intro k1 k2 h1 h2 hlt p hp q hq hPp hPq
    obtain ⟨hpn, hps⟩ := (hocc _ (hring k1) p).mp hp
    obtain ⟨hqn, hqs⟩ := (hocc _ (hring k2) q).mp hq
    have hk1 : k1 < cap := Nat.lt_trans (mem_range.mp h1) hk
    have hk2 : k2 < cap := Nat.lt_trans (mem_range.mp h2) hk
    have hdp : dist cap (home p) (slotOf p) = k1 := by
      rw [hP p hpn hPp, hps, dist_walk hs hk1]
    have hdq : dist cap (home q) (slotOf q) = k2 := by
      rw [hP q hqn hPq, hqs, dist_walk hs hk2]
    rcases Nat.lt_trichotomy p q with h | h | h
    · exact h
    · subst h; omega
    · have := hc.order q p h hpn (by rw [hP p hpn hPp, hP q hqn hPq])
      omega
  · intro p
    simp only [mem_filter, mem_filterMap, mem_range]
    constructor
    · rintro ⟨⟨k', _, hp⟩, hPp⟩
      exact ⟨((hocc _ (hring k') p).mp hp).1, hPp⟩
    rintro ⟨hpn, hPp⟩
    have hlt := hc.dist_lt_free hfree hpn (hP p hpn hPp)
    refine ⟨⟨_, hlt, ?_⟩, hPp⟩
    exact (hocc _ (hring _) p).mpr ⟨hpn, (walk_dist hs (hc.slot_lt p hpn)).symm⟩

end ChezziLang.Lib.Probe
