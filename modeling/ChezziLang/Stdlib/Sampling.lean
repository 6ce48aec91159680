/-
  `std.iter`: the random helpers `shuffle`, `choice` and `sample`.

  Lists are objects, so that "xs is left untouched" says something: a program runs on the lists
  that exist and on the numbers `rand.int` will return, and is `none` where an index is out of
  range or a number is not in the range it was drawn from.

  Proved:
  * `shuffleFrom_oneToOne`: the loop permutes what it has not left behind, and each such
    permutation comes from exactly one sequence of draws.
  * `sampleFrom_oneToOne`: the same for selections from what is left of the pool.
  * `shuffle_and_sample_one_to_one`: both functions on a list object, and the uniform law that
    follows.
-/
import ChezziLang.Lib.Draws
import ChezziLang.Lib.Exchange

namespace ChezziLang.Stdlib.Iter

open Lib List Option

variable {T : Type}

/-! ## The code -/

/-- The list objects by handle, and what `rand.int` will return. -/
structure World (T : Type) where
  lists : List (List T)
  draws : List Nat

abbrev Prog (T : Type) := StateT (World T) Option

/-- `[]`, a new list object. -/
def alloc : Prog T Nat := fun w => some (w.lists.length, { w with lists := w.lists ++ [[]] })

def contents (h : Nat) : Prog T (List T) := fun w => do
  let l ← w.lists[h]?
  return (l, w)

def write (h : Nat) (l : List T) : Prog T Unit := fun w =>
  some ((), { w with lists := w.lists.set h l })

def push (h : Nat) (x : T) : Prog T Unit := do
  let l ← contents h
  write h (l ++ [x])

def index (h i : Nat) : Prog T T := do
  let l ← contents h
  StateT.lift l[i]?

/-- `tmp := l[i]; l[i] = l[j]; l[j] = tmp`. -/
def exchangeAt (h i j : Nat) : Prog T Unit := do
  let l ← contents h
  let l ← StateT.lift (exchange l i j)
  write h l

/-- `rand.int(lo, hi)`. -/
def randInt (lo hi : Nat) : Prog T Nat := fun w =>
  match w.draws with
  | [] => none
  | d :: draws => if lo ≤ d ∧ d < hi then some (d, { w with draws }) else none

/-- `for x in xs: out.push(x)`; `out` is another list than `xs`. -/
def fill (xs out : Nat) : Prog T Unit := do
  let l ← contents xs
  l.forM (push out)

/-- The loop of `shuffle` from `i` down. -/
def shuffleLoop (out : Nat) : Nat → Prog T Unit
  | 0 => pure ()
  | i + 1 => do
    let j ← randInt 0 (i + 1 + 1)
    exchangeAt out (i + 1) j
    shuffleLoop out i

def shuffle (xs : Nat) : Prog T Nat := do
  let out ← alloc
  fill xs out
  let l ← contents out
  shuffleLoop out (l.length - 1)
  return out

def choice (xs : Nat) : Prog T (Option T) := do
  let l ← contents xs
  if l.length = 0 then
    return none
  else
    let i ← randInt 0 l.length
    let x ← index xs i
    return some x

/-- `take_n`: `k` clamped to `[0, n]`. -/
def takeN (n : Nat) (k : Int) : Int :=
  let take := if k > n then (n : Int) else k
  if take < 0 then 0 else take

/-- The loop of `sample` from `i`, with `c` rounds to go. -/
def sampleLoop (pool out n : Nat) : Nat → Nat → Prog T Unit
  | 0, _ => pure ()
  | c + 1, i => do
    let j ← randInt i n
    exchangeAt pool i j
    let x ← index pool i
    push out x
    sampleLoop pool out n c (i + 1)

def sample (xs : Nat) (k : Int) : Prog T Nat := do
  let l ← contents xs
  let pool ← alloc
  fill xs pool
  let out ← alloc
  sampleLoop pool out l.length (takeN l.length k).toNat 0
  return out

/-- What a program returns a handle of, and the lists there were before it ran. -/
def outcome (p : Prog T Nat) (lists : List (List T)) (draws : List Nat) :
    Option (List T × List (List T)) := do
  let (h, w) ← p.run ⟨lists, draws⟩
  let l ← w.lists[h]?
  return (l, w.lists.take lists.length)

/-! ## Shuffling -/

/-- What the loop of `shuffle` makes of a list, and the draws it leaves. -/
def shuffleFrom : Nat → List T → List Nat → Option (List T × List Nat)
  | 0, l, ds => some (l, ds)
  | _ + 1, _, [] => none
  | i + 1, l, d :: ds =>
    if d < i + 1 + 1 then (exchange l (i + 1) d).bind fun l => shuffleFrom i l ds else none

/-- The ranges of the loop of `shuffle` from `i`. -/
def shuffleSpans : Nat → List Lib.Span
  | 0 => []
  | i + 1 => ⟨0, i + 1 + 1, by omega⟩ :: shuffleSpans i

theorem sequences_shuffleSpans (i) : sequences (shuffleSpans i) = (i + 1).factorial := by
  induction i with
  | zero => rfl
  | succ i ih => rw [shuffleSpans, sequences, ih, Nat.factorial_succ (i + 1)]; rfl

/-- What one round and the rounds after it do, for a draw in range. -/
theorem shuffleFrom_cons {i d} {l : List T} (hi : i + 1 ≤ l.length - 1) (hd : d < i + 1 + 1) (ds) :
    shuffleFrom (i + 1) l (d :: ds) = shuffleFrom i (l.swap (i + 1) d) ds := by
  rw [shuffleFrom, if_pos hd, exchange_eq (by omega) (by omega), bind_some]

theorem eq_of_perm_of_tail {l ys : List T} (hperm : ys.Perm l)
    (htail : ∀ k, 0 < k → ys[k]? = l[k]?) : ys = l := by
  cases l with
  | nil => exact hperm.eq_nil
  | cons a l =>
    cases ys with
    | nil => exact absurd hperm.length_eq (by simp)
    | cons b ys =>
      have htl : ys = l := by
        apply ext_getElem?
        intro k
        exact htail (k + 1) (Nat.succ_pos k)
      subst htl
      have hhead : [b].Perm [a] := (perm_append_right_iff ys).mp hperm
      rw [singleton_perm_singleton] at hhead
      rw [hhead]

/-- In a list without repetitions an element has one position. -/
theorem index_unique {l : List T} (hl : l.Nodup) {j k} (hj : j < l.length) (h : l[k]? = l[j]?) :
    k = j := by
  have hk : k < l.length := by
    rw [getElem?_eq_getElem hj] at h
    exact (List.getElem?_eq_some_iff.mp h).1
  rw [getElem?_eq_getElem hj, getElem?_eq_getElem hk, some_inj] at h
  exact (hl.getElem_inj_iff).mp h

theorem shuffleFrom_oneToOne (lists : List (List T)) (i) : ∀ {l : List T}, i ≤ l.length - 1 →
    l.Nodup → OneToOne (shuffleSpans i)
      (fun ds => (shuffleFrom i l ds).map fun r => (r.1, lists))
      fun r => (r.1.Perm l ∧ ∀ k, i < k → r.1[k]? = l[k]?) ∧ r.2 = lists := by
  induction i with
  | zero =>
    intro l _ _
    refine OneToOne.nil rfl ?_
    rintro ⟨ys, _⟩
    constructor
    · rintro ⟨⟨hperm, hkeep⟩, rfl⟩
      obtain rfl : ys = l := eq_of_perm_of_tail hperm hkeep
      rfl
    · rintro ⟨⟩
      exact ⟨⟨Perm.refl l, fun _ _ => rfl⟩, rfl⟩
  | succ i ih =>
    intro l hi hl
    have hswap := fun d => swap_perm l (i + 1) d
    have hget : ∀ d < i + 1 + 1, ∀ k, (l.swap (i + 1) d)[k]? = l[Equiv.swap (i + 1) d k]? :=
      fun d _ => getElem?_swap (by omega) (by omega)
    refine OneToOne.cons (Q := fun d r => (r.1.Perm (l.swap (i + 1) d) ∧
      ∀ k, i < k → r.1[k]? = (l.swap (i + 1) d)[k]?) ∧ r.2 = lists) ?_ ?_ ?_
    · intro d hd
      simp only [shuffleFrom_cons hi hd.2]
      exact ih (by rw [length_swap]; omega) ((hswap d).nodup_iff.mpr hl)
    · rintro d ⟨_, hd⟩ ⟨ys, _⟩ ⟨⟨hperm, hkeep⟩, rfl⟩
      change d < i + 1 + 1 at hd
      refine ⟨⟨hperm.trans (hswap d), ?_⟩, rfl⟩
      intro k hk
      rw [hkeep k (by omega), hget d hd, Equiv.swap_apply_of_ne_of_ne (by omega) (by omega)]
    · rintro ⟨ys, _⟩ ⟨⟨hperm, hkeep⟩, rfl⟩
      have hlen := hperm.length_eq
      have hmem : ys[i + 1] ∈ l := hperm.subset (getElem_mem (by omega))
      obtain ⟨j, hj, hval⟩ := getElem_of_mem hmem
      have hput : l[j]? = ys[i + 1]? := by
        rw [getElem?_eq_getElem hj, hval, getElem?_eq_getElem]
      have hji : j < i + 1 + 1 := by
        by_contra hgt
        have hsame := (hkeep j (by omega)).trans hput
        have := index_unique (hperm.nodup_iff.mpr hl) (by omega) hsame
        omega
      refine ⟨j, ⟨Nat.zero_le j, hji⟩, ⟨⟨hperm.trans (hswap j).symm, ?_⟩, rfl⟩, ?_⟩
      · intro k hk
        rw [hget j hji]
        by_cases hki : k = i + 1
        · rw [hki, Equiv.swap_apply_left, hput]
        · rw [Equiv.swap_apply_of_ne_of_ne hki (by omega), hkeep k (by omega)]
      · -- the element put at `i + 1` tells which draw it was
        intro d hd h
        have hval' := h.1.2 (i + 1) (by omega)
        rw [hget d hd, Equiv.swap_apply_left, ← hput] at hval'
        exact index_unique hl hj hval'.symm

/-! ## Sampling -/

/-- What the loop of `sample` makes of the pool and of `out`, and the draws it leaves. -/
def sampleFrom (n : Nat) : Nat → Nat → List T → List T → List Nat →
    Option (List T × List T × List Nat)
  | 0, _, pool, out, ds => some (pool, out, ds)
  | _ + 1, _, _, _, [] => none
  | c + 1, i, pool, out, d :: ds =>
    if i ≤ d ∧ d < n then do
      let pool ← exchange pool i d
      let x ← pool[i]?
      sampleFrom n c (i + 1) pool (out ++ [x]) ds
    else
      none

/-- The ranges of the loop of `sample` from `i`, with `c` rounds and `m` elements to go. -/
def sampleSpans : Nat → Nat → Nat → List Lib.Span
  | c + 1, m + 1, i => ⟨i, i + (m + 1), by omega⟩ :: sampleSpans c m (i + 1)
  | _, _, _ => []

theorem sequences_sampleSpans (c) : ∀ m i : Nat, c ≤ m →
    sequences (sampleSpans c m i) = m.descFactorial c := by
  induction c with
  | zero =>
    intro m i _
    rw [sampleSpans, Nat.descFactorial_zero]
    · rfl
    · exact fun _ _ h => nomatch h
  | succ c ih =>
    intro m i hc
    obtain ⟨m, rfl⟩ := Nat.exists_eq_succ_of_ne_zero (show m ≠ 0 by omega)
    rw [sampleSpans, sequences, ih m (i + 1) (by omega), Nat.succ_eq_add_one,
      Nat.succ_descFactorial_succ, Nat.add_sub_cancel_left]

/-- What one round and the rounds after it do, for a draw in range. -/
theorem sampleFrom_cons {c i d m pool} (hlen : pool.length = i + (m + 1)) (hi : i ≤ d)
    (hd : d < i + (m + 1)) (out : List T) (ds) :
    sampleFrom (i + (m + 1)) (c + 1) i pool out (d :: ds) =
      sampleFrom (i + 1 + m) c (i + 1) (pool.swap i d) (out ++ [pool.get ⟨d, by omega⟩]) ds := by
  have hget : (pool.swap i d)[i]? = some (pool.get ⟨d, by omega⟩) := by
    rw [getElem?_swap (by omega) (by omega), Equiv.swap_apply_left, getElem?_eq_getElem]
    rfl
  rw [sampleFrom, if_pos ⟨hi, hd⟩, exchange_eq (by omega) (by omega), bind_eq_bind,
    bind_some, hget, bind_eq_bind, bind_some,
    show i + (m + 1) = i + 1 + m by omega]

/-- `zs` can be drawn from the pool from position `i` on. -/
structure Selection (pool : List T) (i : Nat) (zs : List T) : Prop where
  nodup : zs.Nodup
  within : ∀ z ∈ zs, ∃ k, i ≤ k ∧ pool[k]? = some z

/-- A selection that starts with the element at `d`, before and after it is swapped to `i`. -/
theorem selection_cons_iff {pool : List T} (hpool : pool.Nodup) {i d} (hi : i ≤ d)
    (hd : d < pool.length) (zs) :
    Selection pool i (pool[d] :: zs) ↔ Selection (pool.swap i d) (i + 1) zs := by
  have hget : ∀ k, (pool.swap i d)[k]? = pool[Equiv.swap i d k]? := getElem?_swap (by omega) hd
  constructor
  · intro h
    refine ⟨(nodup_cons.mp h.nodup).2, ?_⟩
    intro z hz
    obtain ⟨k, hk, hval⟩ := h.within z (.tail _ hz)
    have hkd : k ≠ d := by
      rintro rfl
      rw [getElem?_eq_getElem hd, some_inj] at hval
      exact (nodup_cons.mp h.nodup).1 (hval ▸ hz)
    by_cases hki : k = i
    · refine ⟨d, by omega, ?_⟩
      rw [hget, Equiv.swap_apply_right, ← hki, hval]
    · refine ⟨k, by omega, ?_⟩
      rw [hget, Equiv.swap_apply_of_ne_of_ne hki hkd, hval]
  · intro h
    refine ⟨nodup_cons.mpr ⟨?_, h.nodup⟩, ?_⟩
    · intro hmem
      obtain ⟨k, hk, hval⟩ := h.within _ hmem
      rw [hget, ← getElem?_eq_getElem hd] at hval
      have hkd := index_unique hpool hd hval
      rw [Equiv.swap_apply_eq_iff, Equiv.swap_apply_right] at hkd
      omega
    · intro z hz
      rcases mem_cons.mp hz with rfl | hz
      · exact ⟨d, hi, getElem?_eq_getElem hd⟩
      obtain ⟨k, hk, hval⟩ := h.within z hz
      rw [hget] at hval
      refine ⟨_, ?_, hval⟩
      rw [Equiv.swap_apply_def]
      split_ifs <;> omega

theorem sampleFrom_oneToOne (lists : List (List T)) (c : Nat) : ∀ {m i : Nat} {pool : List T}
    (out : List T), c ≤ m → pool.length = i + m → pool.Nodup →
    OneToOne (sampleSpans c m i)
      (fun ds => (sampleFrom (i + m) c i pool out ds).map fun r => (r.2.1, lists))
      fun r => ∃ zs, r = (out ++ zs, lists) ∧ zs.length = c ∧ Selection pool i zs := by
  induction c with
  | zero =>
    intro m i pool out _ _ _
    rw [sampleSpans]
    · refine OneToOne.nil rfl ?_
      intro r
      constructor
      · rintro ⟨zs, rfl, hzs, _⟩
        rw [length_eq_zero_iff.mp hzs, append_nil]
      · rintro rfl
        exact ⟨[], by rw [append_nil], rfl, nodup_nil, fun z hz => nomatch hz⟩
    · exact fun _ _ h => nomatch h
  | succ c ih =>
    intro m i pool out hc hlen hpool
    obtain ⟨m, rfl⟩ := Nat.exists_eq_succ_of_ne_zero (show m ≠ 0 by omega)
    rw [sampleSpans]
    refine OneToOne.cons (Q := fun d r => ∃ hd : d < pool.length, ∃ zs,
      r = (out ++ [pool[d]] ++ zs, lists) ∧ zs.length = c ∧ Selection (pool.swap i d) (i + 1) zs)
      ?_ ?_ ?_
    · intro d hd
      have hdlen : d < pool.length := hlen ▸ hd.2
      simp only [Nat.succ_eq_add_one, sampleFrom_cons hlen hd.1 hd.2, hdlen, exists_true_left]
      exact ih _ (by omega) (by rw [length_swap]; omega) ((swap_perm pool i d).nodup_iff.mpr hpool)
    · rintro d ⟨hid, _⟩ r ⟨hd, zs, rfl, hzs, hsel⟩
      refine ⟨pool[d] :: zs, by rw [append_assoc]; rfl, congrArg (· + 1) hzs, ?_⟩
      exact (selection_cons_iff hpool hid hd zs).mpr hsel
    rintro r ⟨zs, rfl, hzs, hsel⟩
    obtain ⟨z, zs, rfl⟩ := exists_cons_of_length_eq_add_one hzs
    obtain ⟨j, hij, hval⟩ := hsel.within z mem_cons_self
    obtain ⟨hj, rfl⟩ := List.getElem?_eq_some_iff.mp hval
    refine ⟨j, ⟨hij, hj.trans_eq hlen⟩, ⟨hj, zs, by rw [append_assoc]; rfl, by simpa using hzs,
      (selection_cons_iff hpool hij hj zs).mp hsel⟩, ?_⟩
    -- the first element selected tells which draw it was
    rintro d _ ⟨hd, zs', heq, _, _⟩
    have hout := congrArg Prod.fst heq
    rw [append_assoc, append_cancel_left_eq] at hout
    exact hpool.getElem_inj_iff.mp (cons.inj hout).1.symm

/-! ## The programs -/

section

variable {lists : List (List T)} {l : List T} {ds : List Nat} {h : Nat}

theorem set_self (hh : lists[h]? = some l) : lists.set h l = lists := by
  obtain ⟨_, rfl⟩ := List.getElem?_eq_some_iff.mp hh
  exact set_getElem_self _

theorem getElem?_set_self (hh : lists[h]? = some l) (l') : (lists.set h l')[h]? = some l' := by
  rw [List.getElem?_set_self (List.getElem?_eq_some_iff.mp hh).1]

theorem set_pair {p o} (hpo : p ≠ o) (a b c d) :
    (((lists.set p a).set o b).set p c).set o d = (lists.set p c).set o d := by
  rw [set_comm b c hpo.symm, set_set, set_set]

section

variable (hh : lists[h]? = some l)
include hh

theorem run_contents :
    (contents h).run ⟨lists, ds⟩ = some (l, ⟨lists, ds⟩) := by
  simp [contents, StateT.run, hh]

theorem run_push (x) :
    (push h x).run ⟨lists, ds⟩ = some ((), ⟨lists.set h (l ++ [x]), ds⟩) := by
  rw [push, StateT.run_bind, run_contents hh]
  rfl

theorem run_index (i) :
    (index h i).run ⟨lists, ds⟩ = l[i]?.map fun x => (x, ⟨lists, ds⟩) := by
  rw [index, StateT.run_bind, run_contents hh, bind_eq_bind, bind_some]
  cases l[i]? <;> rfl

theorem run_exchangeAt (i j) : (exchangeAt h i j).run ⟨lists, ds⟩ =
      (exchange l i j).map fun l => ((), ⟨lists.set h l, ds⟩) := by
  rw [exchangeAt, StateT.run_bind, run_contents hh, bind_eq_bind, bind_some]
  cases exchange l i j <;> rfl

end

theorem run_forM_push (items : List T) : ∀ {lists : List (List T)} {l : List T},
    lists[h]? = some l →
    (items.forM (push h)).run ⟨lists, ds⟩ = some ((), ⟨lists.set h (l ++ items), ds⟩) := by
  induction items with
  | nil =>
    intro lists l hh
    rw [append_nil, set_self hh]
    rfl
  | cons x items ih =>
    intro lists l hh
    change (push h x >>= fun _ => items.forM (push h)).run ⟨lists, ds⟩ = _
    rw [StateT.run_bind, run_push hh]
    have hrest := ih (getElem?_set_self hh (l ++ [x]))
    rw [set_set, append_assoc] at hrest
    exact hrest

/-- A copy of a list in a new list object. -/
theorem run_fill (hh : lists[h]? = some l) :
    (fill h lists.length).run ⟨lists ++ [[]], ds⟩ = some ((), ⟨lists ++ [l], ds⟩) := by
  have hold : (lists ++ [[]])[h]? = some l := by
    rw [getElem?_append_left (List.getElem?_eq_some_iff.mp hh).1, hh]
  have hnew : (lists ++ [[]])[lists.length]? = some [] := getElem?_concat_length
  rw [fill, StateT.run_bind, run_contents hold]
  have hpush := @run_forM_push T ds lists.length l _ _ hnew
  rw [set_append_right _ _ le_rfl, Nat.sub_self, nil_append] at hpush
  exact hpush

theorem run_shuffleLoop (i) (hh : lists[h]? = some l) : (shuffleLoop h i).run ⟨lists, ds⟩ =
      (shuffleFrom i l ds).map fun r => ((), ⟨lists.set h r.1, r.2⟩) := by
  fun_induction shuffleFrom i l ds generalizing lists with
  | case1 l ds =>
    rw [map_some, set_self hh]
    rfl
  | case2 => rfl
  | case3 i l d ds hd ih =>
    have hdraw : (randInt 0 (i + 1 + 1)).run ⟨lists, d :: ds⟩ = some (d, ⟨lists, ds⟩) :=
      if_pos ⟨Nat.zero_le d, hd⟩
    rw [shuffleLoop, StateT.run_bind, hdraw, bind_eq_bind, bind_some, StateT.run_bind,
      run_exchangeAt hh]
    cases exchange l (i + 1) d with
    | none => rfl
    | some l' =>
      have hrest := ih l' (getElem?_set_self hh l')
      simp only [set_set] at hrest
      exact hrest
  | case4 i l d ds hd =>
    have hdraw : (randInt 0 (i + 1 + 1)).run ⟨lists, d :: ds⟩ = none := if_neg fun h => hd h.2
    rw [shuffleLoop, StateT.run_bind, hdraw]
    rfl

theorem run_sampleLoop {p o} (hpo : p ≠ o) (n c i) {pool out : List T}
    (hp : lists[p]? = some pool) (ho : lists[o]? = some out) :
    (sampleLoop p o n c i).run ⟨lists, ds⟩ = (sampleFrom n c i pool out ds).map fun r =>
      ((), ⟨(lists.set p r.1).set o r.2.1, r.2.2⟩) := by
  fun_induction sampleFrom n c i pool out ds generalizing lists with
  | case1 i pool out ds =>
    rw [map_some, set_self hp, set_self ho]
    rfl
  | case2 => rfl
  | case3 c i pool out d ds hd ih =>
    have hdraw : (randInt i n).run ⟨lists, d :: ds⟩ = some (d, ⟨lists, ds⟩) := if_pos hd
    rw [sampleLoop, StateT.run_bind, hdraw, bind_eq_bind, bind_some, StateT.run_bind,
      run_exchangeAt hp]
    cases exchange pool i d with
    | none => rfl
    | some pool' =>
      have hp' := getElem?_set_self hp pool'
      have ho' : (lists.set p pool')[o]? = some out := by
        rw [getElem?_set_ne hpo, ho]
      simp only [map_some, bind_eq_bind, bind_some, StateT.run_bind, run_index hp']
      cases pool'[i]? with
      | none => rfl
      | some x =>
        have hp'' : ((lists.set p pool').set o (out ++ [x]))[p]? = some pool' := by
          rw [getElem?_set_ne hpo.symm, hp']
        have hrest := ih pool' x hp'' (getElem?_set_self ho' (out ++ [x]))
        simp only [map_some, bind_some, run_push ho', hrest, set_pair hpo]
  | case4 c i pool out d ds hd =>
    have hdraw : (randInt i n).run ⟨lists, d :: ds⟩ = none := if_neg hd
    rw [sampleLoop, StateT.run_bind, hdraw]
    rfl

/-- What `shuffle` returns is the copy shuffled, and the lists there were are as they were. -/
theorem outcome_shuffle (hh : lists[h]? = some l) :
    outcome (shuffle h) lists ds = (shuffleFrom (l.length - 1) l ds).map fun r => (r.1, lists) := by
  have hnew : (lists ++ [l])[lists.length]? = some l := getElem?_concat_length
  have halloc : alloc.run ⟨lists, ds⟩ = some (lists.length, ⟨lists ++ [[]], ds⟩) := rfl
  simp only [outcome, shuffle, StateT.run_bind, halloc, run_fill hh, run_contents hnew,
    run_shuffleLoop _ hnew, bind_eq_bind, bind_some]
  cases shuffleFrom (l.length - 1) l ds with
  | none => rfl
  | some r => simp [set_append_right]

theorem outcome_sample (hh : lists[h]? = some l) (k) : outcome (sample h k) lists ds =
      (sampleFrom l.length (takeN l.length k).toNat 0 l [] ds).map fun r => (r.2.1, lists) := by
  have hold : (lists ++ [l])[lists.length]? = some l := getElem?_concat_length
  have hpool : (lists ++ [l] ++ [[]])[lists.length]? = some l := by
    rw [getElem?_append_left (by simp), hold]
  have hout : (lists ++ [l] ++ [[]])[(lists ++ [l]).length]? = some [] := getElem?_concat_length
  have halloc : ∀ lists : List (List T),
      alloc.run ⟨lists, ds⟩ = some (lists.length, ⟨lists ++ [[]], ds⟩) := fun _ => rfl
  have hne : lists.length ≠ (lists ++ [l]).length := by simp
  simp only [outcome, sample, StateT.run_bind, run_contents hh, halloc, run_fill hh,
    run_sampleLoop hne _ _ _ hpool hout, bind_eq_bind, bind_some]
  cases sampleFrom l.length (takeN l.length k).toNat 0 l [] ds with
  | none => rfl
  | some r => simp [set_append_right]

end

theorem takeN_toNat (n k) :
    (takeN n k).toNat ≤ n ∧ ((takeN n k).toNat : Int) = min (max k 0) n := by
  rw [takeN]
  omega

section

variable {lists : List (List T)} {l : List T} {xs : Nat}

theorem shuffle_oneToOne (hxs : lists[xs]? = some l) (hl : l.Nodup) :
    OneToOne (shuffleSpans (l.length - 1)) (outcome (shuffle xs) lists)
      fun r => r.1.Perm l ∧ r.2 = lists := by
  have hloop := shuffleFrom_oneToOne lists (l.length - 1) le_rfl hl
  simp only [← outcome_shuffle hxs] at hloop
  refine hloop.congr ?_
  intro r
  refine and_congr_left fun _ => and_iff_left_of_imp ?_
  intro hperm k hk
  have hlen := hperm.length_eq
  rw [getElem?_eq_none (by omega), getElem?_eq_none (by omega)]

theorem sample_oneToOne (hxs : lists[xs]? = some l) (hl : l.Nodup) (k) :
    OneToOne (sampleSpans (takeN l.length k).toNat l.length 0) (outcome (sample xs k) lists)
      fun r => (r.1.Nodup ∧ r.1 ⊆ l ∧ r.1.length = (takeN l.length k).toNat) ∧ r.2 = lists := by
  have hc := (takeN_toNat l.length k).1
  have hlen : l.length = 0 + l.length := (Nat.zero_add _).symm
  have hloop := sampleFrom_oneToOne lists _ [] hc hlen hl
  simp only [← hlen, ← outcome_sample hxs] at hloop
  refine hloop.congr ?_
  rintro ⟨zs, _⟩
  constructor
  · rintro ⟨_, ⟨⟩, hzs, hsel⟩
    refine ⟨⟨hsel.nodup, ?_, hzs⟩, rfl⟩
    intro z hz
    obtain ⟨k, _, hk⟩ := hsel.within z hz
    exact mem_of_getElem? hk
  · rintro ⟨⟨hnodup, hsub, hzs⟩, rfl⟩
    refine ⟨zs, rfl, hzs, hnodup, ?_⟩
    intro z hz
    obtain ⟨k, hk⟩ := mem_iff_getElem?.mp (hsub hz)
    exact ⟨k, Nat.zero_le k, hk⟩

end

/-- **`shuffle` reaches each permutation, and `sample` each ordered selection, by exactly one
sequence of draws**, so that independent uniform draws give a uniform result; the list they are
given is left as it was. -/
theorem shuffle_and_sample_one_to_one (lists : List (List T)) (xs : Nat) (l : List T)
    (hxs : lists[xs]? = some l) (hl : l.Nodup) (k : Int) :
    (OneToOne (shuffleSpans (l.length - 1)) (outcome (shuffle xs) lists)
        (fun r => r.1.Perm l ∧ r.2 = lists) ∧
      ∀ ys, ys.Perm l →
        (independent (shuffleSpans (l.length - 1))).map (outcome (shuffle xs) lists)
          (some (ys, lists)) = (l.length.factorial : ENNReal)⁻¹) ∧
    ∃ c : Nat, (c : Int) = min (max k 0) l.length ∧
      OneToOne (sampleSpans c l.length 0) (outcome (sample xs k) lists)
        (fun r => (r.1.Nodup ∧ r.1 ⊆ l ∧ r.1.length = c) ∧ r.2 = lists) ∧
      ∀ zs, zs.Nodup → zs ⊆ l → zs.length = c →
        (independent (sampleSpans c l.length 0)).map (outcome (sample xs k) lists)
          (some (zs, lists)) = (l.length.descFactorial c : ENNReal)⁻¹ := by
  have hshuffle := shuffle_oneToOne hxs hl
  have hsample := sample_oneToOne hxs hl k
  obtain ⟨hle, hmin⟩ := takeN_toNat l.length k
  have hfact : sequences (shuffleSpans (l.length - 1)) = l.length.factorial := by
    rw [sequences_shuffleSpans]
    cases l.length <;> rfl
  refine ⟨⟨hshuffle, ?_⟩, _, hmin, hsample, ?_⟩
  · intro ys hys
    rw [hshuffle.uniform ⟨hys, rfl⟩, hfact]
  · intro zs hnodup hsub hzs
    rw [hsample.uniform ⟨⟨hnodup, hsub, hzs⟩, rfl⟩, sequences_sampleSpans _ _ _ hle]

theorem shuffle_and_sample_three :
    (OneToOne (shuffleSpans 2) (outcome (shuffle 0) [["a", "b", "c"]])
        (fun r => r.1.Perm ["a", "b", "c"] ∧ r.2 = [["a", "b", "c"]]) ∧
      ∀ ys, ys.Perm ["a", "b", "c"] →
        (independent (shuffleSpans 2)).map (outcome (shuffle 0) [["a", "b", "c"]])
          (some (ys, [["a", "b", "c"]])) = (Nat.factorial 3 : ENNReal)⁻¹) ∧
    ∃ c : Nat, (c : Int) = min (max 2 0) 3 ∧
      OneToOne (sampleSpans c 3 0) (outcome (sample 0 2) [["a", "b", "c"]])
        (fun r => (r.1.Nodup ∧ r.1 ⊆ ["a", "b", "c"] ∧ r.1.length = c) ∧
          r.2 = [["a", "b", "c"]]) ∧
      ∀ zs, zs.Nodup → zs ⊆ ["a", "b", "c"] → zs.length = c →
        (independent (sampleSpans c 3 0)).map (outcome (sample 0 2) [["a", "b", "c"]])
          (some (zs, [["a", "b", "c"]])) = (Nat.descFactorial 3 c : ENNReal)⁻¹ :=
  shuffle_and_sample_one_to_one [["a", "b", "c"]] 0 ["a", "b", "c"] rfl (by decide) 2

/-- `choice`: the element at the position drawn. -/
theorem run_choice {lists} {l : List T} {xs} (hxs : lists[xs]? = some l) (d) (hd : d < l.length) :
    (choice xs).run ⟨lists, [d]⟩ = some (some l[d], ⟨lists, []⟩) := by
  have hdraw : (randInt 0 l.length).run ⟨lists, [d]⟩ = some (d, ⟨lists, []⟩) :=
    if_pos ⟨Nat.zero_le d, hd⟩
  have hne : l.length ≠ 0 := by omega
  simp only [choice, StateT.run_bind, run_contents hxs, bind_eq_bind, bind_some,
    if_neg hne, hdraw, run_index hxs, getElem?_eq_getElem hd, map_some]
  rfl

end ChezziLang.Stdlib.Iter
