/-
  `std.collections`: the binary heap `Heap[T]` over a list with a comparator.

  The first part is the code; an index out of range is `none`, and so is a sifting loop that
  has not ended after as many rounds as there are elements.  The second is what a heap is for:
  a bag of elements that gives up a most extreme one.

  Proved:
  * `siftUp_spec`, `siftDown_spec`: the loops end, permute the list and restore the order.
  * `push_spec`, `pop_spec`: one operation on an ordered heap is one step of the bag.
  * `heap_is_priority_queue`: a heap built by `from_list` under any interleaving of pushes and
    pops is that bag, and emptying it sorts what it held.
-/
import ChezziLang.Lib.BinHeap
import ChezziLang.Lib.Exchange
import Mathlib.Data.Multiset.AddSub

namespace ChezziLang.Stdlib.Collections

open Lib Lib.BinHeap List

variable {T : Type}

/-! ## The code -/

/-- `Heap`: `less a b` means that `a` is popped before `b`. -/
structure Heap (T : Type) where
  data : List T
  less : T → T → Bool

/-- The loop of `push`, from position `i`. -/
def siftUp (less : T → T → Bool) : Nat → Nat → List T → Option (List T)
  | 0, _, _ => none
  | fuel + 1, i, data =>
    if 0 < i then do
      let x ← data[i]?
      let y ← data[(i - 1) / 2]?
      if less x y then
        let data ← exchange data i ((i - 1) / 2)
        siftUp less fuel ((i - 1) / 2) data
      else
        return data
    else
      return data

/-- `if c < m and less(data[c], data[best]): best = c`. -/
def pick (less : T → T → Bool) (data : List T) (m c best : Nat) : Option Nat :=
  if c < m then do
    let x ← data[c]?
    let y ← data[best]?
    return if less x y then c else best
  else
    return best

/-- The loop of `pop`, from position `i` of a list of length `m`. -/
def siftDown (less : T → T → Bool) (m : Nat) : Nat → Nat → List T → Option (List T)
  | 0, _, _ => none
  | fuel + 1, i, data => do
    let best ← pick less data m (2 * i + 1) i
    let best ← pick less data m (2 * i + 2) best
    if best = i then
      return data
    else
      let data ← exchange data i best
      siftDown less m fuel best data

namespace Heap

def push (h : Heap T) (x : T) : Option (Heap T) := do
  let data := h.data ++ [x]
  let data ← siftUp h.less data.length (data.length - 1) data
  return { h with data }

def pop (h : Heap T) : Option (Option T × Heap T) :=
  let n := h.data.length
  if n = 0 then
    return (none, h)
  else do
    let top ← h.data[0]?
    let last ← h.data[n - 1]?
    let data := h.data.dropLast
    if n > 1 then
      let data ← siftDown h.less data.length data.length 0 (data.set 0 last)
      return (some top, { h with data })
    else
      return (some top, { h with data })

def peek (h : Heap T) : Option (Option T) :=
  if h.data.length = 0 then
    return none
  else do
    let top ← h.data[0]?
    return some top

end Heap

/-- `from_list`. -/
def fromList (xs : List T) (less : T → T → Bool) : Option (Heap T) :=
  xs.foldlM Heap.push ⟨[], less⟩

/-! ## The bag -/

inductive HeapOp (T : Type)
  | push (x : T)
  | pop

/-- One operation of the bag: what it held, what came out and what it holds after. -/
inductive BagStep (less : T → T → Bool) : HeapOp T → Multiset T → Option T → Multiset T → Prop
  | push (x : T) (m : Multiset T) : BagStep less (.push x) m none (x ::ₘ m)
  | popEmpty : BagStep less .pop 0 none 0
  | pop (t : T) (m : Multiset T) (top : ∀ y ∈ m, less y t = false) :
      BagStep less .pop (t ::ₘ m) (some t) m

/-- A run of the bag. -/
inductive BagRun (less : T → T → Bool) :
    List (HeapOp T) → Multiset T → List (Option T) → Multiset T → Prop
  | nil (m : Multiset T) : BagRun less [] m [] m
  | cons {op : HeapOp T} {ops : List (HeapOp T)} {m0 m1 m2 : Multiset T} {out : Option T}
      {outs : List (Option T)} (head : BagStep less op m0 out m1)
      (tail : BagRun less ops m1 outs m2) : BagRun less (op :: ops) m0 (out :: outs) m2

namespace Heap

/-- One operation of the heap and what it returns. -/
def step (h : Heap T) : HeapOp T → Option (Option T × Heap T)
  | .push x => do
    let h ← h.push x
    return (none, h)
  | .pop => h.pop

def run (h : Heap T) : List (HeapOp T) → Option (List (Option T) × Heap T)
  | [] => some ([], h)
  | op :: ops => do
    let (out, h) ← h.step op
    let (outs, h) ← h.run ops
    return (out :: outs, h)

end Heap

/-! ## Sifting -/

/-- `a` is popped before `b`. -/
abbrev Before (less : T → T → Bool) (a b : T) : Prop := less a b = true

/-- No element belongs above its parent. -/
def Sifted (less : T → T → Bool) (data : List T) : Prop :=
  Ordered (Above (Before less)) (data[·]?)

variable {less : T → T → Bool} [IsStrictWeakOrder T (Before less)] {data : List T} {h : Heap T}

theorem layout_swap {i j} (hi : i < data.length) (hj : j < data.length) :
    ((data.swap i j)[·]?) = (data[·]?) ∘ Equiv.swap i j := by
  funext k
  exact getElem?_swap hi hj k

theorem siftUp_spec (fuel) : ∀ (i : Nat) (data : List T), i < data.length → i < fuel →
    UpReady (Above (Before less)) (data[·]?) i →
    ∃ data', siftUp less fuel i data = some data' ∧ data'.Perm data ∧ Sifted less data' := by
  induction fuel with
  | zero =>
    omega
  | succ fuel ih =>
    intro i data hi hfuel hup
    rw [siftUp]
    by_cases hpos : 0 < i
    · have hp : (i - 1) / 2 < data.length := by omega
      rw [if_pos hpos, getElem?_eq_getElem hi, getElem?_eq_getElem hp, Option.bind_eq_bind,
        Option.bind_some, Option.bind_eq_bind, Option.bind_some]
      by_cases hless : less data[i] data[(i - 1) / 2]
      · have habove : Above (Before less) data[i]? data[parent i]? := by
          rw [parent, getElem?_eq_getElem hi, getElem?_eq_getElem hp]
          exact hless
        obtain ⟨data', hrun, hperm, hord⟩ := ih ((i - 1) / 2) (data.swap i ((i - 1) / 2))
          (by rw [length_swap]; omega) (by omega)
          (by rw [layout_swap hi hp]; exact hup.step hpos habove)
        rw [if_pos hless, exchange_eq hi hp]
        exact ⟨data', hrun, hperm.trans (swap_perm ..), hord⟩
      · rw [if_neg hless]
        refine ⟨data, rfl, Perm.refl _, hup.ordered fun _ => ?_⟩
        rw [parent, getElem?_eq_getElem hi, getElem?_eq_getElem hp]
        exact hless
    · rw [if_neg hpos]
      exact ⟨data, rfl, Perm.refl _, hup.ordered fun h => absurd h hpos⟩

/-- What `pick` keeps is one of the two, and neither is above it. -/
theorem pick_spec {c best} (hbest : best < data.length) :
    ∃ b, pick less data data.length c best = some b ∧ b < data.length ∧
      (b = best ∨ b = c ∧ Above (Before less) data[c]? data[best]?) ∧
      ¬ Above (Before less) data[c]? data[b]? ∧ ¬ Above (Before less) data[best]? data[b]? := by
  rw [pick]
  by_cases hc : c < data.length
  · rw [if_pos hc, getElem?_eq_getElem hc, getElem?_eq_getElem hbest]
    by_cases hless : less data[c] data[best]
    · refine ⟨c, by simp [hless], hc, .inr ⟨rfl, hless⟩, ?_, ?_⟩
      · rw [getElem?_eq_getElem hc]
        exact irrefl_of (Before less) _
      · rw [getElem?_eq_getElem hc]
        exact asymm_of (Before less) hless
    · refine ⟨best, by simp [hless], hbest, .inl rfl, ?_, ?_⟩
      · rw [getElem?_eq_getElem hbest]
        exact hless
      · rw [getElem?_eq_getElem hbest]
        exact irrefl_of (Before less) _
  · have hnone : data[c]? = none := getElem?_eq_none (by omega)
    rw [if_neg hc, hnone]
    exact ⟨best, rfl, hbest, .inl rfl, id, irrefl_of (Above (Before less)) _⟩

theorem siftDown_spec (fuel) : ∀ (i : Nat) (data : List T), i < data.length →
    data.length ≤ i + fuel → DownReady (Above (Before less)) (data[·]?) i →
    ∃ data', siftDown less data.length fuel i data = some data' ∧ data'.Perm data ∧
      Sifted less data' := by
  induction fuel with
  | zero =>
    omega
  | succ fuel ih =>
    intro i data hi hfuel hdown
    obtain ⟨b1, hp1, hb1, hw1, hl1, hi1⟩ := @pick_spec T less _ data (2 * i + 1) i hi
    obtain ⟨b2, hp2, hb2, hw2, hr2, hi2⟩ := @pick_spec T less _ data (2 * i + 2) b1 hb1
    -- the second pick is no worse than the first, so no child belongs above it
    have htop : ∀ j, 0 < j → parent j = i → ¬ Above (Before less) data[j]? data[b2]? := by
      intro j hj hpj
      rcases (parent_eq_iff hj).mp hpj with rfl | rfl
      · exact not_above_trans hl1 hi2
      · exact hr2
    rw [siftDown, hp1, Option.bind_eq_bind, Option.bind_some, hp2, Option.bind_eq_bind,
      Option.bind_some]
    by_cases hstop : b2 = i
    · rw [if_pos hstop]
      exact ⟨data, rfl, Perm.refl _, hdown.ordered (hstop ▸ htop)⟩
    have hchild : 0 < b2 ∧ parent b2 = i ∧ i < b2 := by
      unfold parent
      omega
    have habove : Above (Before less) data[b2]? data[i]? := by
      rcases hw2 with rfl | ⟨rfl, habove⟩
      · rcases hw1 with rfl | ⟨rfl, habove⟩
        · exact absurd rfl hstop
        · exact habove
      · rcases hw1 with rfl | ⟨rfl, hfirst⟩
        · exact habove
        · exact trans_of (Above (Before less)) habove hfirst
    obtain ⟨data', hrun, hperm, hord⟩ := ih b2 (data.swap i b2)
      (by rw [length_swap]; exact hb2) (by rw [length_swap]; omega)
      (by rw [layout_swap hi hb2]; exact hdown.step hchild.1 hchild.2.1 habove htop)
    rw [length_swap] at hrun
    rw [if_neg hstop, exchange_eq hi hb2]
    exact ⟨data', hrun, hperm.trans (swap_perm ..), hord⟩

/-! ## The operations -/

omit [IsStrictWeakOrder T (Before less)] in
/-- A new last element is all that may be out of order. -/
theorem Sifted.upReady (h : Sifted less data) (x) :
    UpReady (Above (Before less)) ((data ++ [x])[·]?) data.length := by
  have hpast : ∀ j, data.length < j → (data ++ [x])[j]? = none := by
    intro j hj
    exact getElem?_eq_none (by simp; omega)
  refine ⟨?_, ?_⟩
  · intro j hj hne
    have hp := parent_lt hj
    rcases Nat.lt_or_gt_of_ne hne with hlt | hgt
    · rw [getElem?_append_left hlt, getElem?_append_left (by omega)]
      exact h j hj
    · rw [hpast j hgt]
      exact id
  · intro j hj hpj _
    have hp := parent_lt hj
    rw [hpast j (by omega)]
    exact id

omit [IsStrictWeakOrder T (Before less)] in
/-- The last element put at the root is all that may be out of order. -/
theorem Sifted.downReady (h : Sifted less data) (x) :
    DownReady (Above (Before less)) ((data.dropLast.set 0 x)[·]?) 0 := by
  refine ⟨?_, fun _ _ _ h0 => absurd h0 (lt_irrefl 0)⟩
  intro j hj hpj
  have hp := parent_lt hj
  rw [getElem?_set_ne (by omega), getElem?_set_ne (by omega), getElem?_dropLast, getElem?_dropLast]
  by_cases hlt : j < data.length - 1
  · rw [if_pos hlt, if_pos (by omega)]
    exact h j hj
  · rw [if_neg hlt]
    exact id

theorem push_spec (hless : h.less = less) (hs : Sifted less h.data) (x) :
    ∃ h', h.push x = some h' ∧ h'.less = less ∧ Sifted less h'.data ∧
      (h'.data : Multiset T) = x ::ₘ (h.data : Multiset T) := by
  obtain ⟨data, hrun, hperm, hord⟩ := siftUp_spec (h.data ++ [x]).length
    h.data.length (h.data ++ [x]) (by simp) (by simp) (hs.upReady x)
  refine ⟨{ h with data }, ?_, hless, hord, ?_⟩
  · have hlast : (h.data ++ [x]).length - 1 = h.data.length := by simp
    rw [Heap.push, hless, hlast, hrun]
    rfl
  · rw [Multiset.cons_coe, Multiset.coe_eq_coe]
    exact hperm.trans (perm_append_singleton x h.data)

/-- The rest of a list after its first element, with the last one put first. -/
theorem set_dropLast_perm (x : T) {rest} (hrest : rest ≠ []) :
    ((x :: rest).dropLast.set 0 (rest.getLast hrest)).Perm rest := by
  rw [dropLast_cons_of_ne_nil hrest, set_cons_zero]
  apply (perm_append_singleton _ _).symm.trans
  rw [dropLast_append_getLast hrest]

theorem Sifted.top {x rest} (h : Sifted less (x :: rest)) : ∀ y ∈ rest, less y x = false := by
  intro y hy
  obtain ⟨j, hj, rfl⟩ := getElem_of_mem hy
  have hroot := Ordered.root h (j + 1)
  rw [getElem?_cons_succ, getElem?_cons_zero, getElem?_eq_getElem hj] at hroot
  exact Bool.eq_false_iff.mpr hroot

theorem pop_spec (hless : h.less = less) (hs : Sifted less h.data) :
    ∃ out h', h.pop = some (out, h') ∧ h'.less = less ∧ Sifted less h'.data ∧
      BagStep less .pop h.data out h'.data := by
  obtain ⟨data, lt⟩ := h
  subst hless
  rcases data with _ | ⟨x, rest⟩
  · exact ⟨none, _, rfl, rfl, hs, BagStep.popEmpty⟩
  have hstep := BagStep.pop x (rest : Multiset T) hs.top
  by_cases hrest : rest = []
  · subst hrest
    exact ⟨some x, ⟨[], _⟩, rfl, rfl, fun _ _ => id, hstep⟩
  have hlen : 0 < rest.length := length_pos_iff.mpr hrest
  have hlast : (x :: rest)[rest.length]? = some (rest.getLast hrest) := by
    rw [getElem?_cons, if_neg (by omega), getLast_eq_getElem, getElem?_eq_getElem (by omega)]
  have hperm := set_dropLast_perm x hrest
  obtain ⟨data', hrun, hperm', hord⟩ := siftDown_spec (x :: rest).dropLast.length 0
    ((x :: rest).dropLast.set 0 (rest.getLast hrest)) (by simp [hlen]) (by simp)
    (hs.downReady _)
  rw [length_set] at hrun
  refine ⟨some x, ⟨data', _⟩, ?_, rfl, hord, ?_⟩
  · have hmany : rest.length + 1 > 1 := by omega
    simp only [Heap.pop, length_cons, Nat.add_sub_cancel, hlast, if_pos hmany]
    rw [if_neg (by omega), getElem?_cons_zero, Option.bind_eq_bind, Option.bind_some,
      Option.bind_eq_bind, Option.bind_some, hrun]
    rfl
  · rwa [Multiset.coe_eq_coe.mpr (hperm'.trans hperm)]

omit [IsStrictWeakOrder T (Before less)] in
/-- `peek` shows what `pop` would return. -/
theorem peek_eq (h : Heap T) : h.peek = some h.data.head? := by
  obtain ⟨data, _⟩ := h
  cases data <;> rfl

/-! ## Runs -/

theorem step_spec (hless : h.less = less) (hs : Sifted less h.data) (op) :
    ∃ out h', h.step op = some (out, h') ∧ h'.less = less ∧ Sifted less h'.data ∧
      BagStep less op h.data out h'.data := by
  cases op with
  | push x =>
    obtain ⟨h', hrun, hless', hs', hbag⟩ := push_spec hless hs x
    refine ⟨none, h', by rw [Heap.step, hrun]; rfl, hless', hs', ?_⟩
    rw [hbag]
    exact BagStep.push x _
  | pop => exact pop_spec hless hs

theorem run_spec (ops) : ∀ {h : Heap T}, h.less = less → Sifted less h.data →
    ∃ outs h', h.run ops = some (outs, h') ∧ h'.less = less ∧ Sifted less h'.data ∧
      BagRun less ops h.data outs h'.data := by
  induction ops with
  | nil =>
    intro h hless hs
    exact ⟨[], h, rfl, hless, hs, BagRun.nil _⟩
  | cons op ops ih =>
    intro h hless hs
    obtain ⟨out, h1, hstep, hless1, hs1, hbag⟩ := step_spec hless hs op
    obtain ⟨outs, h2, hrun, hless2, hs2, hbags⟩ := ih hless1 hs1
    refine ⟨out :: outs, h2, ?_, hless2, hs2, BagRun.cons hbag hbags⟩
    simp only [Heap.run, hstep, hrun, Option.bind_eq_bind, Option.bind_some, Option.pure_def]

theorem foldlM_push_spec (xs : List T) : ∀ {h : Heap T}, h.less = less → Sifted less h.data →
    ∃ h', xs.foldlM Heap.push h = some h' ∧ h'.less = less ∧ Sifted less h'.data ∧
      (h'.data : Multiset T) = (xs : Multiset T) + h.data := by
  induction xs with
  | nil =>
    intro h hless hs
    exact ⟨h, rfl, hless, hs, (Multiset.zero_add _).symm⟩
  | cons x xs ih =>
    intro h hless hs
    obtain ⟨h1, hpush, hless1, hs1, hbag⟩ := push_spec hless hs x
    obtain ⟨h2, hfold, hless2, hs2, hbag2⟩ := ih hless1 hs1
    refine ⟨h2, ?_, hless2, hs2, ?_⟩
    · rw [foldlM_cons, hpush]
      exact hfold
    · rw [hbag2, hbag, ← Multiset.cons_coe, Multiset.cons_add, Multiset.add_cons]

omit [IsStrictWeakOrder T (Before less)] in
/-- A bag that is popped as often as it holds elements gives them all up, in order. -/
theorem BagRun.drains {m m' outs n} (hn : m.card = n)
    (hrun : BagRun less (replicate n .pop) m outs m') :
    ∃ ys : List T, outs = ys.map some ∧ m' = 0 ∧ (ys : Multiset T) = m ∧
      ys.Pairwise fun a b => less b a = false := by
  induction n generalizing m outs with
  | zero =>
    cases hrun
    rw [Multiset.card_eq_zero] at hn
    subst hn
    exact ⟨[], rfl, rfl, rfl, Pairwise.nil⟩
  | succ n ih =>
    rw [replicate_succ] at hrun
    obtain ⟨_⟩ | ⟨hhead, htail⟩ := hrun
    cases hhead with
    | popEmpty => simp at hn
    | pop t rest htop =>
      obtain ⟨ys, rfl, hempty, hys, hsorted⟩ := ih (by simpa using hn) htail
      subst hys
      exact ⟨t :: ys, rfl, hempty, rfl, Pairwise.cons htop hsorted⟩

/-- **A heap is a bag that gives up a most extreme element.**  Built by `from_list` and under any
pushes and pops it never faults and does what the bag does; popped until it is empty, it returns
what it held in order. -/
theorem heap_is_priority_queue (less : T → T → Bool) [IsStrictWeakOrder T (Before less)]
    (xs : List T) (ops : List (HeapOp T)) :
    ∃ h₀ outs h, fromList xs less = some h₀ ∧ h₀.run ops = some (outs, h) ∧
      BagRun less ops xs outs h.data ∧
      ∃ (ys : List T) (drained : Heap T), h.run (List.replicate h.data.length .pop) =
          some (ys.map some, drained) ∧
        drained.data = [] ∧ ys.Perm h.data ∧ ys.Pairwise fun a b => less b a = false := by
  obtain ⟨h₀, hbuild, hless0, hs0, hbag0⟩ :=
    foldlM_push_spec xs (h := ⟨[], less⟩) rfl (fun _ _ => id)
  obtain ⟨outs, h, hrun, hless, hs, hbag⟩ := run_spec ops hless0 hs0
  obtain ⟨pops, drained, hdrain, _, _, hpops⟩ :=
    run_spec (replicate h.data.length .pop) hless hs
  obtain ⟨ys, rfl, hempty, hys, hsorted⟩ := hpops.drains (Multiset.coe_card _)
  have hxs : (h₀.data : Multiset T) = xs := by
    rw [hbag0]
    exact Multiset.add_zero _
  rw [hxs] at hbag
  exact ⟨h₀, outs, h, hbuild, hrun, hbag, ys, drained, hdrain,
    (Multiset.coe_eq_zero _).mp hempty, Multiset.coe_eq_coe.mp hys, hsorted⟩

/-- `fn(a, b): a < b`, the order of `min_heap`. -/
def lessInt (a b : Int) : Bool := a < b

instance : IsStrictWeakOrder Int (Before lessInt) where
  irrefl a := by simp [Before, lessInt]
  trans a b c := by
    simp only [Before, lessInt, decide_eq_true_eq]
    omega
  incomp_trans a b c := by
    simp only [Before, lessInt, decide_eq_true_eq]
    omega

theorem min_heap_is_priority_queue :
    ∃ h₀ outs h, fromList [3, 1, 2] lessInt = some h₀ ∧
      h₀.run [.pop, .push 0, .pop] = some (outs, h) ∧
      BagRun lessInt [.pop, .push 0, .pop] ([3, 1, 2] : List Int) outs h.data ∧
      ∃ (ys : List Int) (drained : Heap Int), h.run (List.replicate h.data.length .pop) =
          some (ys.map some, drained) ∧
        drained.data = [] ∧ ys.Perm h.data ∧ ys.Pairwise fun a b => lessInt b a = false :=
  heap_is_priority_queue lessInt [3, 1, 2] [.pop, .push 0, .pop]

end ChezziLang.Stdlib.Collections
