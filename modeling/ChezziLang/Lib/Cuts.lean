/-
  Splitting a list at the occurrences of a separator.

  `Greedy` cuts at the first occurrence and goes on in what follows it; `RightGreedy` cuts at the
  last one and goes on in what precedes it.  Both stop after a number of cuts, if one is given.

  Proved:
  * `splitSeq_greedy`: the executable splitter is the greedy one without a limit.
  * `Greedy.limit`: a limit rejoins the pieces past it.
  * `Greedy.reverse`: greedy from the left in the reversed list is greedy from the right.
  * `RightGreedy.unique`, `RightGreedy.join`, `RightGreedy.length_le`.
-/
import Mathlib.Data.List.Basic

namespace ChezziLang.Lib.Cuts

open Function List Option

variable {α : Type}

/-- `s` is cut at the first occurrence of `sep`. -/
def First (sep s a b : List α) : Prop :=
  s = a ++ sep ++ b ∧ ∀ a' b', s = a' ++ sep ++ b' → a.length ≤ a'.length

/-- `s` is cut at the last occurrence of `sep`. -/
def Last (sep s a b : List α) : Prop :=
  s = a ++ sep ++ b ∧ ∀ a' b', s = a' ++ sep ++ b' → a'.length ≤ a.length

def Free (sep s : List α) : Prop := ∀ a b, s ≠ a ++ sep ++ b

inductive Greedy (sep : List α) : Option Nat → List α → List (List α) → Prop
  | stop {k s} (h : k = some 0 ∨ Free sep s) : Greedy sep k s [s]
  | cut {k s a b ps} (h : First sep s a b) (rest : Greedy sep k b ps) :
      Greedy sep (k.map (· + 1)) s (a :: ps)

inductive RightGreedy (sep : List α) : Option Nat → List α → List (List α) → Prop
  | stop {k s} (h : k = some 0 ∨ Free sep s) : RightGreedy sep k s [s]
  | cut {k s a b ps} (h : Last sep s a b) (rest : RightGreedy sep k a ps) :
      RightGreedy sep (k.map (· + 1)) s (ps ++ [b])

/-! ## The splitter -/

variable {sep s : List α}

section

variable [DecidableEq α]

/-- What precedes and what follows the first occurrence of `sep`. -/
def cutFirst (sep : List α) : List α → Option (List α × List α)
  | [] => if sep = [] then some ([], []) else none
  | c :: s =>
    if sep <+: c :: s then some ([], (c :: s).drop sep.length)
    else (cutFirst sep s).map fun ab => (c :: ab.1, ab.2)

theorem cutFirst_some {a b} (h : cutFirst sep s = some (a, b)) : First sep s a b := by
  induction s generalizing a with
  | nil =>
    obtain ⟨rfl, heq⟩ := ite_none_right_eq_some.mp h
    obtain ⟨rfl, rfl⟩ := Prod.mk.inj (some.inj heq)
    exact ⟨rfl, fun _ _ _ => Nat.zero_le _⟩
  | cons c s ih =>
    unfold cutFirst at h
    split at h
    · next hpre =>
      obtain ⟨rfl, rfl⟩ := Prod.mk.inj (some.inj h)
      exact ⟨(prefix_iff_eq_append.mp hpre).symm, fun _ _ _ => Nat.zero_le _⟩
    next hpre =>
    obtain ⟨⟨a', b'⟩, hrest, heq⟩ := map_eq_some_iff.mp h
    obtain ⟨rfl, rfl⟩ := Prod.mk.inj heq
    obtain ⟨hs, hfirst⟩ := ih hrest
    refine ⟨by rw [hs]; rfl, fun a'' b'' heq'' => ?_⟩
    cases a'' with
    | nil => exact absurd ⟨b'', heq''.symm⟩ hpre
    | cons d a'' => exact Nat.succ_le_succ (hfirst a'' b'' (cons.inj heq'').2)

theorem cutFirst_none (h : cutFirst sep s = none) : Free sep s := by
  induction s with
  | nil =>
    intro a b heq
    simp [cutFirst] at h
    simp_all
  | cons c s ih =>
    unfold cutFirst at h
    split at h
    · exact absurd h.symm (some_ne_none _ ·.symm)
    next hpre =>
    intro a b heq
    cases a with
    | nil => exact hpre ⟨b, heq.symm⟩
    | cons d a => exact ih (map_eq_none_iff.mp h) a b (cons.inj heq).2

/-- `s.split(sep)` for a separator that is not empty. -/
def splitSeq (sep s : List α) : List (List α) :=
  if _hsep : sep = [] then [s]
  else
    match _h : cutFirst sep s with
    | none => [s]
    | some (a, b) => a :: splitSeq sep b
termination_by s.length
decreasing_by
  have := congrArg length (cutFirst_some _h).1
  have := length_pos_iff.mpr _hsep
  simp only [length_append] at *
  omega

theorem splitSeq_greedy (hsep : sep ≠ []) (s) : Greedy sep none s (splitSeq sep s) := by
  induction s using splitSeq.induct sep with
  | case1 s h => exact absurd h hsep
  | case2 s _ h =>
    rw [splitSeq, dif_neg hsep]
    split
    · exact .stop (.inr (cutFirst_none h))
    · next heq => exact absurd (h.symm.trans heq) (by simp)
  | case3 s _ a b h ih =>
    rw [splitSeq, dif_neg hsep]
    split
    · next heq => exact absurd (heq.symm.trans h) (by simp)
    · next heq =>
      obtain ⟨rfl, rfl⟩ := Prod.mk.inj (some.inj (h.symm.trans heq))
      exact .cut (cutFirst_some h) ih

end

/-! ## Limits, joins, reversal -/

variable {ps : List (List α)}

theorem Greedy.ne_nil {k} (h : Greedy sep k s ps) : ps ≠ [] := by
  cases h <;> exact cons_ne_nil _ _

theorem Greedy.join {k} (h : Greedy sep k s ps) : sep.intercalate ps = s := by
  induction h with
  | stop => exact intercalate_singleton
  | cut hfirst rest ih => rw [intercalate_cons_of_ne_nil rest.ne_nil, ih, hfirst.1]

/-- With a limit the pieces past it stay joined. -/
theorem Greedy.limit (h : Greedy sep none s ps) (m) : Greedy sep (some m) s
      (if ps.length ≤ m + 1 then ps else ps.take m ++ [sep.intercalate (ps.drop m)]) := by
  generalize hk : (none : Option Nat) = k at h
  induction h generalizing m with
  | stop hfree =>
    subst hk
    exact .stop (.inr (hfree.resolve_left (some_ne_none 0 ·.symm)))
  | @cut k s a b ps hfirst rest ih =>
    obtain rfl : k = none := map_eq_none_iff.mp hk.symm
    cases m with
    | zero =>
      have hlong : ¬ (a :: ps).length ≤ 0 + 1 := by
        have := length_pos_iff.mpr rest.ne_nil
        rw [length_cons]
        omega
      rw [if_neg hlong, take_zero, drop_zero, nil_append, (Greedy.cut hfirst rest).join]
      exact .stop (.inl rfl)
    | succ m =>
      have := Greedy.cut hfirst (ih m rfl)
      rw [apply_ite (a :: ·)] at this
      simpa only [length_cons, Nat.add_le_add_iff_right, take_succ_cons,
        drop_succ_cons, cons_append, map_some] using this

theorem Greedy.reverse {k} (h : Greedy sep.reverse k s.reverse ps) :
    RightGreedy sep k s (ps.map reverse).reverse := by
  generalize hs : s.reverse = r at h
  induction h generalizing s with
  | @stop k r hstop =>
    subst hs
    rw [map_singleton, reverse_singleton, reverse_reverse]
    refine .stop (hstop.imp_right fun hfree a b hab => hfree b.reverse a.reverse ?_)
    simp [hab]
  | @cut k r a b ps hfirst rest ih =>
    subst hs
    rw [map_cons, reverse_cons]
    refine .cut ⟨?_, fun a' b' hab => ?_⟩ (ih (reverse_reverse b))
    · have := congrArg reverse hfirst.1
      simpa using this
    have hlen := congrArg length hab
    have hcut := congrArg length hfirst.1
    have := hfirst.2 b'.reverse a'.reverse (by simp [hab])
    simp only [length_append, length_reverse] at *
    omega

namespace RightGreedy

variable {sep s : List α} {k : Option Nat} {ps qs : List (List α)}

theorem ne_nil (h : RightGreedy sep k s ps) : ps ≠ [] := by
  cases h <;> simp

theorem length_le (h : RightGreedy sep k s ps) {m} (hk : k = some m) : ps.length ≤ m + 1 := by
  induction h generalizing m with
  | stop => exact Nat.succ_le_succ (Nat.zero_le m)
  | cut _ _ ih =>
    obtain ⟨n, hn, rfl⟩ := map_eq_some_iff.mp hk
    rw [length_append, length_singleton]
    exact Nat.succ_le_succ (ih hn)

theorem last_unique {a b a' b'} (h : Last sep s a b) (h' : Last sep s a' b') : a = a' ∧ b = b' := by
  have hlen : a.length = a'.length := Nat.le_antisymm (h'.2 _ _ h.1) (h.2 _ _ h'.1)
  obtain ⟨hleft, hb⟩ := append_inj (h.1.symm.trans h'.1) (by simp [hlen])
  exact ⟨(append_inj hleft hlen).1, hb⟩

theorem unique (h : RightGreedy sep k s ps) (h' : RightGreedy sep k s qs) : ps = qs := by
  induction h generalizing qs with
  | @stop k s hstop =>
    cases h' with
    | stop => rfl
    | cut hlast =>
      rcases hstop with hzero | hfree
      · obtain ⟨n, -, hn⟩ := map_eq_some_iff.mp hzero
        exact absurd hn (Nat.succ_ne_zero n)
      · exact absurd hlast.1 (hfree _ _)
  | @cut k s a b ps hlast rest ih =>
    generalize hk : k.map (· + 1) = k' at h'
    cases h' with
    | stop hstop =>
      rcases hstop with hzero | hfree
      · obtain ⟨n, -, hn⟩ := map_eq_some_iff.mp (hk.trans hzero)
        exact absurd hn (Nat.succ_ne_zero n)
      · exact absurd hlast.1 (hfree _ _)
    | cut hlast' rest' =>
      obtain ⟨rfl, rfl⟩ := last_unique hlast hlast'
      have hinj : Injective (Option.map (· + 1 : Nat → Nat)) :=
        map_injective fun _ _ => Nat.succ.inj
      rw [ih (hinj hk ▸ rest')]

theorem join (h : RightGreedy sep k s ps) : sep.intercalate ps = s := by
  induction h with
  | stop => exact intercalate_singleton
  | @cut k s a b ps hlast rest ih =>
    have hconcat : ∀ {qs : List (List α)}, qs ≠ [] →
        sep.intercalate (qs ++ [b]) = sep.intercalate qs ++ sep ++ b := by
      intro qs hne
      induction qs with
      | nil => exact absurd rfl hne
      | cons q qs ihq =>
        cases qs with
        | nil => simp
        | cons r qs =>
          rw [cons_append, intercalate_cons_of_ne_nil (by simp), ihq (by simp),
            intercalate_cons_cons]
          simp
    rw [hconcat rest.ne_nil, ih, hlast.1]

end RightGreedy

end ChezziLang.Lib.Cuts
