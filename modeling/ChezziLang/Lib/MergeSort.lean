/-
  Top-down merge sort whose comparison is a computation: it reads and writes a state, and
  it may fail.

  Proved:
  * `sort_moves`, `sort_perm`: for any comparison at all the state changes only by its
    calls, and a result is a permutation of the input.
  * `sort_total`: for a comparison that answers a total preorder the result exists, is
    sorted, and keeps the input's order between equivalent elements.
-/
import ChezziLang.Lib.Act
import Mathlib.Data.List.Perm.Basic

namespace ChezziLang.Lib.MergeSort

open List

variable {S E α β : Type}

open Act

/-! ## The sort -/

/-- Merge two runs; the left element goes first when the comparison says so. -/
def merge (le : α → α → Act S E Bool) : List α → List α → Act S E (List α)
  | [], r => Act.pure r
  | a :: l, [] => Act.pure (a :: l)
  | a :: l, b :: r => (le a b).andThen fun c =>
    if c then (merge le l (b :: r)).andThen fun out => Act.pure (a :: out)
    else (merge le (a :: l) r).andThen fun out => Act.pure (b :: out)
termination_by l r => l.length + r.length

def sort (le : α → α → Act S E Bool) (xs : List α) : Act S E (List α) :=
  if xs.length ≤ 1 then Act.pure xs
  else
    (sort le (xs.take (xs.length / 2))).andThen fun l =>
      (sort le (xs.drop (xs.length / 2))).andThen fun r => merge le l r
termination_by xs.length
decreasing_by
  all_goals simp only [List.length_take, List.length_drop]; omega

/-! ## Any comparison -/

section

variable {le : α → α → Act S E Bool}

theorem merge_moves {R} (hrefl : ∀ s, R s s) (htrans : ∀ s t u, R s t → R t u → R s u)
    (hle : ∀ a b, Moves R (le a b)) (l r) : Moves R (merge le l r) := by
  induction l, r using merge.induct with
  | case1 r | case2 a l =>
    rw [merge]
    exact moves_pure hrefl _
  | case3 a l b r ihl ihr =>
    rw [merge]
    refine Moves.andThen htrans (hle a b) fun c => ?_
    split
    · exact Moves.andThen htrans ihl fun out => moves_pure hrefl _
    · exact Moves.andThen htrans ihr fun out => moves_pure hrefl _

theorem sort_moves {R} (hrefl : ∀ s, R s s) (htrans : ∀ s t u, R s t → R t u → R s u)
    (hle : ∀ a b, Moves R (le a b)) (xs) : Moves R (sort le xs) := by
  induction xs using sort.induct with
  | case1 xs h =>
    rw [sort, if_pos h]
    exact moves_pure hrefl _
  | case2 xs h ihl ihr =>
    rw [sort, if_neg h]
    exact ihl.andThen htrans fun l => ihr.andThen htrans fun r => merge_moves hrefl htrans hle l r

theorem merge_perm (l r) : Returns (merge le l r) (Perm · (l ++ r)) := by
  induction l, r using merge.induct with
  | case1 r =>
    rw [merge]
    exact returns_pure (Perm.refl _)
  | case2 a l =>
    rw [merge]
    apply returns_pure
    rw [append_nil]
  | case3 a l b r ihl ihr =>
    rw [merge]
    refine Returns.andThen (P := fun _ => True) (fun _ _ _ => trivial) fun c _ => ?_
    split
    · exact ihl.andThen fun out hout => returns_pure (hout.cons a)
    · exact ihr.andThen fun out hout => returns_pure ((hout.cons b).trans perm_middle.symm)

/-- A result is a permutation of the input, whatever the comparison answers. -/
theorem sort_perm (xs) : Returns (sort le xs) (Perm · xs) := by
  induction xs using sort.induct with
  | case1 xs h =>
    rw [sort, if_pos h]
    exact returns_pure (Perm.refl _)
  | case2 xs h ihl ihr =>
    rw [sort, if_neg h]
    refine ihl.andThen fun l hl => ihr.andThen fun r hr => ?_
    intro s out hout
    have hmerge := merge_perm l r s out hout
    have hsplit := hl.append hr
    rw [take_append_drop] at hsplit
    exact hmerge.trans hsplit

end

/-! ## A total preorder -/

section

variable {le : α → α → Act S E Bool} {r : α → α → Bool}

/-- In order, and between equivalent elements the one that came before. -/
def Stable (r : α → α → Bool) (before : α → α → Prop) (a b : α) : Prop :=
  r a b = true ∧ (r b a = true → before a b)

theorem merge_total {I} (hle : ∀ a b, Total I (le a b) (· = r a b)) (xs ys) :
    Total I (merge le xs ys) (· = xs.merge ys r) := by
  induction xs, ys using merge.induct with
  | case1 ys =>
    rw [merge]
    exact total_pure (nil_merge ys).symm
  | case2 a xs =>
    rw [merge]
    exact total_pure (merge_right _).symm
  | case3 a xs b ys ihl ihr =>
    rw [merge, cons_merge_cons]
    refine (hle a b).andThen fun c hc => ?_
    subst hc
    split
    · exact ihl.andThen fun out hout => total_pure (by rw [hout])
    · exact ihr.andThen fun out hout => total_pure (by rw [hout])

/-- Merging keeps two sorted runs sorted and stable, the left run having come first. -/
theorem pairwise_merge {before} (htot : ∀ a b, r a b = true ∨ r b a = true)
    (htrans : ∀ a b c, r a b = true → r b c = true → r a c = true) (xs ys : List α)
    (hx : xs.Pairwise (Stable r before)) (hy : ys.Pairwise (Stable r before))
    (hxy : ∀ a ∈ xs, ∀ b ∈ ys, before a b) : (xs.merge ys r).Pairwise (Stable r before) := by
  induction xs generalizing ys with
  | nil => simpa using hy
  | cons a xs ihx =>
    induction ys with
    | nil => simpa using hx
    | cons b ys ihy =>
      rw [cons_merge_cons]
      obtain ⟨hax, hxs⟩ := pairwise_cons.mp hx
      obtain ⟨hby, hys⟩ := pairwise_cons.mp hy
      split
      · next hab =>
        refine pairwise_cons.mpr ⟨fun c hc => ?_, ihx (b :: ys) hxs hy ?_⟩
        · have hmem := (merge_perm_append ..).mem_iff.mp hc
          rcases mem_append.mp hmem with hc | hc
          · exact hax c hc
          refine ⟨?_, fun _ => hxy a mem_cons_self c hc⟩
          rcases mem_cons.mp hc with rfl | hc
          · exact hab
          · exact htrans a b c hab (hby c hc).1
        · intro c hc d hd
          exact hxy c (.tail _ hc) d hd
      · next hab =>
        have hba : r b a = true := (htot a b).resolve_left hab
        refine pairwise_cons.mpr ⟨fun c hc => ?_, ihy hys ?_⟩
        · have hmem := (merge_perm_append ..).mem_iff.mp hc
          rcases mem_append.mp hmem with hc | hc
          · rcases mem_cons.mp hc with rfl | hc
            · exact ⟨hba, fun h => absurd h hab⟩
            · have hac := (hax c hc).1
              exact ⟨htrans b a c hba hac, fun h => absurd (htrans a c b hac h) hab⟩
          · exact hby c hc
        · intro c hc d hd
          exact hxy c hc d (.tail _ hd)

/-- **The sort by a total preorder** ends with a sorted, stable permutation. -/
theorem sort_total {before I} (hle : ∀ a b, Total I (le a b) (· = r a b))
    (htot : ∀ a b, r a b = true ∨ r b a = true)
    (htrans : ∀ a b c, r a b = true → r b c = true → r a c = true) (xs : List α)
    (hxs : xs.Pairwise before) :
    Total I (sort le xs) fun out => out.Perm xs ∧ out.Pairwise (Stable r before) := by
  induction xs using sort.induct with
  | case1 xs h =>
    rw [sort, if_pos h]
    refine total_pure ⟨Perm.refl _, ?_⟩
    rcases xs with _ | ⟨a, _ | ⟨b, xs⟩⟩
    · exact List.Pairwise.nil
    · exact pairwise_singleton _ a
    · simp at h
  | case2 xs h ihl ihr =>
    rw [sort, if_neg h]
    rw [← take_append_drop (xs.length / 2) xs, pairwise_append] at hxs
    obtain ⟨hl, hr, hlr⟩ := hxs
    refine (ihl hl).andThen fun l hleft => (ihr hr).andThen fun r' hright => ?_
    refine (merge_total hle l r').mono ?_
    rintro out rfl
    constructor
    · refine (merge_perm_append ..).trans ((hleft.1.append hright.1).trans ?_)
      rw [take_append_drop]
    · refine pairwise_merge htot htrans l r' hleft.2 hright.2 fun a ha b hb => ?_
      exact hlr a (hleft.1.mem_iff.mp ha) b (hright.1.mem_iff.mp hb)

end

end ChezziLang.Lib.MergeSort
