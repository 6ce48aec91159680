/-
  Machines that step deterministically until they end, and two of them run in lockstep.

  `Ends step n c r`: from `c`, after `n` more steps, the machine ends with `r`.
  `Goes step c c'`: from `c` it comes to `c'` in at least one step.

  Proved:
  * `Ends.after_goes`: a run that ends goes through every configuration it comes to.
  * `Lockstep.endsWith_iff`: two machines whose related configurations come to related
    configurations, or end alike, end with the same results.
-/
namespace ChezziLang.Lib

/-- What one step does. -/
inductive Move (C R : Type) where
  | next (c : C)
  | stop (r : R)

section

variable {C R : Type} {step : C → Move C R} {c c' c'' : C} {r : R} {n : Nat}

inductive Goes (step : C → Move C R) : C → C → Prop where
  | one {c c' : C} (h : step c = .next c') : Goes step c c'
  | cons {c c' c'' : C} (h : step c = .next c') (rest : Goes step c' c'') : Goes step c c''

/-- From `c` it comes to `c'`, or is there. -/
def Comes (step : C → Move C R) (c c' : C) : Prop := c = c' ∨ Goes step c c'

inductive Ends (step : C → Move C R) : Nat → C → R → Prop where
  | stop {c : C} {r : R} (h : step c = .stop r) : Ends step 0 c r
  | next {n : Nat} {c c' : C} {r : R} (h : step c = .next c') (rest : Ends step n c' r) :
      Ends step (n + 1) c r

/-- From `c` the machine ends with `r`. -/
def EndsWith (step : C → Move C R) (c : C) (r : R) : Prop := ∃ n, Ends step n c r

theorem Goes.trans (h : Goes step c c') (h' : Goes step c' c'') : Goes step c c'' := by
  induction h with
  | one h => exact .cons h h'
  | cons h _ ih => exact .cons h (ih h')

/-- What each step keeps, a run keeps. -/
theorem Goes.keeps {P : C → Prop} (hstep : ∀ c c', step c = .next c' → P c → P c')
    (h : Goes step c c') (hP : P c) : P c' := by
  induction h with
  | one h => exact hstep _ _ h hP
  | cons h _ ih => exact ih (hstep _ _ h hP)

theorem EndsWith.of_stop (h : step c = .stop r) : EndsWith step c r := ⟨0, .stop h⟩

theorem Goes.endsWith (h : Goes step c c') (h' : EndsWith step c' r) : EndsWith step c r := by
  induction h with
  | one h =>
    obtain ⟨n, hn⟩ := h'
    exact ⟨n + 1, .next h hn⟩
  | cons h _ ih =>
    obtain ⟨n, hn⟩ := ih h'
    exact ⟨n + 1, .next h hn⟩

theorem Goes.comes (h : Goes step c c') : Comes step c c' := .inr h

theorem Goes.trans_comes (h : Goes step c c') (h' : Comes step c' c'') : Goes step c c'' := by
  rcases h' with rfl | h'
  · exact h
  · exact h.trans h'

theorem Comes.trans (h : Comes step c c') (h' : Comes step c' c'') : Comes step c c'' := by
  rcases h with rfl | h
  · exact h'
  · exact (h.trans_comes h').comes

theorem Comes.endsWith (h : Comes step c c') (h' : EndsWith step c' r) : EndsWith step c r := by
  rcases h with rfl | h
  · exact h'
  · exact h.endsWith h'

/-- The rest of a run that goes through `c'` is shorter. -/
theorem Ends.after_goes (h : Goes step c c') (hend : Ends step n c r) :
    ∃ m, m < n ∧ Ends step m c' r := by
  induction h generalizing n with
  | one h =>
    cases hend with
    | stop h' =>
      rw [h] at h'
      cases h'
    | next h' rest =>
      rw [h] at h'
      cases h'
      exact ⟨_, Nat.lt_succ_self _, rest⟩
  | cons h _ ih =>
    cases hend with
    | stop h' =>
      rw [h] at h'
      cases h'
    | next h' rest =>
      rw [h] at h'
      cases h'
      obtain ⟨m, hlt, hm⟩ := ih rest
      exact ⟨m, Nat.lt_succ_of_lt hlt, hm⟩

theorem Ends.unique {r' m} (h : Ends step n c r) (h' : Ends step m c r') : r = r' := by
  induction h generalizing m with
  | stop h =>
    cases h' with
    | stop h' =>
      rw [h] at h'
      cases h'
      rfl
    | next h' _ =>
      rw [h] at h'
      cases h'
  | next h _ ih =>
    cases h' with
    | stop h' =>
      rw [h] at h'
      cases h'
    | next h' rest =>
      rw [h] at h'
      cases h'
      exact ih rest

theorem EndsWith.unique {r'} (h : EndsWith step c r) (h' : EndsWith step c r') : r = r' := by
  obtain ⟨_, h⟩ := h
  obtain ⟨_, h'⟩ := h'
  exact h.unique h'

end

section

variable {C D R : Type} {stepC : C → Move C R} {stepD : D → Move D R} {Rel : C → D → Prop}

/-- Related configurations come to related ones, or end alike. -/
def Lockstep (stepC : C → Move C R) (stepD : D → Move D R) (Rel : C → D → Prop) : Prop :=
  ∀ c d, Rel c d →
    (∃ c' d', Goes stepC c c' ∧ Goes stepD d d' ∧ Rel c' d') ∨
      ∃ r, EndsWith stepC c r ∧ EndsWith stepD d r

section

variable (h : Lockstep stepC stepD Rel)
include h

theorem Lockstep.symm : Lockstep stepD stepC fun d c => Rel c d := by
  intro d c hrel
  rcases h c d hrel with ⟨c', d', hc, hd, hrel'⟩ | ⟨r, hc, hd⟩
  · exact .inl ⟨d', c', hd, hc, hrel'⟩
  · exact .inr ⟨r, hd, hc⟩

theorem Lockstep.endsWith {c d r} (hrel : Rel c d)
    (hend : EndsWith stepC c r) : EndsWith stepD d r := by
  obtain ⟨n, hn⟩ := hend
  -- by strong induction on the length of the run: a related pair is met again, later
  induction n using Nat.strongRecOn generalizing c d with
  | ind n ih =>
    rcases h c d hrel with ⟨c', d', hc, hd, hrel'⟩ | ⟨r', hc, hd⟩
    · obtain ⟨m, hlt, hm⟩ := hn.after_goes hc
      exact hd.endsWith (ih m hlt hrel' hm)
    · rw [EndsWith.unique ⟨n, hn⟩ hc]
      exact hd

/-- **Machines in lockstep end with the same results.** -/
theorem Lockstep.endsWith_iff {c d} (hrel : Rel c d) (r) :
    EndsWith stepC c r ↔ EndsWith stepD d r :=
  ⟨h.endsWith hrel, h.symm.endsWith hrel⟩

end

section

variable (stepC : C → Move C R) (Rel : C → D → Prop) (c : C)

/-- `c` comes to what the move comes to, or ends as it ends. -/
def Follows : Move D R → Prop
  | .next d => ∃ c', Goes stepC c c' ∧ Rel c' d
  | .stop r => EndsWith stepC c r

/-- The same, where `c` may be there already. -/
def Reaches : Move D R → Prop
  | .next d => ∃ c', Comes stepC c c' ∧ Rel c' d
  | .stop r => EndsWith stepC c r

end

theorem Follows.reaches {c m} (h : Follows stepC Rel c m) : Reaches stepC Rel c m := by
  cases m with
  | next d =>
    obtain ⟨c', hgoes, hrel⟩ := h
    exact ⟨c', hgoes.comes, hrel⟩
  | stop r => exact h

theorem Goes.follows {c c' m} (hgoes : Goes stepC c c') (h : Reaches stepC Rel c' m) :
    Follows stepC Rel c m := by
  cases m with
  | next d =>
    obtain ⟨c'', hcomes, hrel⟩ := h
    exact ⟨c'', hgoes.trans_comes hcomes, hrel⟩
  | stop r => exact hgoes.endsWith h

section

variable (h : ∀ c d, Rel c d → Follows stepC Rel c (stepD d))
include h

/-- A machine that follows each step of another comes to whatever it comes to. -/
theorem goes_of_follows {c d d'}
    (hrel : Rel c d) (hgoes : Goes stepD d d') : ∃ c', Goes stepC c c' ∧ Rel c' d' := by
  induction hgoes generalizing c with
  | one hstep =>
    have hfollows := h c _ hrel
    rw [hstep] at hfollows
    exact hfollows
  | cons hstep _ ih =>
    have hfollows := h c _ hrel
    rw [hstep] at hfollows
    obtain ⟨c1, hgoes1, hrel1⟩ := hfollows
    obtain ⟨c', hgoes', hrel'⟩ := ih hrel1
    exact ⟨c', hgoes1.trans hgoes', hrel'⟩

/-- **A machine that follows each step of another runs in lockstep with it.** -/
theorem lockstep_of_follows :
    Lockstep stepC stepD Rel := by
  intro c d hrel
  have hfollows := h c d hrel
  cases hstep : stepD d with
  | next d' =>
    rw [hstep] at hfollows
    obtain ⟨c', hgoes, hrel'⟩ := hfollows
    exact .inl ⟨c', d', hgoes, .one hstep, hrel'⟩
  | stop r =>
    rw [hstep] at hfollows
    exact .inr ⟨r, hfollows, .of_stop hstep⟩

end

end

end ChezziLang.Lib
