/-
  Computations that read and write a state and may fail; a failure keeps the state it left.

  Three rules carry what a computation does through `andThen`: `Moves` (how the state may
  change), `Returns` (what a result satisfies) and `Total` (under an invariant there is a
  result).  The loops `all`, `any` and `each` stop at the first failure; `all_reads` and
  `any_reads` say what they answer over computations that only read.
-/
import Mathlib.Data.List.Forall2

namespace ChezziLang.Lib

open List

/-! ## Computations -/

/-- A computation on a state that may fail. -/
abbrev Act (S E α : Type) := S → Except E α × S

variable {S E α β : Type}

variable {k : α → Act S E β} {x : Act S E α} {P : α → Prop}

namespace Act

def pure (a : α) : Act S E α := fun s => (.ok a, s)

def fail (e : E) : Act S E α := fun s => (.error e, s)

def andThen (x : Act S E α) (k : α → Act S E β) : Act S E β := fun s =>
  match x s with
  | (.ok a, s') => k a s'
  | (.error e, s') => (.error e, s')

/-- The computation, with its failures renamed. -/
def mapError {E' : Type} (f : E → E') (x : Act S E α) : Act S E' α := fun s =>
  ((x s).1.mapError f, (x s).2)

/-- The state only changes by `R`. -/
def Moves (R : S → S → Prop) (x : Act S E α) : Prop := ∀ s, R s (x s).2

/-- A result satisfies `P`. -/
def Returns (x : Act S E α) (P : α → Prop) : Prop := ∀ s a, (x s).1 = .ok a → P a

/-- From a state that satisfies `I` there is a result, it satisfies `P`, and `I` is kept. -/
def Total (I : S → Prop) (x : Act S E α) (P : α → Prop) : Prop :=
  ∀ s, I s → ∃ a, (x s).1 = .ok a ∧ I (x s).2 ∧ P a

variable {a : α} {I : S → Prop}

theorem andThen_ok {s} (h : (x s).1 = .ok a) : x.andThen k s = k a (x s).2 := by
  unfold andThen
  rcases hx : x s with ⟨_ | b, s'⟩
  · rw [hx] at h
    cases h
  · rw [hx] at h
    cases h
    rfl

theorem andThen_error {s e} (h : (x s).1 = .error e) : x.andThen k s = (.error e, (x s).2) := by
  unfold andThen
  rcases hx : x s with ⟨_ | b, s'⟩
  · rw [hx] at h
    cases h
    rfl
  · rw [hx] at h
    cases h

/-- What a result of a sequence came from. -/
theorem andThen_eq_ok {s s' b} (h : x.andThen k s = (.ok b, s')) :
    ∃ a s1, x s = (.ok a, s1) ∧ k a s1 = (.ok b, s') := by
  unfold andThen at h
  rcases hx : x s with ⟨_ | a, s1⟩
  · rw [hx] at h
    cases h
  · rw [hx] at h
    exact ⟨a, s1, rfl, h⟩

theorem mapError_eq_ok {E'} {f : E → E'} {s s'} :
    mapError f x s = (.ok a, s') ↔ x s = (.ok a, s') := by
  unfold mapError
  rcases x s with ⟨_ | b, s1⟩
  · simp [Except.mapError]
  · simp [Except.mapError]

theorem andThen_assoc {γ} (x : Act S E α) (k) (k' : β → Act S E γ) :
    (x.andThen k).andThen k' = x.andThen fun a => (k a).andThen k' := by
  funext s
  cases h : (x s).1 with
  | error e => rw [andThen_error h, andThen_error (by rw [andThen_error h]), andThen_error h]
  | ok a =>
    rw [andThen_ok h]
    unfold andThen
    rw [show x s = (.ok a, (x s).2) from Prod.ext h rfl]

section

variable {R : S → S → Prop}

theorem moves_pure (hrefl : ∀ s, R s s) (a) : Moves R (pure a : Act S E α) := hrefl

theorem Moves.andThen (htrans : ∀ s t u, R s t → R t u → R s u) (hx : Moves R x)
    (hk : ∀ a, Moves R (k a)) : Moves R (x.andThen k) := by
  intro s
  cases h : (x s).1 with
  | error e =>
    rw [andThen_error h]
    exact hx s
  | ok a =>
    rw [andThen_ok h]
    exact htrans _ _ _ (hx s) (hk a (x s).2)

end

theorem returns_pure (h : P a) : Returns (pure a : Act S E α) P := by
  intro s b hb
  cases hb
  exact h

theorem Returns.andThen {Q} (hx : Returns x P) (hk : ∀ a, P a → Returns (k a) Q) :
    Returns (x.andThen k) Q := by
  intro s b hb
  cases h : (x s).1 with
  | error e =>
    rw [andThen_error h] at hb
    cases hb
  | ok a =>
    rw [andThen_ok h] at hb
    exact hk a (hx s a h) _ b hb

theorem total_pure (h : P a) : Total I (pure a : Act S E α) P := fun _ hs => ⟨a, rfl, hs, h⟩

theorem Total.andThen {Q} (hx : Total I x P) (hk : ∀ a, P a → Total I (k a) Q) :
    Total I (x.andThen k) Q := by
  intro s hs
  obtain ⟨a, ha, hI, hP⟩ := hx s hs
  rw [andThen_ok ha]
  exact hk a hP _ hI

theorem Total.mono {Q} (hx : Total I x P) (hPQ : ∀ a, P a → Q a) : Total I x Q := by
  intro s hs
  obtain ⟨a, ha, hI, hP⟩ := hx s hs
  exact ⟨a, ha, hI, hPQ a hP⟩

end Act

/-! ## Loops -/

namespace Act

/-- `for x in xs: if not f(x): return false` and then `true`. -/
def all (f : α → Act S E Bool) : List α → Act S E Bool
  | [] => pure true
  | x :: xs => (f x).andThen fun b => if b then all f xs else pure false

/-- `for x in xs: if f(x): return true` and then `false`. -/
def any (f : α → Act S E Bool) : List α → Act S E Bool
  | [] => pure false
  | x :: xs => (f x).andThen fun b => if b then pure true else any f xs

/-- The results of `f` on each element, in order. -/
def each (f : α → Act S E β) : List α → Act S E (List β)
  | [] => pure []
  | x :: xs => (f x).andThen fun y => (each f xs).andThen fun ys => pure (y :: ys)

/-- Loops over computations that do not change the state. -/
theorem moves_all {f : α → Act S E Bool} (hf : ∀ x, Moves Eq (f x)) (xs) : Moves Eq (all f xs) := by
  induction xs with
  | nil => exact fun _ => rfl
  | cons x xs ih =>
    refine (hf x).andThen (fun _ _ _ => Eq.trans) fun b => ?_
    cases b with
    | true => exact ih
    | false => exact fun _ => rfl

theorem moves_any {f : α → Act S E Bool} (hf : ∀ x, Moves Eq (f x)) (xs) : Moves Eq (any f xs) := by
  induction xs with
  | nil => exact fun _ => rfl
  | cons x xs ih =>
    refine (hf x).andThen (fun _ _ _ => Eq.trans) fun b => ?_
    cases b with
    | true => exact fun _ => rfl
    | false => exact ih

theorem andThen_reads {s a} (h : x s = (.ok a, s)) : x.andThen k s = k a s := by
  unfold andThen
  rw [h]

section

variable {s : S} {γ δ : Type} {R : α → β → Prop} {xs : List α} {ys : List β}

theorem any_reads {f : α → Act S E Bool} {p} (h : Forall₂ R xs ys)
    (hf : ∀ x, ∀ y ∈ ys, R x y → f x s = (.ok (p y), s)) : any f xs s = (.ok (ys.any p), s) := by
  induction h with
  | nil => rfl
  | @cons x y xs ys hxy _ ih =>
    rw [any, any_cons, andThen_reads (hf x y mem_cons_self hxy)]
    cases p y with
    | true => rfl
    | false => exact ih fun x y hy => hf x y (.tail _ hy)

theorem all_reads {f : α → Act S E Bool} {p} (h : Forall₂ R xs ys)
    (hf : ∀ x, ∀ y ∈ ys, R x y → f x s = (.ok (p y), s)) : all f xs s = (.ok (ys.all p), s) := by
  induction h with
  | nil => rfl
  | @cons x y xs ys hxy _ ih =>
    rw [all, all_cons, andThen_reads (hf x y mem_cons_self hxy)]
    cases p y with
    | true => exact ih fun x y hy => hf x y (.tail _ hy)
    | false => rfl

/-- Two lists of one length, and for each element of the first one of the second. -/
theorem all_any_reads {f : α → γ → Act S E Bool} {p : β → δ → Bool} {R'} {as : List γ} {bs : List δ}
    (h : Forall₂ R xs ys) (h' : Forall₂ R' as bs)
    (hf : ∀ x, ∀ y ∈ ys, R x y → ∀ a b, R' a b → f x a s = (.ok (p y b), s)) :
    (if xs.length ≠ as.length then pure false else all (fun x => any (f x) as) xs) s =
      (.ok (decide (ys.length = bs.length) && ys.all fun y => bs.any (p y)), s) := by
  rw [h.length_eq, h'.length_eq]
  by_cases hlen : ys.length = bs.length
  · rw [if_neg (not_not_intro hlen), decide_eq_true hlen, Bool.true_and]
    exact all_reads h fun x y hy hxy => any_reads h' fun a b _ hab => hf x y hy hxy a b hab
  · rw [if_pos hlen, decide_eq_false hlen]
    rfl

end

end Act

end ChezziLang.Lib
