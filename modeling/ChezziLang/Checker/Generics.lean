/-
  Generic inference: `subst` and `unify` of `checker/ty_util.rs`.

  Types are compared as `==` compares them: the labels of a function type never differ.
  `merge_unknown`, which fills the open slots of an earlier binding, is a parameter; without
  an `Unknown` in the actual type it is never called.

  Proved:
  * `unify_complete`: if the declared type has an instance equal to the actual type, `unify`
    finds the assignment, and binds nothing else.
-/
import ChezziLang.Checker.TyUtil
import Mathlib.Data.List.Forall2

namespace ChezziLang.Checker

open Function List

open Ty (Occurs kids plain)

/-- `subst`. -/
def subst (map : String → Option Ty) : Ty → Ty
  | .param n => (map n).getD (.param n)
  | .list t => .list (subst map t)
  | .option t => .option (subst map t)
  | .result t e => .result (subst map t) (subst map e)
  | .map k v => .map (subst map k) (subst map v)
  | .set t => .set (subst map t)
  | .tuple ts => .tuple (ts.map fun t => subst map t)
  | .func params ret labels v => .func (params.map fun t => subst map t) (subst map ret) labels v
  | .channel t => .channel (subst map t)
  | .shared t => .shared (subst map t)
  | .atomic t => .atomic (subst map t)
  | .rwShared t => .rwShared (subst map t)
  | .struct n args => .struct n (args.map fun t => subst map t)
  | .enum n args => .enum n (args.map fun t => subst map t)
  | .protocol n args => .protocol n (args.map fun t => subst map t)
  | t => t

section Unify

variable (mergeUnknown : Ty → Ty → Ty)

mutual

/-- `unify`. -/
def unify : Ty → Ty → (String → Option Ty) → String → Option Ty
  | .param n, a, map =>
    match map n with
    | none => if a.isUnknown then map else update map n (some a)
    | some old =>
      if old.hasHole then update map n (some (mergeUnknown old a)) else map
  | .list d, .list a, map | .set d, .set a, map | .option d, .option a, map
  | .channel d, .channel a, map | .shared d, .shared a, map | .atomic d, .atomic a, map
  | .rwShared d, .rwShared a, map => unify d a map
  | .result dt de, .result at' ae, map | .map dt de, .map at' ae, map =>
    unify de ae (unify dt at' map)
  | .struct dn da, .struct an aa, map | .enum dn da, .enum an aa, map
  | .protocol dn da, .protocol an aa, map =>
    if dn = an ∧ da.length = aa.length then unifyAll da aa map else map
  | .tuple ds, .tuple as, map => if ds.length = as.length then unifyAll ds as map else map
  | .func dp dr _ dv, .func ap ar _ av, map =>
    if dp.length = ap.length ∧ dv = av then unify dr ar (unifyAll dp ap map) else map
  | _, _, map => map

def unifyAll : List Ty → List Ty → (String → Option Ty) → String → Option Ty
  | d :: ds, a :: as, map => unifyAll ds as (unify d a map)
  | _, _, map => map

end

/-- `==` on types. -/
inductive Ty.Same : Ty → Ty → Prop
  | node {a b} (hcore : a.core = b.core) (hsub : Forall₂ Same a.plain b.plain) : Same a b

/-! ## One level -/

variable {map : String → Option Ty} {d t : Ty}

theorem subst_core (ht : ∀ n, t ≠ .param n) : (subst map t).core = t.core := by
  cases t <;> simp [subst, Ty.core] at ht ⊢

theorem subst_plain (ht : ∀ n, t ≠ .param n) : (subst map t).plain = t.plain.map (subst map) := by
  cases t <;> simp [subst, plain, kids] at ht ⊢

theorem unifyAll_append {ds as ds' as'} (hl : ds.length = as.length) :
    unifyAll mergeUnknown (ds ++ ds') (as ++ as') map =
      unifyAll mergeUnknown ds' as' (unifyAll mergeUnknown ds as map) := by
  induction ds generalizing as map with
  | nil =>
    cases as with
    | nil => rfl
    | cons => cases hl
  | cons d ds ih =>
    cases as with
    | nil => cases hl
    | cons a as => exact ih (Nat.succ.inj hl)

theorem unify_node (hd : ∀ n, d ≠ .param n) (hc : d.core = t.core) :
    unify mergeUnknown d t map = unifyAll mergeUnknown d.plain t.plain map := by
  cases d with
  | param n => exact absurd rfl (hd n)
  | func dp dr dl dv =>
    cases t with
    | func ap ar al av =>
      have hl : dp.length = ap.length ∧ dv = av := by simpa [Ty.core] using hc
      rw [unify, if_pos hl, plain, plain, unifyAll_append _ hl.1]
      rfl
    | _ => cases hc
  | tuple ds | struct n ds | enum n ds | protocol n ds =>
    cases t <;> simp [Ty.core] at hc
    simp [unify, plain, kids, hc]
  | list | set | option | channel | shared | atomic | rwShared | map | result =>
    cases t <;> cases hc
    rfl
  | _ => unfold unify; rfl

/-! ## Completeness -/

variable {σ : String → Ty}

/-- Every binding is that of `σ`, and has no hole. -/
def Follows (σ : String → Ty) (map : String → Option Ty) : Prop :=
  ∀ n a, map n = some a → (σ n).Same a ∧ ¬ Occurs plain .unknown a

/-- Unifying `d` with an instance under `σ` keeps to `σ` and binds the parameters of `d`. -/
def Solves (σ : String → Ty) (d : Ty) : Prop :=
  ∀ t map, (subst (fun n => some (σ n)) d).Same t → ¬ Occurs plain .unknown t → Follows σ map →
    Follows σ (unify mergeUnknown d t map) ∧ ∀ n,
      (unify mergeUnknown d t map n).isSome ↔ (map n).isSome ∨ Occurs plain (.param n) d

theorem unify_param {k} (hs : (σ k).Same t) (ht : ¬ Occurs plain .unknown t)
    (hm : Follows σ map) :
    unify mergeUnknown (.param k) t map = map ∧ (map k).isSome ∨
      unify mergeUnknown (.param k) t map = update map k (some t) := by
  cases hk : map k with
  | none =>
    have hknown : t.isUnknown = false := by
      cases t with
      | unknown => exact absurd .here ht
      | _ => rfl
    exact .inr (by simp [unify, hk, hknown])
  | some old =>
    have hclosed : old.hasHole = false := Bool.eq_false_iff.mpr fun h =>
      (hm k old hk).2 (occurs_of_isOpen old (Bool.and_eq_true_iff.mp h).2)
    exact .inl (by simp [unify, hk, hclosed])

theorem occurs_param {n k : String} : Occurs plain (.param n) (.param k) ↔ n = k := by
  rw [Ty.occurs_iff]
  simp [plain, kids, eq_comm]

theorem solves_param (k) : Solves mergeUnknown σ (.param k) := by
  intro t map hs ht hm
  rw [subst] at hs
  rcases unify_param mergeUnknown hs ht hm with ⟨hu, hk⟩ | hu
  · rw [hu]
    refine ⟨hm, fun n => ⟨.inl, ?_⟩⟩
    rintro (h | h)
    · exact h
    · rwa [occurs_param.mp h]
  · rw [hu]
    refine ⟨fun n a ha => ?_, fun n => ?_⟩
    all_goals by_cases hn : n = k
    · subst hn
      rw [update_self] at ha
      cases ha
      exact ⟨hs, ht⟩
    · rw [update_of_ne hn] at ha
      exact hm n a ha
    · simp [occurs_param, hn]
    · simp [occurs_param, hn]

theorem unifyAll_solves {ds as} (ih : ∀ d ∈ ds, Solves mergeUnknown σ d)
    (hs : Forall₂ (fun d a => (subst (fun n => some (σ n)) d).Same a) ds as)
    (has : ∀ a ∈ as, ¬ Occurs plain .unknown a) (hm : Follows σ map) :
    Follows σ (unifyAll mergeUnknown ds as map) ∧ ∀ n, (unifyAll mergeUnknown ds as map n).isSome ↔
        (map n).isSome ∨ ∃ d ∈ ds, Occurs plain (.param n) d := by
  induction hs generalizing map with
  | nil => exact ⟨hm, fun n => by simp [unifyAll]⟩
  | @cons d a ds as hd _ ih' =>
    obtain ⟨hm1, hdom1⟩ := ih d mem_cons_self a map hd (has a mem_cons_self) hm
    obtain ⟨hm2, hdom2⟩ := ih' (forall_mem_cons.mp ih).2
      (forall_mem_cons.mp has).2 hm1
    exact ⟨hm2, fun n => by rw [unifyAll, hdom2, hdom1, or_assoc]; simp⟩

theorem unify_solves (d) : Solves mergeUnknown σ d := by
  induction d using Ty.induct_kids with
  | h d ih =>
    rcases d.eq_param_or with ⟨k, rfl⟩ | hd
    · exact solves_param mergeUnknown k
    rintro t map ⟨hcore, hsub⟩ ht hm
    rw [subst_core hd] at hcore
    rw [subst_plain hd, forall₂_map_left_iff] at hsub
    obtain ⟨hm', hdom⟩ := unifyAll_solves mergeUnknown (fun u hu => ih u (d.plain_subset hu)) hsub
      (fun a ha ho => ht (.under ha ho)) hm
    rw [unify_node mergeUnknown hd hcore]
    exact ⟨hm', fun n => by rw [hdom, @Ty.occurs_iff _ _ d]; simp [hd]⟩

end Unify

/-- **Inference misses no solution.**  If `σ` makes the declared type `d` equal to `t`, then
    unifying the two from nothing binds the parameters of `d` to what `σ` gives them, and no
    other name. -/
theorem unify_complete (mergeUnknown : Ty → Ty → Ty) {d t : Ty} {σ : String → Ty}
    (ht : ¬ Occurs plain .unknown t) (hs : (subst (fun n => some (σ n)) d).Same t) (n : String) :
    if n ∈ tyCollectParams none d [] then
      ∃ a, unify mergeUnknown d t (fun _ => none) n = some a ∧ (σ n).Same a
    else unify mergeUnknown d t (fun _ => none) n = none := by
  obtain ⟨hm, hdom⟩ := unify_solves mergeUnknown d t (fun _ => none) hs ht nofun
  have hmem := @mem_tyCollectParams n d []
  have hbound : (unify mergeUnknown d t (fun _ => none) n).isSome ↔
      n ∈ tyCollectParams none d [] := by
    rw [hdom, hmem]
    simp
  split
  · next hn =>
    obtain ⟨a, ha⟩ := Option.isSome_iff_exists.mp (hbound.mpr hn)
    exact ⟨a, ha, (hm n a ha).1⟩
  · next hn => exact Option.not_isSome_iff_eq_none.mp fun h => hn (hbound.mp h)

/-- `List[T]` against `List[int]`. -/
theorem unify_complete_list :
    ∃ a, unify (fun old _ => old) (.list (.param "T")) (.list .int) (fun _ => none) "T" = some a ∧
      Ty.Same .int a := by
  have ht : ¬ Occurs plain .unknown (.list .int) := by
    rintro (_ | ⟨hu, ho⟩)
    cases mem_singleton.mp hu
    cases ho with
    | under hu => cases hu
  have hs : (subst (fun _ => some .int) (.list (.param "T"))).Same (.list .int) := by
    simp only [subst]
    exact .node rfl (.cons (.node rfl .nil) .nil)
  have h := unify_complete (fun old _ => old) ht hs "T"
  rwa [if_pos (by simp [tyCollectParams])] at h

end ChezziLang.Checker
