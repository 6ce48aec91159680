/-
  The join scopes of one scheduler and their slots (`vm/sched_types.rs`, `ScopeTable`, and
  `vm/mnsched.rs`).

  Every operation is one section under the core lock.  A task is its index and its scope, from the
  reservation of the index to the write of its outcome.  `issued` is for the statements only: the
  ids handed out so far.  `get` searches by bisection; the ids ascend, so it is a lookup here.

  Proved:
  * `scopes_disjoint`: ranges, indices and ids, after every sequence of operations.
-/
import Mathlib.Data.List.Pairwise
import ChezziLang.Lib.Roster
import ChezziLang.Lib.Runs

namespace ChezziLang.Vm.Scopes

open Lib.Roster Lib.Runs List Option Function

structure JoinScope where
  base : Nat
  total : Nat
  done : Nat
  deriving DecidableEq, Repr

/-- The end of the scope's slots. -/
def JoinScope.stop (s : JoinScope) : Nat := s.base + s.total

structure ScopeTable where
  next : Nat
  live : List (Nat × JoinScope)
  deriving DecidableEq, Repr

namespace ScopeTable

def withRoot (root : JoinScope) : ScopeTable := { next := 1, live := [(0, root)] }

section

variable (t : ScopeTable)

def openScope (s : JoinScope) : Nat × ScopeTable :=
  (t.next, { next := t.next + 1, live := t.live ++ [(t.next, s)] })

def get (id : Nat) : Option JoinScope := t.live.lookup id

/-- A write through `get_mut`. -/
def modify (id : Nat) (f : JoinScope → JoinScope) : ScopeTable :=
  { t with live := t.live.map fun e => if e.1 = id then (id, f e.2) else e }

def lastId : Option Nat := t.live.getLast?.map Prod.fst

def remove (id : Nat) : ScopeTable :=
  { t with live := t.live.filter fun e => e.1 ≠ id }

def slotEnd : Nat := t.live.getLast?.elim 0 fun e => e.2.stop

end

end ScopeTable

structure Core (O : Type) where
  scopes : ScopeTable
  slots : List (Option O)
  tasks : List (Nat × Nat)
  issued : List Nat

variable {O : Type}

namespace Core

/-- `MnSched::new`. -/
def new (total : Nat) : Core O :=
  { scopes := .withRoot ⟨0, total, 0⟩, slots := replicate total none,
    tasks := (List.range' 0 total).map (·, 0), issued := [0] }

/-- `register_scope` and `register_scope_seeded`. -/
def registerScope (c : Core O) (total : Nat) : Core O :=
  let base := c.slots.length
  let (id, scopes) := c.scopes.openScope ⟨base, total, 0⟩
  { scopes, slots := c.slots ++ replicate total none,
    tasks := c.tasks ++ (List.range' base total).map (·, id), issued := c.issued ++ [id] }

/-- `reserve_slot`: no state when it would index a scope that is gone. -/
def reserveSlot (c : Core O) (sid : Nat) : Option (Core O) :=
  if c.scopes.lastId = some sid then
    some { c with
      scopes := c.scopes.modify sid fun s => { s with total := s.total + 1 }
      slots := c.slots ++ [none]
      tasks := c.tasks ++ [(c.slots.length, sid)] }
  else (c.scopes.get sid).map fun _ => c.registerScope 1

/-- The write of an outcome and `task_done`, in `finish_with` and wherever a task is ended. -/
def finish (c : Core O) (task : Nat × Nat) (outcome : O) : Core O :=
  { c with
    scopes := c.scopes.modify task.2 fun s => { s with done := s.done + 1 }
    slots := c.slots.set task.1 (some outcome)
    tasks := c.tasks.erase task }

def retireScope (c : Core O) (sid : Nat) : Core O :=
  match c.scopes.get sid with
  | some s =>
    if s.done = s.total then
      let scopes := c.scopes.remove sid
      { c with scopes, slots := c.slots.take scopes.slotEnd }
    else c
  | none => c

end Core

inductive Step : Core O → Core O → Prop
  | register (c : Core O) (total : Nat) : Step c (c.registerScope total)
  | reserve (c : Core O) (sid : Nat) {c' : Core O} (h : c.reserveSlot sid = some c') : Step c c'
  | finish (c : Core O) (task : Nat × Nat) (outcome : O) (h : task ∈ c.tasks) :
      Step c (c.finish task outcome)
  | retire (c : Core O) (sid : Nat) : Step c (c.retireScope sid)

/-! ## The invariant -/

/-- `a` was opened before `b` and lies before it. -/
def Before (a b : Nat × JoinScope) : Prop := a.1 < b.1 ∧ a.2.stop ≤ b.2.base

structure Inv (c : Core O) : Prop where
  sorted : c.scopes.live.Pairwise Before
  ends : c.scopes.slotEnd = c.slots.length
  listed : ∀ e ∈ c.scopes.live, e.1 ∈ c.issued
  issued_lt : ∀ i ∈ c.issued, i < c.scopes.next
  issued_nodup : c.issued.Nodup
  tasks_nodup : (c.tasks.map Prod.fst).Nodup
  tasks_in : ∀ t ∈ c.tasks, ∃ s, (t.2, s) ∈ c.scopes.live ∧ s.base ≤ t.1 ∧ t.1 < s.stop
  counted : ∀ e ∈ c.scopes.live, e.2.done + c.tasks.countP (·.2 = e.1) = e.2.total

variable {e : Nat × JoinScope}

theorem slotEnd_concat {t : ScopeTable} {l} (h : t.live = l ++ [e]) : t.slotEnd = e.2.stop := by
  simp [ScopeTable.slotEnd, h]

theorem stop_le_slotEnd {t : ScopeTable} (h : t.live.Pairwise Before) (he : e ∈ t.live) :
    e.2.stop ≤ t.slotEnd := by
  rcases eq_nil_or_concat' t.live with hnil | ⟨l, last, hl⟩
  · rw [hnil] at he
    exact absurd he not_mem_nil
  rw [slotEnd_concat hl]
  rw [hl] at h he
  rcases mem_append.mp he with hmem | hmem
  · have := ((pairwise_append.mp h).2.2 e hmem last mem_cons_self).2
    simp only [JoinScope.stop] at this ⊢
    omega
  · exact mem_singleton.mp hmem ▸ Nat.le_refl _

namespace Inv

variable {c : Core O}

section

variable (h : Inv c)
include h

theorem ids_nodup : (c.scopes.live.map Prod.fst).Nodup :=
  pairwise_map.mpr (h.sorted.imp fun hab => Nat.ne_of_lt hab.1)

theorem get_iff {id s} :
    c.scopes.get id = some s ↔ (id, s) ∈ c.scopes.live := lookup_iff_mem h.ids_nodup

theorem id_lt (he : e ∈ c.scopes.live) :
    e.1 < c.scopes.next := h.issued_lt _ (h.listed e he)

theorem stop_le (he : e ∈ c.scopes.live) :
    e.2.stop ≤ c.slots.length := h.ends ▸ stop_le_slotEnd h.sorted he

theorem task_lt {t} (ht : t ∈ c.tasks) :
    t.1 < c.slots.length ∧ t.2 < c.scopes.next := by
  obtain ⟨s, hs, -, hlt⟩ := h.tasks_in t ht
  exact ⟨Nat.lt_of_lt_of_le hlt (h.stop_le hs), h.id_lt hs⟩

/-- New tasks at the end of the slots share no index with the others. -/
theorem tasks_append (total id) :
    ((c.tasks ++ (List.range' c.slots.length total).map (·, id)).map Prod.fst).Nodup := by
  rw [List.map_append, List.map_map, List.nodup_append]
  refine ⟨h.tasks_nodup, by simpa [comp_def] using List.nodup_range' 1, ?_⟩
  intro a ha b hb
  obtain ⟨t, ht, rfl⟩ := mem_map.mp ha
  have := (h.task_lt ht).1
  simp at hb
  omega

theorem finish {task} (outcome) (ht : task ∈ c.tasks) :
    Inv (c.finish task outcome) := by
  set g : Nat × JoinScope → Nat × JoinScope := fun e =>
    if e.1 = task.2 then (task.2, { e.2 with done := e.2.done + 1 }) else e with hg
  have hsame : ∀ e, (g e).1 = e.1 ∧ (g e).2.base = e.2.base ∧ (g e).2.stop = e.2.stop := by
    intro e
    by_cases he : e.1 = task.2 <;> simp [hg, he, JoinScope.stop]
  have hcount := fun p => (perm_cons_erase ht).countP_eq p
  refine ⟨?_, ?_, ?_, h.issued_lt, h.issued_nodup, ?_, ?_, ?_⟩
  · refine h.sorted.map g fun a b hab => ?_
    rw [Before, (hsame a).1, (hsame b).1, (hsame a).2.2, (hsame b).2.1]
    exact hab
  · have hend : (c.finish task outcome).scopes.slotEnd = c.scopes.slotEnd := by
      show (c.scopes.live.map g).getLast?.elim 0 _ = c.scopes.live.getLast?.elim 0 _
      rw [getLast?_map]
      cases c.scopes.live.getLast? with
      | none => rfl
      | some e => exact (hsame e).2.2
    rw [hend, h.ends]
    exact length_set.symm
  · intro e' he'
    obtain ⟨e, he, rfl⟩ := mem_map.mp he'
    rw [(hsame e).1]
    exact h.listed e he
  · exact h.tasks_nodup.sublist (erase_sublist.map _)
  · intro t htask
    obtain ⟨s, hs, hlo, hhi⟩ := h.tasks_in t (mem_of_mem_erase htask)
    obtain ⟨h1, h2, h3⟩ := hsame (t.2, s)
    refine ⟨(g (t.2, s)).2, ?_, by rw [h2]; exact hlo, by rw [h3]; exact hhi⟩
    have hmem := mem_map_of_mem (f := g) hs
    rwa [show g (t.2, s) = (t.2, (g (t.2, s)).2) from Prod.ext h1 rfl] at hmem
  · intro e' he'
    obtain ⟨e, he, rfl⟩ := mem_map.mp he'
    have hold := h.counted e he
    rw [(hsame e).1]
    show (g e).2.done + (c.tasks.erase task).countP (·.2 = e.1) = (g e).2.total
    rw [hcount, countP_cons] at hold
    by_cases hid : e.1 = task.2
    · simp only [hg, hid, if_true, decide_true] at hold ⊢
      omega
    · have hne : ¬ task.2 = e.1 := fun h => hid h.symm
      simpa [hg, hid, hne] using hold

/-- A scope without slots opens at the end. -/
theorem opened : Inv { c with
    scopes := (c.scopes.openScope ⟨c.slots.length, 0, 0⟩).2, issued := c.issued ++ [c.scopes.next] } := by
  have hend := slotEnd_concat (t := (c.scopes.openScope ⟨c.slots.length, 0, 0⟩).2) rfl
  refine ⟨?_, hend, ?_, ?_, ?_, h.tasks_nodup, ?_, ?_⟩
  · refine pairwise_append.mpr ⟨h.sorted, pairwise_singleton .., ?_⟩
    intro a ha b hb
    rw [mem_singleton.mp hb]
    exact ⟨h.id_lt ha, h.stop_le ha⟩
  · simp only [ScopeTable.openScope, forall_mem_append]
    exact ⟨fun e he => mem_append_left _ (h.listed e he), by simp⟩
  · simp only [ScopeTable.openScope, forall_mem_append]
    exact ⟨fun i hi => Nat.lt_succ_of_lt (h.issued_lt i hi), by simp⟩
  · refine nodup_append.mpr ⟨h.issued_nodup, nodup_singleton _, fun a ha b hb => ?_⟩
    rw [mem_singleton.mp hb]
    exact Nat.ne_of_lt (h.issued_lt a ha)
  · intro t ht
    obtain ⟨s, hs, hr⟩ := h.tasks_in t ht
    exact ⟨s, mem_append_left _ hs, hr⟩
  · simp only [ScopeTable.openScope, forall_mem_append, forall_mem_singleton]
    refine ⟨h.counted, ?_⟩
    have hnone : ∀ t ∈ c.tasks, ¬ t.2 = c.scopes.next := fun t ht =>
      Nat.ne_of_lt (h.task_lt ht).2
    simpa [countP_eq_zero] using hnone

/-- The newest scope grows in place. -/
theorem grow {l : List (Nat × JoinScope)} {sid} {s : JoinScope}
    (hlive : c.scopes.live = l ++ [(sid, s)]) (total) : Inv { c with
      scopes := { c.scopes with live := l ++ [(sid, { s with total := s.total + total })] }
      slots := c.slots ++ replicate total none
      tasks := c.tasks ++ (range' c.slots.length total).map (·, sid) } := by
  have hsorted := h.sorted
  rw [hlive, pairwise_append] at hsorted
  obtain ⟨hl, -, hbefore⟩ := hsorted
  have hends : s.stop = c.slots.length := by rw [← h.ends, slotEnd_concat hlive]
  have hmem : ∀ e, e ∈ c.scopes.live ↔ e ∈ l ∨ e = (sid, s) := by simp [hlive]
  refine ⟨?_, ?_, ?_, h.issued_lt, h.issued_nodup, h.tasks_append total sid, ?_, ?_⟩
  · refine pairwise_append.mpr ⟨hl, pairwise_singleton .., fun a ha b hb => ?_⟩
    rw [mem_singleton.mp hb]
    exact hbefore a ha (sid, s) mem_cons_self
  · rw [slotEnd_concat rfl]
    simp only [JoinScope.stop, length_append, length_replicate] at *
    omega
  · simp only [forall_mem_append, forall_mem_singleton]
    exact ⟨fun e he => h.listed e ((hmem e).mpr (.inl he)), h.listed _ ((hmem _).mpr (.inr rfl))⟩
  · simp only [mem_append, mem_singleton]
    rintro t (ht | ht)
    · obtain ⟨s', hs', hlo, hhi⟩ := h.tasks_in t ht
      rcases (hmem _).mp hs' with hs' | heq
      · exact ⟨s', .inl hs', hlo, hhi⟩
      obtain ⟨h1, rfl⟩ := Prod.mk.inj heq
      refine ⟨_, .inr (Prod.ext h1 rfl), hlo, ?_⟩
      simp only [JoinScope.stop] at *
      omega
    · obtain ⟨i, hi, rfl⟩ := mem_map.mp ht
      rw [mem_range'_1] at hi
      refine ⟨_, .inr rfl, ?_⟩
      simp only [JoinScope.stop] at *
      omega
  · simp only [forall_mem_append, forall_mem_singleton, countP_append]
    constructor
    · intro e he
      have hne := Nat.ne_of_gt (hbefore e he _ mem_cons_self).1
      have := h.counted e ((hmem e).mpr (.inl he))
      simpa [countP_map, comp_def, hne] using this
    · have := h.counted _ ((hmem _).mpr (.inr rfl))
      simp only [countP_map, comp_def, decide_true, countP_true, length_range'] at this ⊢
      omega

theorem registerScope (total) : Inv (c.registerScope total) := by
  simpa [Core.registerScope, ScopeTable.openScope] using h.opened.grow rfl total

theorem modify_concat {l : List (Nat × JoinScope)} {sid} {s : JoinScope} (f)
    (hlive : c.scopes.live = l ++ [(sid, s)]) :
    c.scopes.modify sid f = { c.scopes with live := l ++ [(sid, f s)] } := by
  have hsorted := h.sorted
  rw [hlive, pairwise_append] at hsorted
  rw [ScopeTable.modify, hlive, map_append]
  refine congrArg _ (congrArg₂ _ ((map_congr_left fun e he => ?_).trans (map_id l)) (by simp))
  exact if_neg (Nat.ne_of_lt (hsorted.2.2 e he _ mem_cons_self).1)

theorem retireScope (sid) : Inv (c.retireScope sid) := by
  unfold Core.retireScope
  split
  · next s hget =>
    split
    · next hdone =>
      have hs := h.get_iff.mp hget
      have hsub : (c.scopes.live.filter fun e => e.1 ≠ sid).Sublist c.scopes.live := filter_sublist
      have hsorted := h.sorted.sublist hsub
      have hmem : ∀ {e}, e ∈ (c.scopes.remove sid).live → e ∈ c.scopes.live := fun he => hsub.subset he
      -- no task of the scope is unfinished
      have hnone : ∀ t ∈ c.tasks, t.2 ≠ sid := by
        have hzero : c.tasks.countP (·.2 = sid) = 0 := by
          have : s.done + c.tasks.countP (·.2 = sid) = s.total := h.counted _ hs
          omega
        intro t ht
        simpa using countP_eq_zero.mp hzero t ht
      refine ⟨hsorted, ?_, fun e he => h.listed e (hmem he), h.issued_lt, h.issued_nodup,
        h.tasks_nodup, fun t ht => ?_, fun e he => h.counted e (hmem he)⟩
      · rw [length_take, Nat.min_eq_left]
        rcases eq_nil_or_concat' (c.scopes.remove sid).live with hnil | ⟨l, last, hl⟩
        · simp [ScopeTable.slotEnd, hnil]
        · rw [slotEnd_concat hl]
          exact h.stop_le (hmem (by simp [hl]))
      · obtain ⟨s', hs', hr⟩ := h.tasks_in t ht
        exact ⟨s', mem_filter.mpr ⟨hs', by simpa using hnone t ht⟩, hr⟩
    · exact h
  · exact h

end

end Inv

theorem new_inv (total) : Inv (Core.new total : Core O) := by
  refine ⟨pairwise_singleton .., ?_, by simp [Core.new, ScopeTable.withRoot],
    by simp [Core.new, ScopeTable.withRoot], nodup_singleton 0, ?_, ?_, ?_⟩
  · simp [Core.new, ScopeTable.withRoot, ScopeTable.slotEnd, JoinScope.stop]
  · simpa [Core.new, comp_def] using nodup_range' 1
  · intro t ht
    obtain ⟨i, hi, rfl⟩ := mem_map.mp ht
    refine ⟨_, mem_cons_self, ?_⟩
    simpa [JoinScope.stop] using hi
  · intro e he
    rw [mem_singleton.mp he]
    simp [Core.new, countP_map, comp_def]

theorem step_inv {c c' : Core O} (h : Inv c) (hstep : Step c c') : Inv c' := by
  cases hstep with
  | register total => exact h.registerScope total
  | reserve sid hres =>
    unfold Core.reserveSlot at hres
    split at hres
    · next hlast =>
      obtain ⟨⟨id, s⟩, he, rfl⟩ := map_eq_some_iff.mp hlast
      obtain ⟨l, hl⟩ := getLast?_eq_some_iff.mp he
      rw [h.modify_concat _ hl] at hres
      exact some.inj hres ▸ h.grow hl 1
    · obtain ⟨-, -, rfl⟩ := map_eq_some_iff.mp hres
      exact h.registerScope 1
  | finish task outcome ht => exact h.finish outcome ht
  | retire sid => exact h.retireScope sid

/-- **Scopes do not overlap, and retiring one harms no other.** -/
theorem scopes_disjoint {total : Nat} {c : Core O} (h : Reaches Step (Core.new total) c) :
    (∀ i j s r, (i, s) ∈ c.scopes.live → (j, r) ∈ c.scopes.live → i < j → s.stop ≤ r.base) ∧
    (∀ e ∈ c.scopes.live, e.2.stop ≤ c.slots.length) ∧
    (∀ e, c.scopes.live.getLast? = some e → e.2.stop = c.slots.length) ∧
    (∀ t ∈ c.tasks, ∃ s, c.scopes.get t.2 = some s ∧ s.base ≤ t.1 ∧ t.1 < s.stop) ∧
    (c.tasks.map Prod.fst).Nodup ∧
    (∀ sid, ∀ e ∈ (c.retireScope sid).scopes.live, ∀ k, e.2.base ≤ k → k < e.2.stop →
      (c.retireScope sid).slots[k]? = c.slots[k]? ∧ k < (c.retireScope sid).slots.length) ∧
    c.issued.Nodup ∧ ∀ e ∈ c.scopes.live, e.1 ∈ c.issued := by
  have hinv : Inv c := h.keeps (new_inv total) fun _ _ => step_inv
  refine ⟨fun i j s r hs hr hij => ?_, fun e => hinv.stop_le, fun e he => ?_, fun t ht => ?_,
    hinv.tasks_nodup, fun sid e he k _ hk => ?_, hinv.issued_nodup, hinv.listed⟩
  · have hle : c.scopes.live.Pairwise fun a b => a.1 < b.1 → a.2.stop ≤ b.2.base :=
      hinv.sorted.imp fun hab _ => hab.2
    exact hle.forall_of_forall_of_flip (fun _ _ h => absurd h (Nat.lt_irrefl _))
      (hinv.sorted.imp fun hab hba => absurd hba (Nat.lt_asymm hab.1)) hs hr hij
  · obtain ⟨l, hl⟩ := getLast?_eq_some_iff.mp he
    rw [← slotEnd_concat hl, hinv.ends]
  · obtain ⟨s, hs, hr⟩ := hinv.tasks_in t ht
    exact ⟨s, hinv.get_iff.mpr hs, hr⟩
  have hlen := Nat.lt_of_lt_of_le hk ((hinv.retireScope sid).stop_le he)
  refine ⟨?_, hlen⟩
  unfold Core.retireScope at hlen ⊢
  split at hlen <;> [split at hlen; skip] <;> simp_all

theorem scopes_disjoint_nested :
    Reaches Step (Core.new 1 : Core Unit) ((Core.new 1).registerScope 2) ∧
      ((Core.new 1 : Core Unit).registerScope 2).issued.Nodup :=
  have hrun := Reaches.refl.tail (Step.register (Core.new 1) 2)
  ⟨hrun, (scopes_disjoint hrun).2.2.2.2.2.2.1⟩

end ChezziLang.Vm.Scopes
