/-
  The join of a nursery: `reduce_slots` of `vm/worker_loop.rs`, after any number of partial takes
  by `take_finished_streams` of `vm/mnsched.rs`.

  Proved:
  * `step_top`: one slot replaces the pending answer exactly when it ranks higher.
  * `join_reduces`: what the parent prints and what the join answers.
-/
import Mathlib.Data.List.Induction

namespace ChezziLang.Vm.Reduce

open List Function

structure RuntimeError where
  message : String
  isOverMemory : Bool := false
  isTimedOut : Bool := false
  isDeadlock : Bool := false

def executorHardHalt (err : RuntimeError) : Bool := err.isOverMemory || err.isTimedOut

structure Streams where
  out : List UInt8 := []
  stderr : List UInt8 := []

inductive Ending (T : Type) where
  | done
  | cancelled
  | cancelledFault (err : RuntimeError)
  | exit (code : Int32)
  | fault (err : RuntimeError) (trace : List T)
  | deadlocked (err : RuntimeError)

/-- Every variant carries the two buffers. -/
structure TaskOutcome (T : Type) where
  ending : Ending T
  streams : Streams

def Streams.extend (a b : Streams) : Streams := ⟨a.out ++ b.out, a.stderr ++ b.stderr⟩

variable {T : Type}

/-- The buffers of tasks, one after the other. -/
def streamsOf (os : List (TaskOutcome T)) : Streams :=
  ⟨os.flatMap (·.streams.out), os.flatMap (·.streams.stderr)⟩

/-- The buffers are moved out; the outcomes stay in their slots. -/
def takeFinishedStreams (slots : List (Option (TaskOutcome T))) :
    Streams × List (Option (TaskOutcome T)) :=
  (streamsOf (slots.filterMap id), slots.map (Option.map ({ · with streams := {} })))

structure Firsts (T : Type) where
  exit : Option Int32 := none
  fault : Option (RuntimeError × List T) := none
  hardFault : Option (RuntimeError × List T) := none
  deadlock : Option RuntimeError := none
  cancelFault : Option (RuntimeError × List T) := none

def Firsts.step (f : Firsts T) : Ending T → Firsts T
  | .done | .cancelled => f
  | .exit code => { f with exit := f.exit.or (some code) }
  | .fault err trace =>
    { f with
      hardFault := f.hardFault.or
        (if executorHardHalt err || err.isDeadlock then some (err, trace) else none)
      fault := f.fault.or (some (err, trace)) }
  | .deadlocked err => { f with deadlock := f.deadlock.or (some err) }
  | .cancelledFault err => { f with cancelFault := f.cancelFault.or (some (err, [])) }

/-- What the join answers, the trace it adopts and the exit it leaves pending. -/
structure Answer (T : Type) where
  result : Except RuntimeError Unit
  trace : Option (List T) := none
  pendingExit : Option Int32 := none

/-- The end of `reduce_slots`; `halt` is the run-wide halt. -/
def Firsts.answer (f : Firsts T) (halt : Option RuntimeError) : Answer T :=
  match f.exit, halt, (f.hardFault.or f.fault).or f.cancelFault, f.deadlock with
  | some code, _, _, _ => { result := .error { message := "exit" }, pendingExit := code }
  | none, some e, _, _ => { result := .error e }
  | none, none, some (e, trace), _ => { result := .error e, trace }
  | none, none, none, some e => { result := .error e }
  | none, none, none, none => { result := .ok () }

def reduceStep (s : Streams × Firsts T) (o : TaskOutcome T) : Streams × Firsts T :=
  (s.1.extend o.streams, s.2.step o.ending)

def reduceSlots (parent : Streams) (slots : List (Option (TaskOutcome T)))
    (halt : Option RuntimeError) : Streams × Answer T :=
  ((slots.filterMap id).foldl reduceStep (parent, {})).map id (Firsts.answer · halt)

/-- A nursery after `k` takes.  Task `t` stores its outcome after `t.1` of them. -/
def run (parent : Streams) (tasks : List (Nat × TaskOutcome T)) :
    Nat → Streams × List (Option (TaskOutcome T))
  | 0 => (parent, tasks.map fun t => if t.1 = 0 then some t.2 else none)
  | k + 1 =>
    let (parent, slots) := run parent tasks k
    let (taken, slots) := takeFinishedStreams slots
    (parent.extend taken, zipWith (fun t slot => if t.1 = k + 1 then some t.2 else slot) tasks slots)

/-! ## Ranks -/

namespace Ending

def rank : Ending T → Nat
  | .done | .cancelled => 0
  | .deadlocked _ => 1
  | .cancelledFault _ => 2
  | .fault err _ => if executorHardHalt err || err.isDeadlock then 4 else 3
  | .exit _ => 5

/-- What the join answers for a task that ended so. -/
def answer : Ending T → Answer T
  | .done | .cancelled => { result := .ok () }
  | .deadlocked e => { result := .error e }
  | .cancelledFault e => { result := .error e, trace := some [] }
  | .fault e trace => { result := .error e, trace }
  | .exit code => { result := .error { message := "exit" }, pendingExit := code }

end Ending

/-- The rank of the answer so far, and the answer. -/
def Firsts.top (f : Firsts T) : Nat × Answer T :=
  (if f.exit.isSome then 5 else if f.hardFault.isSome then 4 else if f.fault.isSome then 3
    else if f.cancelFault.isSome then 2 else if f.deadlock.isSome then 1 else 0, f.answer none)

theorem step_top (f : Firsts T) (e : Ending T) :
    (f.step e).top = if f.top.1 < e.rank then (e.rank, e.answer) else f.top := by
  obtain ⟨exit, fault, hard, dead, cancel⟩ := f
  cases exit <;> cases hard <;> cases fault <;> cases cancel <;> cases dead <;> cases e <;>
    simp [Firsts.step, Firsts.top, Firsts.answer, Ending.rank, Ending.answer]
  all_goals split_ifs <;> simp_all

/-- `a` is the answer for the first of the highest rank, if one has a rank. -/
def Leads (es : List (Ending T)) (a : Nat × Answer T) : Prop :=
  (∀ e ∈ es, e.rank ≤ a.1) ∧ (a = (0, { result := .ok () }) ∨ ∃ before e after,
    es = before ++ e :: after ∧ a = (e.rank, e.answer) ∧ 0 < e.rank ∧ ∀ x ∈ before, x.rank < e.rank)

theorem foldl_top (es : List (Ending T)) : Leads es (es.foldl Firsts.step {}).top := by
  induction es using reverseRecOn with
  | nil => exact ⟨by simp, .inl rfl⟩
  | append_singleton es e ih =>
    obtain ⟨hle, htop⟩ := ih
    simp only [Leads, foldl_append, foldl_cons, foldl_nil, step_top, forall_mem_append,
      forall_mem_singleton]
    split
    · next hlt =>
      have hless := fun x hx => Nat.lt_of_le_of_lt (hle x hx) hlt
      exact ⟨⟨fun x hx => Nat.le_of_lt (hless x hx), Nat.le_refl _⟩,
        .inr ⟨es, e, [], rfl, rfl, Nat.zero_lt_of_lt hlt, hless⟩⟩
    next hge =>
    refine ⟨⟨hle, Nat.le_of_not_lt hge⟩, htop.imp_right ?_⟩
    rintro ⟨before, b, after, rfl, hb⟩
    exact ⟨before, b, after ++ [e], by simp, hb⟩

/-! ## The takes -/

/-- The slot of a task after `k` takes. -/
def slot (k : Nat) (t : Nat × TaskOutcome T) : Option (TaskOutcome T) :=
  if t.1 < k then some { t.2 with streams := {} } else if t.1 = k then some t.2 else none

variable (parent : Streams) (tasks : List (Nat × TaskOutcome T)) (k : Nat)

theorem slots_eq : streamsOf (tasks.filterMap (slot k)) =
      streamsOf ((tasks.filter (·.1 = k)).map Prod.snd) ∧
    (tasks.filterMap (slot k)).map (·.ending) = (tasks.filter (·.1 ≤ k)).map (·.2.ending) := by
  induction tasks with
  | nil => exact ⟨rfl, rfl⟩
  | cons t tasks ih =>
    simp only [streamsOf, filterMap_cons, filter_cons, slot, decide_eq_true_eq] at ih ⊢
    split_ifs <;> first | omega | simp_all

theorem run_eq : run parent tasks k =
    (parent.extend (streamsOf ((range k).flatMap fun j => (tasks.filter (·.1 = j)).map Prod.snd)),
      tasks.map (slot k)) := by
  induction k with
  | zero => simp [run, slot, streamsOf, Streams.extend]
  | succ k ih =>
    simp only [run, ih, takeFinishedStreams, filterMap_map, id_comp, (slots_eq tasks k).1,
      map_map, zipWith_map_right, zipWith_self]
    refine Prod.ext (by simp [Streams.extend, streamsOf, range_succ]) (map_congr_left fun t _ => ?_)
    simp only [slot, comp_apply]
    split_ifs <;> first | omega | rfl

theorem foldl_reduceStep (os : List (TaskOutcome T)) (s : Streams × Firsts T) :
    os.foldl reduceStep s = (s.1.extend (streamsOf os), (os.map (·.ending)).foldl Firsts.step s.2) := by
  induction os generalizing s with
  | nil => simp [streamsOf, Streams.extend]
  | cons o os ih => simp [ih, reduceStep, streamsOf, Streams.extend]

/-- **The join of a nursery**, after `k` takes: the parent has got the buffers of every task that
    stored its outcome once, with the first take after that or with the join, in slot order; and
    without a run-wide halt the join answers for the first task of the highest rank. -/
theorem join_reduces (parent : Streams) (tasks : List (Nat × TaskOutcome T)) (k : Nat) :
    (reduceSlots (run parent tasks k).1 (run parent tasks k).2 none).1 = parent.extend
      (streamsOf ((range (k + 1)).flatMap fun j => (tasks.filter (·.1 = j)).map Prod.snd)) ∧
    ∃ n, Leads ((tasks.filter (·.1 ≤ k)).map (·.2.ending))
      (n, (reduceSlots (run parent tasks k).1 (run parent tasks k).2 none).2) := by
  obtain ⟨hstreams, hends⟩ := slots_eq tasks k
  simp only [reduceSlots, foldl_reduceStep, run_eq, filterMap_map, id_comp, hstreams, hends]
  exact ⟨by simp [Streams.extend, streamsOf, range_succ], _, foldl_top _⟩

end ChezziLang.Vm.Reduce
