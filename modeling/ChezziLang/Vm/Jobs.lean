/-
  The jobs of one executor (`vm/sched_core.rs`, `job_event`, and its callers).

  Every operation is one section under the core lock.  The halt in force and the cancel flags that
  `job_cancelled` reads are what the section finds, so they are arbitrary.  A slot keeps every
  outcome stored into it, the newest first.  `JobStep.dropped` and the four lists of a `Run` are
  for the statements only.

  Proved:
  * `executor_jobs`: the cap, the order of the starts and the books, after every sequence of
    operations.
-/
import Mathlib.Data.List.Nodup
import Mathlib.Data.List.Perm.Basic
import ChezziLang.Lib.Runs

set_option linter.unusedSectionVars false

namespace ChezziLang.Vm.Jobs

open Function (update)
open Lib.Runs List

inductive RunHalt where
  | running | fault | exit | deadlock
  deriving DecidableEq, Repr

def RunHalt.settles : RunHalt → Bool
  | .exit | .deadlock => false
  | .running | .fault => true

inductive JobSeal where
  | nothing | cancel | fault (message : String)

/-- The text that goes into the result channel. -/
def JobSeal.text : JobSeal → Option String
  | .nothing => none
  | .cancel => some "task cancelled: cancel() stopped it before it finished"
  | .fault message => some message

structure RuntimeError where
  message : String
  isDeadlock : Bool
  isOverMemory : Bool
  isTimedOut : Bool

inductive TaskOutcome where
  | done | cancelled | exit | deadlocked
  | fault (err : RuntimeError)
  | cancelledFault (err : RuntimeError)

/-- What an end seals into the job's channel. -/
def TaskOutcome.jobSeal : TaskOutcome → JobSeal
  | .done => .nothing
  | .fault err | .cancelledFault err =>
    if err.isOverMemory || err.isTimedOut then .nothing else .fault err.message
  | .cancelled | .exit | .deadlocked => .cancel

def TaskOutcome.verdictEnd : TaskOutcome → Bool
  | .fault err => err.isDeadlock
  | _ => false

variable {Ch : Type} [DecidableEq Ch]

structure JobSettle (Ch : Type) where
  ch : Ch
  flag : Bool

structure SchedCore (Ch : Type) where
  execLimit : Nat
  execActive : Nat := 0
  execHeld : List Nat := []
  jobSettle : Nat → Option (JobSettle Ch) := fun _ => none
  slots : Nat → List TaskOutcome := fun _ => []
  /-- `slots.len()`, the next task index. -/
  size : Nat := 0
  /-- `is_job_scope` of the scope that the index was reserved in. -/
  isJob : Nat → Bool := fun _ => false
  sealed : Ch → Option String := fun _ => none
  left : Nat := 0

structure JobStep (Ch : Type) where
  start : List Nat := []
  sealed : List Ch := []
  cutFlag : Option Nat := none
  dropped : List Nat := []

abbrev Work (Ch : Type) := SchedCore Ch × JobStep Ch

def settleJob (i : Nat) (how : JobSeal) : Work Ch → Work Ch
  | (c, step) =>
    match c.jobSettle i with
    | none => (c, step)
    | some s =>
      let c := { c with jobSettle := update c.jobSettle i none }
      match how.text with
      | none => (c, step)
      | some msg =>
        -- the first writer wins
        if (c.sealed s.ch).isSome then ({ c with left := c.left + 1 }, step)
        else ({ c with sealed := update c.sealed s.ch (some msg), left := c.left + 1 },
          { step with sealed := step.sealed ++ [s.ch] })

@[simp] def SchedCore.store (c : SchedCore Ch) (i : Nat) (outcome : TaskOutcome) : SchedCore Ch :=
  { c with slots := update c.slots i (outcome :: c.slots i) }

def dropJob (settle : Bool) : Work Ch → Nat → Work Ch
  | (c, step), i =>
    settleJob i (if settle then .cancel else .nothing)
      (c.store i .cancelled, { step with dropped := step.dropped ++ [i] })

def dropHeld (settle : Bool) : Work Ch → Work Ch
  | (c, step) => c.execHeld.foldl (dropJob settle) ({ c with execHeld := [] }, step)

def cancelOne (ch : Ch) (halt : RunHalt) : Work Ch → Work Ch
  | (c, step) =>
    match (List.range c.size).find? fun i => (c.jobSettle i).any fun s => s.ch = ch with
    | none => (c, step)
    | some i =>
      if i ∈ c.execHeld then
        dropJob halt.settles ({ c with execHeld := c.execHeld.erase i }, step) i
      else
        let settle := (c.jobSettle i).map ({ · with flag := true })
        ({ c with jobSettle := update c.jobSettle i settle }, { step with cutFlag := some i })

/-- The loop that starts held jobs while there is room. -/
def releaseHeld : List Nat → Work Ch → Work Ch
  | [], (c, step) => ({ c with execHeld := [] }, step)
  | i :: held, (c, step) =>
    if c.execActive < c.execLimit then
      releaseHeld held ({ c with execActive := c.execActive + 1 },
        { step with start := step.start ++ [i] })
    else ({ c with execHeld := i :: held }, step)

/-- What `job_event` does after a submit over the cap and after an end. -/
def jobTail (halt : RunHalt) (cancelled : Bool) (w : Work Ch) : Work Ch :=
  if w.1.execHeld = [] then w
  else if halt ≠ .running ∨ cancelled then dropHeld halt.settles w
  else releaseHeld w.1.execHeld w

inductive JobEvent (Ch : Type) where
  | submit (i : Nat)
  | ended (i : Nat) (how : JobSeal)
  | reaped (i : Nat)
  | dropHeld
  | cancelOne (ch : Ch)

section

variable (c : SchedCore Ch)

def jobEvent (halt : RunHalt) (cancelled : Bool) : JobEvent Ch → Work Ch
  | .submit i =>
    if halt ≠ .running then dropJob halt.settles (c, {}) i
    else if c.execLimit = 0 ∨ c.execActive < c.execLimit then
      ({ c with execActive := c.execActive + 1 }, { start := [i] })
    else jobTail halt cancelled ({ c with execHeld := c.execHeld ++ [i] }, {})
  | .ended i how =>
    if c.isJob i then
      jobTail halt cancelled (settleJob i how ({ c with execActive := c.execActive - 1 }, {}))
    else (c, {})
  | .reaped i =>
    if c.isJob i then
      dropHeld false (settleJob i .nothing ({ c with execActive := c.execActive - 1 }, {}))
    else (c, {})
  | .dropHeld => dropHeld halt.settles (c, {})
  | .cancelOne ch => cancelOne ch halt (c, {})

/-- `reserve_slot`, and `reserve_job_slot` when there is a record. -/
def SchedCore.reserve (settle : Option (JobSettle Ch)) : SchedCore Ch :=
  { c with
    size := c.size + 1
    isJob := update c.isJob c.size settle.isSome
    jobSettle := update c.jobSettle c.size settle }

def finishWith (i : Nat) (outcome : TaskOutcome) (halt : RunHalt)
    (cancelled : Bool) : Work Ch :=
  let halt := if outcome.verdictEnd && c.isJob i then .deadlock else halt
  jobEvent (c.store i outcome) halt cancelled
    (.ended i (if halt.settles then outcome.jobSeal else .nothing))

def recordDeadlocked (i : Nat) (cancelled : Bool) : Work Ch :=
  jobEvent (c.store i .deadlocked) .running cancelled (.reaped i)

end

/-! ## Runs -/

structure Run (Ch : Type) where
  core : SchedCore Ch
  submitted : List Nat := []
  started : List Nat := []
  active : List Nat := []
  ended : List Nat := []
  dropped : List Nat := []

namespace Run

def new (cap : Nat) : Run Ch := { core := { execLimit := cap } }

/-- The caller runs what the transition starts. -/
@[simp] def after (r : Run Ch) (w : Work Ch) : Run Ch :=
  { r with
    core := w.1
    started := r.started ++ w.2.start
    active := r.active ++ w.2.start
    dropped := r.dropped ++ w.2.dropped }

/-- Task `i` has ended; one that is not a job is on no list. -/
def ends (r : Run Ch) (i : Nat) : Run Ch :=
  if r.core.isJob i then { r with active := r.active.erase i, ended := r.ended ++ [i] } else r

/-- Task `i` can end: it has a slot, and a job runs. -/
def CanEnd (r : Run Ch) (i : Nat) : Prop := i < r.core.size ∧ (r.core.isJob i → i ∈ r.active)

end Run

inductive Step (r : Run Ch) : Run Ch → Prop where
  | reserve (settle : Option (JobSettle Ch)) : Step r { r with core := r.core.reserve settle }
  | submit (i : Nat) (halt : RunHalt) (cancelled : Bool) (job : r.core.isJob i)
    (new : i ∉ r.submitted) : Step r ({ r with submitted := r.submitted ++ [i] }.after
      (jobEvent r.core halt cancelled (.submit i)))
  | finish (i : Nat) (outcome : TaskOutcome) (halt : RunHalt) (cancelled : Bool)
    (can : r.CanEnd i) : Step r ((r.ends i).after (finishWith r.core i outcome halt cancelled))
  | reap (i : Nat) (cancelled : Bool) (can : r.CanEnd i) :
    Step r ((r.ends i).after (recordDeadlocked r.core i cancelled))
  | dropHeld (halt : RunHalt) (cancelled : Bool) :
    Step r (r.after (jobEvent r.core halt cancelled .dropHeld))
  | cancelOne (ch : Ch) (halt : RunHalt) (cancelled : Bool) :
    Step r (r.after (jobEvent r.core halt cancelled (.cancelOne ch)))
  | bodySeals (sealed : Ch → Option String) : Step r { r with core := { r.core with sealed } }

/-- The slots and the settle records, when the jobs `gone` have ended or were dropped. -/
def Filed (c : SchedCore Ch) (gone : List Nat) : Prop :=
  (∀ i, c.isJob i → (c.slots i).length = gone.count i) ∧
  (∀ i, (c.jobSettle i).isSome ↔ c.isJob i ∧ i ∉ gone) ∧
  ∀ i, c.size ≤ i → c.isJob i = false ∧ c.slots i = []

/-- The books of a run in which the jobs `hand` were taken and not yet dropped. -/
structure Books (n : Nat) (hand : List Nat) (r : Run Ch) : Prop where
  limit : r.core.execLimit = n
  cap : r.core.execActive ≤ n
  count : r.core.execActive = r.active.length
  order : (r.started ++ r.core.execHeld).Sublist r.submitted
  split : r.submitted.Perm (r.started ++ r.core.execHeld ++ r.dropped ++ hand)
  ends : r.started.Perm (r.ended ++ r.active)
  once : r.submitted.Nodup
  jobs : ∀ i ∈ r.submitted, r.core.isJob i = true
  filed : Filed r.core (r.ended ++ r.dropped)

structure Inv (n : Nat) (r : Run Ch) : Prop extends Books n [] r where
  full : r.core.execHeld = [] ∨ r.core.execActive = n

variable {n i : Nat} {hand : List Nat} {r : Run Ch} {w : Work Ch}

/-- A settle forgets the record; what it seals is in no book. -/
theorem settleJob_eq (i) (how : JobSeal) (w : Work Ch) : ∃ sealed left out,
    settleJob i how w = ({ w.1 with jobSettle := update w.1.jobSettle i none, sealed, left },
      { w.2 with sealed := out }) := by
  obtain ⟨c, step⟩ := w
  simp only [settleJob]
  split
  · next hrec => exact ⟨c.sealed, c.left, step.sealed, by simp [← hrec]⟩
  · split
    · exact ⟨_, _, _, rfl⟩
    · split_ifs <;> exact ⟨_, _, _, rfl⟩

/-- Job `i` gets its outcome and loses its record. -/
theorem Filed.close {c : SchedCore Ch} {gone gone'} (h : Filed c gone) (hi : c.isJob i) (o)
    (hgone : gone'.Perm (i :: gone)) :
    Filed { c.store i o with jobSettle := update c.jobSettle i none } gone' := by
  refine ⟨fun j hj => ?_, fun j => ?_, fun j hj => ?_⟩
  · rw [hgone.count_eq, count_cons, ← h.1 j hj]
    by_cases hji : j = i
    · simp [hji]
    · simp [hji, Ne.symm hji]
  · rw [hgone.mem_iff]
    by_cases hji : j = i
    · simp [hji]
    · simpa [hji] using h.2.1 j
  have hji : j ≠ i := by
    rintro rfl
    simp [h.2.2 j hj] at hi
  simpa [hji] using h.2.2 j hj

theorem dropJob_eq (settle) (w : Work Ch) (i) : ∃ sealed left out,
    dropJob settle w i = ({ w.1.store i .cancelled with
      jobSettle := update w.1.jobSettle i none, sealed, left },
      { w.2 with dropped := w.2.dropped ++ [i], sealed := out }) :=
  settleJob_eq i (if settle then .cancel else .nothing)
    (w.1.store i .cancelled, { w.2 with dropped := w.2.dropped ++ [i] })

namespace Books

theorem dropJob (h : Books n (i :: hand) (r.after w)) (settle : Bool) :
    Books n hand (r.after (dropJob settle w i)) := by
  obtain ⟨sealed, left, out, heq⟩ := dropJob_eq settle w i
  have hjob := h.jobs i (h.split.mem_iff.mpr (by simp))
  rw [heq]
  refine { h with split := by simpa using h.split, filed := h.filed.close hjob .cancelled ?_ }
  simpa [append_assoc] using perm_append_singleton i (r.ended ++ (r.dropped ++ w.2.dropped))

theorem dropJobs (settle) (jobs : List Nat) (h : Books n jobs (r.after w))
    (hfull : w.1.execHeld = [] ∨ w.1.execActive = n) :
    Inv n (r.after (jobs.foldl (Jobs.dropJob settle) w)) := by
  induction jobs generalizing w with
  | nil => exact ⟨h, hfull⟩
  | cons i jobs ih =>
    obtain ⟨_, _, _, heq⟩ := dropJob_eq settle w i
    refine ih (h.dropJob settle) ?_
    rw [heq]
    exact hfull

section

variable (h : Books n [] (r.after w))
include h

/-- Jobs leave the queue, to be dropped. -/
theorem take {held} (hsub : held.Sublist w.1.execHeld)
    (hsplit : w.1.execHeld.Perm (held ++ hand)) :
    Books n hand (r.after ({ w.1 with execHeld := held }, w.2)) := by
  refine { h with order := (hsub.append_left _).trans h.order, split := ?_ }
  refine perm_iff_count.mpr fun j => ?_
  have := h.split.count_eq j
  have := hsplit.count_eq j
  simp only [Run.after, count_append, count_nil] at *
  omega

theorem dropHeld (settle) : Inv n (r.after (dropHeld settle w)) :=
  (h.take (nil_sublist _) (.refl _)).dropJobs settle _ (.inl rfl)

/-- The first held job starts. -/
theorem start {held} (hheld : w.1.execHeld = i :: held)
    (hroom : w.1.execActive < n) : Books n [] (r.after
      ({ w.1 with execActive := w.1.execActive + 1, execHeld := held },
        { w.2 with start := w.2.start ++ [i] })) := by
  refine { h with cap := hroom, count := ?_, order := ?_, split := ?_, ends := ?_ }
  · have := h.count
    simp at this ⊢
    omega
  · simpa [hheld] using h.order
  · simpa [hheld] using h.split
  · simpa using h.ends.append_right [i]

end

theorem releaseHeld (held : List Nat)
    (h : Books n [] (r.after ({ w.1 with execHeld := held }, w.2))) :
    Inv n (r.after (releaseHeld held w)) := by
  induction held generalizing w with
  | nil => exact ⟨h, .inl rfl⟩
  | cons i held ih =>
    simp only [Jobs.releaseHeld]
    split_ifs with hroom
    · exact ih (h.start rfl (h.limit ▸ hroom))
    · exact ⟨h, .inr (Nat.le_antisymm h.cap (h.limit ▸ Nat.not_lt.mp hroom))⟩

theorem jobTail (h : Books n [] (r.after w)) (halt : RunHalt) (cancelled) :
    Inv n (r.after (jobTail halt cancelled w)) := by
  unfold Jobs.jobTail
  split_ifs with hempty
  · exact ⟨h, .inl hempty⟩
  · exact h.dropHeld _
  · exact h.releaseHeld _

/-- A submitted job waits. -/
theorem hold (h : Books n [] r) (hjob : r.core.isJob i) (hnew : i ∉ r.submitted) :
    Books n [] ({ r with submitted := r.submitted ++ [i] }.after
      ({ r.core with execHeld := r.core.execHeld ++ [i] }, {})) := by
  refine ⟨h.limit, h.cap, ?_, ?_, ?_, ?_, ?_, ?_, ?_⟩
  · simpa using h.count
  · simpa using h.order.append_right [i]
  · refine perm_iff_count.mpr fun j => ?_
    have := h.split.count_eq j
    simp only [Run.after, count_append, count_nil] at *
    omega
  · simpa using h.ends
  · exact nodup_append.mpr ⟨h.once, nodup_singleton i,
      by simpa using fun j hj => ne_of_mem_of_not_mem hj hnew⟩
  · intro j hj
    obtain hj | rfl := by simpa using hj
    · exact h.jobs j hj
    · exact hjob
  · simpa [Filed] using h.filed

/-- A running job ends. -/
theorem ended (h : Books n [] r) (o : TaskOutcome) (how : JobSeal) (hjob : r.core.isJob i)
    (hrun : i ∈ r.active) : Books n [] ((r.ends i).after
      (settleJob i how ({ r.core.store i o with execActive := r.core.execActive - 1 }, {}))) := by
  obtain ⟨sealed, left, out, heq⟩ := settleJob_eq i how
    ({ r.core.store i o with execActive := r.core.execActive - 1 }, {})
  rw [heq, Run.ends, if_pos hjob]
  refine ⟨h.limit, ?_, ?_, ?_, ?_, ?_, h.once, h.jobs, ?_⟩
  · exact Nat.le_trans (Nat.sub_le ..) h.cap
  · simp [length_erase_of_mem hrun, h.count]
  · simpa using h.order
  · simpa using h.split
  · simpa using h.ends.trans ((perm_cons_erase hrun).append_left r.ended)
  · exact h.filed.close hjob o (by simp)

theorem gone (h : Books n hand r) (hi : i ∈ r.ended ++ r.dropped) : i ∈ r.submitted := by
  rw [h.split.mem_iff]
  have := h.ends.mem_iff (a := i)
  grind

end Books

namespace Inv

/-- A task that is no job ends. -/
theorem other (h : Inv n r) (o) (hjob : ¬ r.core.isJob i) (hi : i < r.core.size) :
    Inv n ((r.ends i).after (r.core.store i o, {})) := by
  rw [Run.ends, if_neg hjob]
  simp only [Run.after, append_nil]
  refine { h with filed := ⟨fun j hj => ?_, h.filed.2.1, fun j hj => ?_⟩ }
  · have hji : j ≠ i := fun heq => hjob (heq ▸ hj)
    simpa [hji] using h.filed.1 j hj
  · have hji : j ≠ i := fun heq => Nat.not_lt.mpr hj (heq ▸ hi)
    simpa [hji] using h.filed.2.2 j hj

theorem step {r'} (hn : 0 < n) (h : Inv n r) (hstep : Step r r') : Inv n r' := by
  cases hstep with
  | reserve settle =>
    obtain ⟨hslots, hrecord, hfresh⟩ := h.filed
    have hsize := hfresh r.core.size (Nat.le_refl _)
    have hnew : ∀ i ∈ r.submitted, i ≠ r.core.size := fun i hi heq => by
      have := h.jobs i hi
      simp [heq, hsize] at this
    have hgone : r.core.size ∉ r.ended ++ r.dropped := fun hi => hnew _ (h.gone hi) rfl
    refine { h with jobs := fun i hi => ?_, filed := ⟨fun i hi => ?_, fun i => ?_, fun i hi => ?_⟩ }
    · simpa [SchedCore.reserve, hnew i hi] using h.jobs i hi
    · by_cases heq : i = r.core.size
      · simp [SchedCore.reserve, heq, hsize.2, count_eq_zero.mpr hgone]
      · exact hslots i (by simpa [SchedCore.reserve, heq] using hi)
    · by_cases heq : i = r.core.size
      · simpa [SchedCore.reserve, heq] using fun _ => mem_append.not.mp hgone
      · simpa [SchedCore.reserve, heq] using hrecord i
    · have heq : i ≠ r.core.size := Nat.ne_of_gt hi
      simpa [SchedCore.reserve, heq] using hfresh i (Nat.le_of_lt hi)
  | submit i halt cancelled hjob hnew =>
    have hheld := h.hold hjob hnew
    unfold jobEvent
    split_ifs with hhalt hroom
    · exact (hheld.take (sublist_append_left ..) (.refl _)).dropJobs _ [i] h.full
    · rw [h.limit] at hroom
      have hroom : r.core.execActive < n := by omega
      have hempty := h.full.resolve_right (Nat.ne_of_lt hroom)
      exact ⟨hheld.start (by simp [hempty]) hroom, .inl hempty⟩
    · exact hheld.jobTail halt cancelled
  | finish i o halt cancelled can =>
    unfold finishWith jobEvent
    by_cases hjob : r.core.isJob i
    · simpa [hjob] using (h.ended o _ hjob (can.2 hjob)).jobTail _ cancelled
    · simpa [hjob] using h.other o hjob can.1
  | reap i cancelled can =>
    unfold recordDeadlocked jobEvent
    by_cases hjob : r.core.isJob i
    · simpa [hjob] using (h.ended .deadlocked _ hjob (can.2 hjob)).dropHeld _
    · simpa [hjob] using h.other .deadlocked hjob can.1
  | dropHeld halt cancelled =>
    refine Books.dropHeld ?_ _
    simpa using h.toBooks
  | cancelOne ch halt cancelled =>
    have hself : Books n [] (r.after (r.core, {})) := by simpa using h.toBooks
    simp only [jobEvent, Jobs.cancelOne]
    split
    · exact ⟨hself, h.full⟩
    next i hi =>
    split_ifs with hheld
    · have hperm : r.core.execHeld.Perm (r.core.execHeld.erase i ++ [i]) :=
        (perm_cons_erase hheld).trans (perm_append_singleton i _).symm
      exact (hself.take erase_sublist hperm).dropJobs _ [i]
        (.inr (h.full.resolve_left (ne_nil_of_mem hheld)))
    refine ⟨{ hself with filed := ⟨hself.filed.1, fun j => ?_, hself.filed.2.2⟩ }, h.full⟩
    by_cases hji : j = i
    · simpa [hji] using h.filed.2.1 i
    · simpa [hji] using h.filed.2.1 j
  | bodySeals sealed => exact { h with }

end Inv

/-- **The jobs of an executor of cap `n`, after any sequence of operations.** -/
theorem executor_jobs (hn : 0 < n) (hrun : Reaches Step (Run.new n) r) :
    -- at most `n` jobs are active, and a job waits only while `n` are
    r.core.execActive = r.active.length ∧ r.active.length ≤ n ∧
    (r.core.execHeld ≠ [] → r.active.length = n) ∧
    -- the starts are in the order of the submits, and those that wait come after
    (r.started ++ r.core.execHeld).Sublist r.submitted ∧
    -- every submitted job is in one place, once; none waits when none is active
    r.submitted.Nodup ∧ r.submitted.Perm (r.started ++ r.core.execHeld ++ r.dropped) ∧
    (r.active = [] → r.submitted.Perm (r.started ++ r.dropped)) ∧
    r.started.Perm (r.ended ++ r.active) ∧
    -- a slot is filled once, and the record is gone, when the job has ended or was dropped
    ∀ i ∈ r.submitted, (r.core.slots i).length = (if i ∈ r.ended ++ r.dropped then 1 else 0) ∧
      ((r.core.jobSettle i).isSome ↔ i ∉ r.ended ++ r.dropped) := by
  have hinit : Inv n (Run.new n : Run Ch) := by
    refine ⟨⟨rfl, Nat.zero_le n, rfl, .refl _, .refl _, .refl _, .nil, by simp [Run.new], ?_⟩,
      .inl rfl⟩
    simp [Filed, Run.new]
  have h : Inv n r := by
    have hstep : ∀ r r' : Run Ch, Inv n r → Step r r' → Inv n r' := fun _ _ => Inv.step hn
    exact hrun.keeps hinit hstep
  have hsplit := append_nil _ ▸ h.split
  refine ⟨h.count, h.count ▸ h.cap, ?_, h.order, h.once, hsplit, ?_, h.ends, fun i hi => ⟨?_, ?_⟩⟩
  · exact fun hheld => h.count ▸ h.full.resolve_left hheld
  · intro hnone
    have hcount := h.count
    rw [hnone, length_nil] at hcount
    have hempty := h.full.resolve_right (by omega)
    simpa [hempty] using hsplit
  · have hnodup : (r.ended ++ r.dropped).Nodup := by
      refine nodup_iff_count_le_one.mpr fun j => ?_
      have := nodup_iff_count_le_one.mp h.once j
      have := h.split.count_eq j
      have := h.ends.count_eq j
      simp only [count_append] at *
      omega
    rw [h.filed.1 i (h.jobs i hi), hnodup.count]
  · simp [h.filed.2.1 i, h.jobs i hi]


/-- With a cap of one the second job waits, and starts when the first ends. -/
theorem executor_jobs_one : ∃ r : Run Unit, Reaches Step (Run.new 1) r ∧
    r.ended = [0] ∧ r.active = [1] ∧ r.active.length ≤ 1 := by
  have hrun : Reaches Step (Run.new 1 : Run Unit) _ :=
    ((((Reaches.refl.tail (.reserve (some ⟨(), false⟩))).tail
      (.submit 0 .running false rfl (by decide))).tail (.reserve (some ⟨(), false⟩))).tail
      (.submit 1 .running false rfl (by decide))).tail
      (.finish 0 .done .running false ⟨by decide, fun _ => by decide⟩)
  exact ⟨_, hrun, rfl, rfl, (executor_jobs Nat.one_pos hrun).2.1⟩

end ChezziLang.Vm.Jobs
