/-
  The stop-the-world coordinator of the collector (`vm/gc_coord.rs`).

  Each lock section is a function on the state behind the mutex.  A thread is what it
  holds and where it is between two sections; `step` lets one thread take one section,
  and an interleaving is any sequence of steps.  A wait on the condition variable may
  return at any time, so a waiting thread is one whose section is not enabled.  The
  relaxed load of `stw` may be old, so a poll may find the flag set in any state.

  A thread that is parked or detached carries, for the statements only, the roots it
  handed in.  One thread is one token: a thread with two tokens is two threads here.
-/
import ChezziLang.Lib.Roster

namespace ChezziLang.Vm.GcCoord

open Lib.Roster

/-! ## The state behind the lock -/

inductive Phase where
  | idle
  | requested
  | collecting
  deriving DecidableEq, Repr

structure State (R : Type) where
  phase : Phase := .idle
  attached : Nat := 0
  stopped : Nat := 0
  gcEpoch : Nat := 0
  stoppedRoots : List R := []
  detachedRoots : List (Nat × List R) := []
  nextTicket : Nat := 0
  stops : Nat := 0
  stw : Bool := false

/-- What would panic in the coordinator itself. -/
inductive Panic where
  | attachedUnderflow
  | ticketMissing
  | rootsLeft
  deriving DecidableEq, Repr

namespace State

variable {R : Type}

section

variable (st : State R)

/-- `wait_idle`: no state while the thread waits. -/
def waitIdle : Option (State R) :=
  if st.phase = .idle then some st else none

def attach : Option (State R) :=
  st.waitIdle.map fun st => { st with attached := st.attached + 1 }

def leave : Except Panic (State R) :=
  if st.attached = 0 then .error .attachedUnderflow
  else .ok { st with attached := st.attached - 1 }

/-- `park` up to its wait. -/
def park (roots : List R) : State R :=
  { st with stoppedRoots := st.stoppedRoots ++ roots, stopped := st.stopped + 1 }

/-- `stop_here`: nothing if the stop already ended. -/
def stopHere (roots : List R) : Option (State R) :=
  match st.phase with
  | .idle => none
  | .requested | .collecting => some (st.park roots)

/-- `detach`: the ticket id and the state. -/
def detach (roots : List R) : Except Panic (Nat × State R) :=
  let id := st.nextTicket
  let st := { st with
    nextTicket := st.nextTicket + 1
    detachedRoots := st.detachedRoots ++ [(id, roots)] }
  st.leave.map fun st => (id, st)

/-- `request_collect` up to its wait; no state if another stop is already requested. -/
def request : Option (State R) :=
  match st.phase with
  | .requested | .collecting => none
  | .idle => some { st with phase := .requested, stw := true }

/-- `request_collect` from the end of its wait to the call of `collect`: the roots for the
    collector and the state. -/
def beginCollect (own : List R) : Option (List R × State R) :=
  if st.stopped + 1 < st.attached then none
  else
    some (own ++ st.stoppedRoots ++ st.detachedRoots.flatMap Prod.snd,
      { st with phase := .collecting, stops := st.stops + 1, stoppedRoots := [] })

def withdraw (id : Nat) : Except Panic (State R) :=
  match st.detachedRoots.findIdx? fun e => e.1 == id with
  | none => .error .ticketMissing
  | some i => .ok { st with detachedRoots := swapRemove st.detachedRoots i }

/-- `reattach`: the state, and whether a collection ran since the detach. -/
def reattach (id epoch : Nat) : Option (Except Panic (State R × Bool)) :=
  st.waitIdle.map fun st =>
    (st.withdraw id).map fun st =>
      ({ st with attached := st.attached + 1 }, st.gcEpoch != epoch)

/-- The drop of `Release`. -/
def release : Except Panic (State R) :=
  if st.stoppedRoots ≠ [] then .error .rootsLeft
  else .ok { st with gcEpoch := st.gcEpoch + 1, stopped := 0, phase := .idle, stw := false }

end

end State

/-! ## Threads -/

inductive Thread (R : Type) where
  /-- No token and no ticket. -/
  | out
  /-- Holds a token and runs. -/
  | attached
  /-- In `poll`, with its roots computed and before the lock. -/
  | polling (roots : List R)
  /-- In `park`, waiting for the epoch to move. -/
  | parked (epoch : Nat) (handed : List R)
  /-- In `request_collect`, waiting for the other threads. -/
  | requesting (own : List R)
  /-- In `request_collect`, running `collect`. -/
  | collecting (roots : List R)
  /-- Holds a ticket. -/
  | detached (ticket epoch : Nat) (published : List R)
  deriving DecidableEq, Repr

namespace Thread

variable {R : Type}

/-- Holds a token. -/
def Holds : Thread R → Prop
  | .out | .detached _ _ _ => False
  | _ => True

instance : DecidablePred (Holds : Thread R → Prop)
  | .out | .detached _ _ _ => isFalse id
  | .attached | .polling _ | .parked _ _ | .requesting _ | .collecting _ => isTrue trivial

/-- Requests or runs a collection. -/
def Leads : Thread R → Prop
  | .requesting _ | .collecting _ => True
  | _ => False

/-- The roots that a parked thread handed in. -/
def handed : Thread R → List R
  | .parked _ handed => handed
  | _ => []

/-- Parked in the stop with this number. -/
def ParkedIn (th : Thread R) (stop : Nat) : Prop := th = .parked stop th.handed

end Thread

/-! ## The system -/

structure World (T R : Type) where
  coord : State R
  thread : T → Thread R

/-- The section that a thread takes next. -/
inductive Act (R : Type) where
  | attach
  | poll (roots : List R)
  | stopHere
  | resume
  | detach (roots : List R)
  | drop
  | request (own : List R)
  | beginCollect
  | release
  | reattach
  | dropTicket
  deriving DecidableEq, Repr

section
variable {T R : Type} [DecidableEq T]

namespace World

def init : World T R := ⟨{}, fun _ => .out⟩

/-- The thread `t` leaves its section. -/
def put (w : World T R) (t : T) (st : State R) (th : Thread R) : World T R :=
  ⟨st, Function.update w.thread t th⟩

@[simp] theorem put_self (w : World T R) (t st th) : (w.put t st th).thread t = th := by
  simp [put]

@[simp] theorem put_other (w : World T R) {t u} (h : u ≠ t) (st th) :
    (w.put t st th).thread u = w.thread u := by
  simp [put, h]

/-- One section of one thread.  `none`: the thread is not there, or it waits. -/
def step (w : World T R) (t : T) (a : Act R) : Option (Except Panic (World T R)) :=
  match w.thread t, a with
  | .out, .attach => w.coord.attach.map fun st => .ok (w.put t st .attached)
  -- The flag was read as set and the closure returned; otherwise `poll` does nothing.
  | .attached, .poll roots => some (.ok (w.put t w.coord (.polling roots)))
  | .polling roots, .stopHere =>
    match w.coord.stopHere roots with
    | none => some (.ok (w.put t w.coord .attached))
    | some st => some (.ok (w.put t st (.parked w.coord.gcEpoch roots)))
  | .parked epoch _, .resume =>
    if w.coord.gcEpoch = epoch then none else some (.ok (w.put t w.coord .attached))
  | .attached, .detach roots =>
    some ((w.coord.detach roots).map fun r => w.put t r.2 (.detached r.1 w.coord.gcEpoch roots))
  | .attached, .drop => some (w.coord.leave.map fun st => w.put t st .out)
  | .attached, .request own =>
    match w.coord.request with
    | none => some (.ok (w.put t (w.coord.park own) (.parked w.coord.gcEpoch own)))
    | some st => some (.ok (w.put t st (.requesting own)))
  | .requesting own, .beginCollect =>
    (w.coord.beginCollect own).map fun r => .ok (w.put t r.2 (.collecting r.1))
  | .collecting _, .release => some (w.coord.release.map fun st => w.put t st .attached)
  | .detached ticket epoch _, .reattach =>
    (w.coord.reattach ticket epoch).map fun r => r.map fun r => w.put t r.1 .attached
  | .detached ticket _ _, .dropTicket =>
    some ((w.coord.withdraw ticket).map fun st => w.put t st .out)
  | _, _ => none

/-- Some thread takes a section. -/
def Next (w w' : World T R) : Prop := ∃ t a, w.step t a = some (.ok w')

/-- Any interleaving from one world to another. -/
def Run : World T R → World T R → Prop := Relation.ReflTransGen Next

def Reachable (w : World T R) : Prop := Run init w

/-- A given interleaving. -/
def exec (w : World T R) : List (T × Act R) → Option (World T R)
  | [] => some w
  | (t, a) :: rest =>
    match w.step t a with
    | some (.ok w') => w'.exec rest
    | _ => none

theorem run_of_exec {acts} {w w' : World T R} (h : w.exec acts = some w') : Run w w' := by
  induction acts generalizing w with
  | nil =>
    cases h
    exact Relation.ReflTransGen.refl
  | cons act rest ih =>
    obtain ⟨t, a⟩ := act
    rw [exec] at h
    split at h
    · next w1 hstep => exact Relation.ReflTransGen.head ⟨t, a, hstep⟩ (ih h)
    · cases h

/-! ## What a step can do -/

/-- The successful steps of the thread `t`, each with its guard. -/
inductive Moves (w : World T R) (t : T) : World T R → Prop where
  | attach (hth : w.thread t = .out) (hidle : w.coord.phase = .idle) :
      Moves w t (w.put t { w.coord with attached := w.coord.attached + 1 } .attached)
  | poll (roots : List R) (hth : w.thread t = .attached) :
      Moves w t (w.put t w.coord (.polling roots))
  | stale (roots : List R) (hth : w.thread t = .polling roots) (hidle : w.coord.phase = .idle) :
      Moves w t (w.put t w.coord .attached)
  | park (roots : List R) (hth : w.thread t = .polling roots ∨ w.thread t = .attached)
      (hstop : w.coord.phase ≠ .idle) :
      Moves w t (w.put t (w.coord.park roots) (.parked w.coord.gcEpoch roots))
  | resume (epoch : Nat) (handed : List R) (hth : w.thread t = .parked epoch handed)
      (hmoved : w.coord.gcEpoch ≠ epoch) : Moves w t (w.put t w.coord .attached)
  | detach (roots : List R) (hth : w.thread t = .attached) (hpos : w.coord.attached ≠ 0) :
      Moves w t (w.put t
        { w.coord with
          nextTicket := w.coord.nextTicket + 1
          detachedRoots := w.coord.detachedRoots ++ [(w.coord.nextTicket, roots)]
          attached := w.coord.attached - 1 }
        (.detached w.coord.nextTicket w.coord.gcEpoch roots))
  | drop (hth : w.thread t = .attached) (hpos : w.coord.attached ≠ 0) :
      Moves w t (w.put t { w.coord with attached := w.coord.attached - 1 } .out)
  | request (own : List R) (hth : w.thread t = .attached) (hidle : w.coord.phase = .idle) :
      Moves w t (w.put t { w.coord with phase := .requested, stw := true } (.requesting own))
  | beginCollect (own : List R) (hth : w.thread t = .requesting own)
      (hall : w.coord.attached ≤ w.coord.stopped + 1) :
      Moves w t (w.put t
        { w.coord with phase := .collecting, stops := w.coord.stops + 1, stoppedRoots := [] }
        (.collecting (own ++ w.coord.stoppedRoots ++ w.coord.detachedRoots.flatMap Prod.snd)))
  | release (roots : List R) (hth : w.thread t = .collecting roots)
      (hempty : w.coord.stoppedRoots = []) :
      Moves w t (w.put t
        { w.coord with
          gcEpoch := w.coord.gcEpoch + 1, stopped := 0, phase := .idle, stw := false }
        .attached)
  | reattach (ticket epoch : Nat) (published : List R) (st : State R)
      (hth : w.thread t = .detached ticket epoch published) (hidle : w.coord.phase = .idle)
      (hst : w.coord.withdraw ticket = .ok st) :
      Moves w t (w.put t { st with attached := st.attached + 1 } .attached)
  | dropTicket (ticket epoch : Nat) (published : List R) (st : State R)
      (hth : w.thread t = .detached ticket epoch published)
      (hst : w.coord.withdraw ticket = .ok st) :
      Moves w t (w.put t st .out)

/-- A step changes its own thread only. -/
theorem Moves.other {w w' : World T R} {t u} (hmove : Moves w t w') (hut : u ≠ t) :
    w'.thread u = w.thread u := by
  cases hmove <;> exact put_other w hut _ _

theorem moves_of_step {w w'} {t : T} {a : Act R} (h : w.step t a = some (.ok w')) :
    Moves w t w' := by
  unfold step at h
  split at h
  · next hth =>
    unfold State.attach State.waitIdle at h
    split at h
    · next hidle => cases h; exact .attach hth hidle
    · cases h
  · next roots hth => cases h; exact .poll roots hth
  · next roots hth =>
    unfold State.stopHere at h
    cases hphase : w.coord.phase with
    | idle => rw [hphase] at h; cases h; exact .stale roots hth hphase
    | requested | collecting =>
      rw [hphase] at h; cases h; exact .park roots (.inl hth) (by rw [hphase]; nofun)
  · next epoch handed hth =>
    split at h
    · cases h
    · next hmoved => cases h; exact .resume epoch handed hth hmoved
  · next roots hth =>
    unfold State.detach State.leave at h
    dsimp only at h
    split at h
    · cases h
    · next hpos => cases h; exact .detach roots hth hpos
  · next hth =>
    unfold State.leave at h
    split at h
    · cases h
    · next hpos => cases h; exact .drop hth hpos
  · next own hth =>
    unfold State.request at h
    cases hphase : w.coord.phase with
    | idle => rw [hphase] at h; cases h; exact .request own hth hphase
    | requested | collecting =>
      rw [hphase] at h; cases h; exact .park own (.inr hth) (by rw [hphase]; nofun)
  · next own hth =>
    unfold State.beginCollect at h
    split at h
    · cases h
    · next hall => cases h; exact .beginCollect own hth (by omega)
  · next roots hth =>
    unfold State.release at h
    split at h
    · cases h
    · next hempty => cases h; exact .release roots hth (not_not.mp hempty)
  · next ticket epoch published hth =>
    unfold State.reattach State.waitIdle at h
    split at h
    · next hidle =>
      cases hst : w.coord.withdraw ticket with
      | error p => simp [hst, Except.map] at h
      | ok st =>
        simp only [hst, Option.map_some, Except.map] at h
        cases h
        exact .reattach ticket epoch published st hth hidle hst
    · cases h
  · next ticket epoch published hth =>
    cases hst : w.coord.withdraw ticket with
    | error p => rw [hst] at h; cases h
    | ok st => rw [hst] at h; cases h; exact .dropTicket ticket epoch published st hth hst
  · cases h

end World

end

end ChezziLang.Vm.GcCoord
