/-
  Channels: `vm/core.rs` `Pending`, `ChanState` and `PendingOp`, with the
  publishing steps of `vm/channel.rs`, `vm/blocking.rs`, `vm/demote.rs` and
  `vm/mnsched_park.rs`.

  Every channel operation runs under the lock of its own channel, but a
  `Pending` may have entries on several channels, so another thread can settle
  it between two compare-and-swaps of one operation.  The loops of `give`,
  `take_offer` and `close` are therefore modelled turn by turn: a `Hold` is an
  operation in progress, one `Step` is one turn of it (or one operation without a
  compare-and-swap), and the steps of different channels and parties interleave
  freely.

  A message is a value together with the send attempt it belongs to; the code
  never looks into it, so messages are an arbitrary type.  The fields from
  `issued` on are history: no step reads them, apart from the freshness of a new
  message.  `sealed` is the mark of a task handle's own channel, which no step
  here sets.
-/
import Mathlib.Data.List.Basic
import Mathlib.Logic.Relation

namespace ChezziLang.Vm.Channel

open Function

/-! ## Pending -/

/-- The states of a `Pending`: `PENDING_QUEUED`, `PENDING_CANCELLED`,
    `PENDING_CLOSED` and `PENDING_DONE + arm`. -/
inductive PState where
  | queued
  | cancelled
  | closed
  | done (arm : Nat)
  deriving DecidableEq, Repr

section
variable {P : Type} [DecidableEq P]

section

variable (pend : P → PState) (p : P)

/-- The compare-and-swap from `PENDING_QUEUED`. -/
def compareExchange (new : PState) : Option (P → PState) :=
  if pend p = .queued then some (update pend p new) else none

def tryCommit (arm : Nat) : Option (P → PState) :=
  compareExchange pend p (.done arm)

def tryCancel : Option (P → PState) :=
  compareExchange pend p .cancelled

def tryClose : Option (P → PState) :=
  compareExchange pend p .closed

end

end

/-! ## The locked interior of a channel -/

section

variable (P M : Type)

/-- A blocked sender's value. -/
structure Offer where
  p : P
  arm : Nat
  v : M
  deriving DecidableEq, Repr

/-- A blocked rendezvous receiver's place. -/
structure Slot where
  p : P
  arm : Nat
  got : Option M
  deriving DecidableEq, Repr

structure ChanState where
  queue : List M
  sendq : List (Offer P M)
  recvq : List (Slot P M)
  closed : Bool
  sealed : Bool
  deriving DecidableEq, Repr

end

inductive SendOutcome where
  | sent
  | offered
  | full
  | closed
  deriving DecidableEq, Repr

/-- What the next turn of the loop of `give` finds. -/
inductive GiveTurn (P M : Type) where
  | exhausted
  | skip
  | dead
  | commit (e : Slot P M) (pend : P → PState)

/-- What the next turn of the loop of `take_offer` finds. -/
inductive TakeTurn (P M : Type) where
  | exhausted
  | skip
  | dead
  | commit (o : Offer P M) (pend : P → PState)

/-- The first decision of `send`: what it does before any compare-and-swap. -/
inductive SendTurn where
  | closed
  | push
  | give
  | block
  deriving DecidableEq, Repr

namespace ChanState
variable {P M : Type} [DecidableEq P]

def empty : ChanState P M := ⟨[], [], [], false, false⟩

section

variable (s : ChanState P M)

def push (v : M) : ChanState P M := { s with queue := s.queue ++ [v] }

def offer (p : P) (arm : Nat) (v : M) : ChanState P M :=
  { s with sendq := s.sendq ++ [⟨p, arm, v⟩] }

def slot (p : P) (arm : Nat) : ChanState P M :=
  { s with recvq := s.recvq ++ [⟨p, arm, none⟩] }

/-- One turn of the loop of `give`, at index `i`. -/
def giveTurn (pend : P → PState) (me : Option P) (i : Nat) : GiveTurn P M :=
  match s.recvq[i]? with
  | none => .exhausted
  | some e =>
    if e.got.isSome || decide (me = some e.p) then .skip
    else
      match tryCommit pend e.p e.arm with
      | some pend' => .commit e pend'
      | none => .dead

def sendTurn (cap : Option Nat) : SendTurn :=
  if s.closed then .closed
  else
    match cap with
    | none => .push
    | some 0 => .give
    | some n => if s.queue.length < n then .push else .block

/-- One turn of the loop of `take_offer`, at index `i`. -/
def takeTurn (pend : P → PState) (me : Option P) (i : Nat) : TakeTurn P M :=
  match s.sendq[i]? with
  | none => .exhausted
  | some o =>
    if me = some o.p then .skip
    else
      match tryCommit pend o.p o.arm with
      | some pend' => .commit o pend'
      | none => .dead

/-- `take`: the filled slot of `p` and the state without it. -/
def take (p : P) : Option (M × ChanState P M) :=
  match s.recvq.findIdx? (fun e => e.got.isSome && decide (e.p = p)) with
  | none => none
  | some i => ((s.recvq[i]?).bind Slot.got).map fun v =>
      (v, { s with recvq := s.recvq.eraseIdx i })

def withdraw (p : P) : ChanState P M :=
  { s with
    sendq := s.sendq.filter (fun o => decide (o.p ≠ p))
    recvq := s.recvq.filter (fun e => decide (e.p ≠ p)) }

def recvReadyFor (pend : P → PState) (me : Option P) : Bool :=
  !s.queue.isEmpty || s.sealed ||
    s.sendq.any fun o => decide (pend o.p = .queued) && !decide (me = some o.p)

def sendReadyFor (pend : P → PState) (cap : Option Nat) (me : Option P) :
    Bool :=
  match cap with
  | none => true
  | some 0 => s.recvq.any fun e =>
      e.got.isNone && decide (pend e.p = .queued) && !decide (me = some e.p)
  | some n => decide (s.queue.length < n)

end

end ChanState

/-! ## Parties -/

inductive Settled (M : Type) where
  | cancelled
  | closed
  | sent (arm : Nat)
  | got (arm : Nat) (v : M)
  deriving DecidableEq, Repr

/-- Where the owner of a `Pending` stands.  `sending` and `receiving` are the
    moments inside a channel operation that has the `Pending` as an argument;
    the last three are the parts of `settle_mut`. -/
inductive Phase (C M : Type) where
  | unused
  | sending (c : C)
  | active
  | receiving
  | taking (c : C) (arm : Nat) (drop : Bool)
  | withdrawing (rest : List C) (r : Settled M)
  | settled (r : Settled M)
  deriving DecidableEq, Repr

/-- `PendingOp`: `arms` is its `at`. -/
structure PendingOp (C M : Type) where
  arms : List (C × Nat × Bool)
  phase : Phase C M
  deriving DecidableEq, Repr

/-- What `settle_mut` does after its `try_cancel`, which met the state `st`. -/
def settleTurn {C M : Type} (arms : List (C × Nat × Bool)) (drop : Bool) (st : PState) :
    Phase C M :=
  let chans := arms.map fun a => a.1
  match st with
  | .queued => .withdrawing chans .cancelled
  | .cancelled => .withdrawing chans .cancelled
  | .closed => .withdrawing chans .closed
  | .done arm =>
    match arms.find? (fun a => a.2.1 == arm) with
    | some (_, _, true) => .withdrawing chans (.sent arm)
    | some (c, _, false) => .taking c arm drop
    | none => .withdrawing chans .cancelled

/-- An operation that holds the lock of its channel between two turns. -/
inductive Hold (P M R : Type) where
  /-- `send` on a rendezvous channel, in the loop of `give`. -/
  | give (i : Nat) (m : M) (offer : Option P)
  /-- `pop_for`, in the loop of `take_offer`; `refill` when it has already
      popped the buffer front, `own` when the receiver has a slot of its own on
      this channel that it withdraws in the same hold. -/
  | take (i : Nat) (refill : Bool) (r : R) (me own : Option P)
  /-- `close`, with the drained offers it has still to close. -/
  | closing (rest : List (Offer P M))
  deriving DecidableEq, Repr

/-- Who received a message: a `recv` or a poll, or a settled `Pending`. -/
inductive Receiver (P R : Type) where
  | poll (r : R)
  | party (p : P)
  deriving DecidableEq, Repr

/-- What the sender of a message was told. -/
inductive Report where
  | sent
  | cancelled
  | closed
  | full
  deriving DecidableEq, Repr

/-- What settling in state `st` tells the sender of arm `arm`. -/
def Report.of (st : PState) (arm : Nat) : Report :=
  match st with
  | .done a => if arm = a then .sent else .cancelled
  | .closed => .closed
  | .queued => .cancelled
  | .cancelled => .cancelled

structure Sys (C P M R : Type) where
  chan : C → ChanState P M
  hold : C → Option (Hold P M R)
  pend : P → PState
  op : P → PendingOp C M
  issued : List M
  /-- The `Pending` and arm that offered a message. -/
  origin : M → Option (P × Nat)
  report : M → Option Report
  received : List (M × Receiver P R)
  /-- Values that went down with the dropped receive that owned their slot. -/
  discarded : List M
  /-- Every successful `try_commit`. -/
  commits : List (P × Nat)

namespace Sys
variable {C P M R : Type} [DecidableEq C] [DecidableEq P] [DecidableEq M]

def init : Sys C P M R where
  chan := fun _ => .empty
  hold := fun _ => none
  pend := fun _ => .queued
  op := fun _ => ⟨[], .unused⟩
  issued := []
  origin := fun _ => none
  report := fun _ => none
  received := []
  discarded := []
  commits := []

section

variable (σ : Sys C P M R)

/-- Replaces the state of channel `c` and what holds its lock. -/
def put (c : C) (s : ChanState P M) (h : Option (Hold P M R)) : Sys C P M R :=
  { σ with chan := update σ.chan c s, hold := update σ.hold c h }

def setPhase (p : P) (ph : Phase C M) : Sys C P M R :=
  { σ with op := update σ.op p { σ.op p with phase := ph } }

/-- The bare `send`'s own `Pending`, if it made one, moves to `ph`. -/
def setOffer (offer : Option P) (ph : Phase C M) : Sys C P M R :=
  match offer with
  | none => σ
  | some p => σ.setPhase p ph

def tell (m : M) (r : Report) : Sys C P M R :=
  { σ with report := update σ.report m (some r) }

/-- A `send` returns without an offer: its `Pending` is dropped unpublished. -/
def sendReturns (c : C) (s : ChanState P M) (m : M) (offer : Option P)
    (r : Report) : Sys C P M R :=
  ((σ.put c s none).setOffer offer (.settled .cancelled)).tell m r

/-- A message becomes `p`'s offer on `arm` of channel `c`. -/
def publishOffer (c : C) (p : P) (arm : Nat) (m : M) : Sys C P M R :=
  { σ.put c ((σ.chan c).offer p arm m) none with
    op := update σ.op p ⟨(σ.op p).arms ++ [(c, arm, true)], .active⟩
    origin := update σ.origin m (some (p, arm)) }

/-- The end of `send`: the value becomes the caller's offer, or the send is full. -/
def offerOrFull (c : C) (m : M) (offer : Option P) : Sys C P M R :=
  match offer with
  | some p => σ.publishOffer c p 0 m
  | none => σ.sendReturns c (σ.chan c) m none .full

/-- A receive on channel `c` lets go of the lock; with `own` it has first
    withdrawn its own slot if it got a value. -/
def recvReturns (c : C) (s : ChanState P M) (own : Option P) (got : Bool) :
    Sys C P M R :=
  match own with
  | none => σ.put c s none
  | some p =>
    if got then
      { (σ.put c (s.withdraw p) none).setPhase p .active with
        pend := (tryCancel σ.pend p).getD σ.pend }
    else (σ.put c s none).setPhase p .active

def issue (m : M) : Sys C P M R := { σ with issued := m :: σ.issued }

end

end Sys

open Sys

/-- One step of one party, or one turn of the operation that holds a lock.
    `cap` gives the capacity of each channel. -/
inductive Step {C P M R : Type} [DecidableEq C] [DecidableEq P] [DecidableEq M]
    (cap : C → Option Nat) : Sys C P M R → Sys C P M R → Prop where
  /-- `send` and `try_send` that decide at once.  `offer` is the fresh `Pending`
      of a `send` that may block. -/
  | sendClosed (σ : Sys C P M R) (c : C) (m : M) (offer : Option P) (hl : σ.hold c = none)
      (hm : m ∉ σ.issued) (ho : ∀ p, offer = some p → (σ.op p).phase = .unused)
      (ht : (σ.chan c).sendTurn (cap c) = .closed) :
      Step cap σ ((σ.issue m).sendReturns c (σ.chan c) m offer .closed)
  | sendPush (σ : Sys C P M R) (c : C) (m : M) (offer : Option P) (hl : σ.hold c = none)
      (hm : m ∉ σ.issued) (ho : ∀ p, offer = some p → (σ.op p).phase = .unused)
      (ht : (σ.chan c).sendTurn (cap c) = .push) :
      Step cap σ ((σ.issue m).sendReturns c ((σ.chan c).push m) m offer .sent)
  | sendBlock (σ : Sys C P M R) (c : C) (m : M) (offer : Option P) (hl : σ.hold c = none)
      (hm : m ∉ σ.issued) (ho : ∀ p, offer = some p → (σ.op p).phase = .unused)
      (ht : (σ.chan c).sendTurn (cap c) = .block) :
      Step cap σ ((σ.issue m).offerOrFull c m offer)
  | sendGive (σ : Sys C P M R) (c : C) (m : M) (offer : Option P) (hl : σ.hold c = none)
      (hm : m ∉ σ.issued) (ho : ∀ p, offer = some p → (σ.op p).phase = .unused)
      (ht : (σ.chan c).sendTurn (cap c) = .give) :
      Step cap σ
        (((σ.issue m).put c (σ.chan c) (some (.give 0 m offer))).setOffer offer (.sending c))
  | giveSkip (σ : Sys C P M R) (c : C) (i : Nat) (m : M) (offer : Option P)
      (hl : σ.hold c = some (.give i m offer))
      (ht : (σ.chan c).giveTurn σ.pend offer i = .skip) :
      Step cap σ (σ.put c (σ.chan c) (some (.give (i + 1) m offer)))
  | giveDead (σ : Sys C P M R) (c : C) (i : Nat) (m : M) (offer : Option P)
      (hl : σ.hold c = some (.give i m offer))
      (ht : (σ.chan c).giveTurn σ.pend offer i = .dead) :
      Step cap σ (σ.put c { σ.chan c with recvq := (σ.chan c).recvq.eraseIdx i }
        (some (.give i m offer)))
  | giveCommit (σ : Sys C P M R) (c : C) (i : Nat) (m : M) (offer : Option P) (e : Slot P M)
      (pend : P → PState) (hl : σ.hold c = some (.give i m offer))
      (ht : (σ.chan c).giveTurn σ.pend offer i = .commit e pend) :
      Step cap σ { σ.sendReturns c { σ.chan c with
          recvq := (σ.chan c).recvq.set i { e with got := some m } } m offer .sent with
        pend := pend, commits := (e.p, e.arm) :: σ.commits }
  | giveExhausted (σ : Sys C P M R) (c : C) (i : Nat) (m : M) (offer : Option P)
      (hl : σ.hold c = some (.give i m offer))
      (ht : (σ.chan c).giveTurn σ.pend offer i = .exhausted) :
      Step cap σ (σ.offerOrFull c m offer)
  /-- A receive of a sealed handle channel copies its outcome. -/
  | recvSealed (σ : Sys C P M R) (c : C) (r : R) (v : M) (hl : σ.hold c = none)
      (hs : (σ.chan c).sealed = true) (hv : (σ.chan c).queue.getLast? = some v) :
      Step cap σ { σ with received := σ.received ++ [(v, .poll r)] }
  /-- `pop_for` by a receiver without a slot of its own. -/
  | recvFront (σ : Sys C P M R) (c : C) (r : R) (me : Option P) (v : M) (q : List M)
      (hl : σ.hold c = none) (hs : (σ.chan c).sealed = false) (hq : (σ.chan c).queue = v :: q) :
      Step cap σ { σ.put c { σ.chan c with queue := q } (some (.take 0 true r me none)) with
        received := σ.received ++ [(v, .poll r)] }
  | recvEmpty (σ : Sys C P M R) (c : C) (r : R) (me : Option P) (hl : σ.hold c = none)
      (hs : (σ.chan c).sealed = false) (hq : (σ.chan c).queue = []) :
      Step cap σ (σ.put c (σ.chan c) (some (.take 0 false r me none)))
  /-- The demoted receiver polls again while its own slot is still queued. -/
  | repollFront (σ : Sys C P M R) (c : C) (r : R) (p : P) (v : M) (q : List M)
      (hl : σ.hold c = none) (hs : (σ.chan c).sealed = false) (hq : (σ.chan c).queue = v :: q)
      (hp : σ.op p = ⟨[(c, 0, false)], .active⟩) (hpq : σ.pend p = .queued) :
      Step cap σ { (σ.put c { σ.chan c with queue := q }
          (some (.take 0 true r none (some p)))).setPhase p .receiving with
        received := σ.received ++ [(v, .poll r)] }
  | repollEmpty (σ : Sys C P M R) (c : C) (r : R) (p : P) (hl : σ.hold c = none)
      (hs : (σ.chan c).sealed = false) (hq : (σ.chan c).queue = [])
      (hp : σ.op p = ⟨[(c, 0, false)], .active⟩) (hpq : σ.pend p = .queued) :
      Step cap σ ((σ.put c (σ.chan c) (some (.take 0 false r none (some p)))).setPhase p .receiving)
  | takeSkip (σ : Sys C P M R) (c : C) (i : Nat) (refill : Bool) (r : R) (me own : Option P)
      (hl : σ.hold c = some (.take i refill r me own))
      (ht : (σ.chan c).takeTurn σ.pend me i = .skip) :
      Step cap σ (σ.put c (σ.chan c) (some (.take (i + 1) refill r me own)))
  | takeDead (σ : Sys C P M R) (c : C) (i : Nat) (refill : Bool) (r : R) (me own : Option P)
      (hl : σ.hold c = some (.take i refill r me own))
      (ht : (σ.chan c).takeTurn σ.pend me i = .dead) :
      Step cap σ (σ.put c { σ.chan c with sendq := (σ.chan c).sendq.eraseIdx i }
        (some (.take i refill r me own)))
  /-- The offer taken refills the freed place of the buffer. -/
  | takeRefill (σ : Sys C P M R) (c : C) (i : Nat) (r : R) (me own : Option P) (o : Offer P M)
      (pend : P → PState) (hl : σ.hold c = some (.take i true r me own))
      (ht : (σ.chan c).takeTurn σ.pend me i = .commit o pend) :
      Step cap σ (recvReturns { σ with pend := pend, commits := (o.p, o.arm) :: σ.commits } c
        { σ.chan c with
          sendq := (σ.chan c).sendq.eraseIdx i, queue := (σ.chan c).queue ++ [o.v] } own true)
  /-- The offer taken is what the receive returns. -/
  | takeCommit (σ : Sys C P M R) (c : C) (i : Nat) (r : R) (me own : Option P) (o : Offer P M)
      (pend : P → PState) (hl : σ.hold c = some (.take i false r me own))
      (ht : (σ.chan c).takeTurn σ.pend me i = .commit o pend) :
      Step cap σ (recvReturns
        { σ with
          pend := pend
          commits := (o.p, o.arm) :: σ.commits
          received := σ.received ++ [(o.v, .poll r)] } c
        { σ.chan c with sendq := (σ.chan c).sendq.eraseIdx i } own true)
  | takeExhausted (σ : Sys C P M R) (c : C) (i : Nat) (refill : Bool) (r : R) (me own : Option P)
      (hl : σ.hold c = some (.take i refill r me own))
      (ht : (σ.chan c).takeTurn σ.pend me i = .exhausted) :
      Step cap σ (σ.recvReturns c (σ.chan c) own refill)
  | closeStart (σ : Sys C P M R) (c : C) (hl : σ.hold c = none) :
      Step cap σ (σ.put c { σ.chan c with closed := true, sendq := [] }
        (some (.closing (σ.chan c).sendq)))
  | closeTurn (σ : Sys C P M R) (c : C) (o : Offer P M) (rest : List (Offer P M))
      (hl : σ.hold c = some (.closing (o :: rest))) :
      Step cap σ { σ.put c (σ.chan c) (some (.closing rest)) with
        pend := (tryClose σ.pend o.p).getD σ.pend }
  | closeEnd (σ : Sys C P M R) (c : C) (hl : σ.hold c = some (.closing [])) :
      Step cap σ (σ.put c { σ.chan c with
        recvq := (σ.chan c).recvq.filter fun e => e.got.isSome } none)
  /-- `Pending::new` of a `recv` or a `wait:` that blocks. -/
  | block (σ : Sys C P M R) (p : P) (hp : (σ.op p).phase = .unused) :
      Step cap σ (σ.setPhase p .active)
  /-- A `wait:` publishes a send arm. -/
  | offerArm (σ : Sys C P M R) (p : P) (c : C) (arm : Nat) (m : M) (hl : σ.hold c = none)
      (hm : m ∉ σ.issued) (hp : (σ.op p).phase = .active)
      (ha : ∀ a ∈ (σ.op p).arms, a.2.1 ≠ arm) (hc : (σ.chan c).closed = false)
      (hr : (σ.chan c).sendReadyFor σ.pend (cap c) (some p) = false) :
      Step cap σ ((σ.issue m).publishOffer c p arm m)
  /-- A blocked party records a receive arm. -/
  | recvArm (σ : Sys C P M R) (p : P) (c : C) (arm : Nat) (hp : (σ.op p).phase = .active)
      (ha : ∀ a ∈ (σ.op p).arms, a.2.1 ≠ arm) :
      Step cap σ { σ with
        op := update σ.op p ⟨(σ.op p).arms ++ [(c, arm, false)], .active⟩ }
  /-- The slot of a recorded receive arm is published. -/
  | slotArm (σ : Sys C P M R) (p : P) (c : C) (arm : Nat) (hl : σ.hold c = none)
      (hp : (σ.op p).phase = .active) (ha : (c, arm, false) ∈ (σ.op p).arms)
      (hcap : cap c = some 0) (hc : (σ.chan c).closed = false)
      (hr : (σ.chan c).recvReadyFor σ.pend (some p) = false) :
      Step cap σ (σ.put c ((σ.chan c).slot p arm) none)
  /-- `settle_mut`, or `Drop` when `drop`, up to its `try_cancel`. -/
  | settle (σ : Sys C P M R) (p : P) (drop : Bool) (hp : (σ.op p).phase = .active) :
      Step cap σ { σ.setPhase p (settleTurn (σ.op p).arms drop (σ.pend p)) with
        pend := (tryCancel σ.pend p).getD σ.pend
        report := fun m =>
          match σ.origin m with
          | some (q, arm) => if q = p then some (.of (σ.pend p) arm) else σ.report m
          | none => σ.report m }
  | settleTake (σ : Sys C P M R) (p : P) (c : C) (arm : Nat) (drop : Bool) (v : M)
      (s : ChanState P M) (hp : (σ.op p).phase = .taking c arm drop) (hl : σ.hold c = none)
      (ht : (σ.chan c).take p = some (v, s)) :
      Step cap σ { (σ.put c s none).setPhase p
          (.withdrawing ((σ.op p).arms.map fun a => a.1) (.got arm v)) with
        received := if drop then σ.received else σ.received ++ [(v, .party p)]
        discarded := if drop then σ.discarded ++ [v] else σ.discarded }
  | settleMiss (σ : Sys C P M R) (p : P) (c : C) (arm : Nat) (drop : Bool)
      (hp : (σ.op p).phase = .taking c arm drop) (hl : σ.hold c = none)
      (ht : (σ.chan c).take p = none) :
      Step cap σ (σ.setPhase p (.withdrawing ((σ.op p).arms.map fun a => a.1) .cancelled))
  | settleWithdraw (σ : Sys C P M R) (p : P) (c : C) (rest : List C) (r : Settled M)
      (hp : (σ.op p).phase = .withdrawing (c :: rest) r) (hl : σ.hold c = none) :
      Step cap σ ((σ.put c ((σ.chan c).withdraw p) none).setPhase p (.withdrawing rest r))
  | settleEnd (σ : Sys C P M R) (p : P) (r : Settled M)
      (hp : (σ.op p).phase = .withdrawing [] r) :
      Step cap σ (σ.setPhase p (.settled r))

/-- The states that some interleaving reaches. -/
def Reachable {C P M R : Type} [DecidableEq C] [DecidableEq P] [DecidableEq M]
    (cap : C → Option Nat) (σ : Sys C P M R) : Prop :=
  Relation.ReflTransGen (Step cap) Sys.init σ

end ChezziLang.Vm.Channel
