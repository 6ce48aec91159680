/-
  `std.concurrency.broadcast`: a hub that gives every value to every receiver, dropping the oldest
  from a full mailbox, and receivers that count what they missed.

  `send` and `close` run under the hub's guard but touch the mailboxes one operation at a time,
  so receives fall between them.  A receive runs under its receiver's token and takes its steps one
  at a time too.  A task that waits for the guard or a token has no effect, so that only the
  operation that holds it is kept; any number of tasks may take it next.

  A receive completes when it gives its token back.  `sent`, `start` and `outcomes` are observed
  and never read: all values sent, the send number at which a receiver subscribed, and what its
  receives gave.

  Proved:
  * `RxInv.step`: the mailbox holds the latest sends, and the receiver stands where its outcomes
    and the step it is in say.
  * `Inv.step`: so it does while the hub drops from mailboxes.
  * `outcomes_account`: the outcomes of every receiver account for consecutive sends, in order.
-/
import ChezziLang.Lib.Runs
import Mathlib.Logic.Function.Basic

namespace ChezziLang.Stdlib.Broadcast

open Lib.Runs Function List

variable {V : Type}

/-! ## Receivers -/

section

variable (V : Type)

/-- `_Stamped`. -/
structure Stamped where
  seq : Nat
  v : V

/-- What a receive gives: a value, a `Lagged` report, the end of a closed broadcast to a receive
    that parks, or nothing to one that does not. -/
inductive Outcome where
  | value (v : V)
  | lagged (missed : Int)
  | closed
  | nothing

/-- Where a receive is that holds the token. -/
inductive Phase where
  | looking (park : Bool)
  | clearing (v : V)
  | waiting (park : Bool)
  | accepting (s : Stamped V)
  | lagging (missed : Int) (v : V)
  | leaving (o : Outcome V)

structure Receive where
  token : Int
  phase : Phase V

/-- `Receiver`, with the receives that have taken a token from its lock. -/
structure Rx where
  mailbox : List (Stamped V)
  closed : Bool
  next : Nat
  held : Option V
  lock : List Int
  receives : List (Receive V)
  start : Nat
  outcomes : List (Outcome V)

end

/-- One step of a receive: `_step` and `_accept`. -/
inductive RxStep : Rx V → Rx V → Prop
  | take {R token lock} (park : Bool) (hlock : R.lock = token :: lock) :
      RxStep R
        { R with lock := lock, receives := R.receives ++ [⟨token, .looking park⟩] }
  | busy {R} (hlock : R.lock = []) : RxStep R { R with outcomes := R.outcomes ++ [.nothing] }
  | getHeld {R l1 l2 token park v} (hreceives : R.receives = l1 ++ ⟨token, .looking park⟩ :: l2)
      (hheld : R.held = some v) : RxStep R { R with receives := l1 ++ ⟨token, .clearing v⟩ :: l2 }
  | getNone {R l1 l2 token park} (hreceives : R.receives = l1 ++ ⟨token, .looking park⟩ :: l2)
      (hheld : R.held = none) : RxStep R { R with receives := l1 ++ ⟨token, .waiting park⟩ :: l2 }
  | clear {R l1 l2 token v} (hreceives : R.receives = l1 ++ ⟨token, .clearing v⟩ :: l2) :
      RxStep R
        { R with held := none, receives := l1 ++ ⟨token, .leaving (.value v)⟩ :: l2 }
  | receive {R l1 l2 token park s rest}
      (hreceives : R.receives = l1 ++ ⟨token, .waiting park⟩ :: l2)
      (hmailbox : R.mailbox = s :: rest) :
      RxStep R { R with mailbox := rest, receives := l1 ++ ⟨token, .accepting s⟩ :: l2 }
  | empty {R l1 l2 token} (hreceives : R.receives = l1 ++ ⟨token, .waiting false⟩ :: l2)
      (hmailbox : R.mailbox = []) :
      RxStep R { R with receives := l1 ++ ⟨token, .leaving .nothing⟩ :: l2 }
  | drained {R l1 l2 token} (hreceives : R.receives = l1 ++ ⟨token, .waiting true⟩ :: l2)
      (hmailbox : R.mailbox = []) (hclosed : R.closed = true) :
      RxStep R { R with receives := l1 ++ ⟨token, .leaving .closed⟩ :: l2 }
  | exchange {R l1 l2 token s} (hreceives : R.receives = l1 ++ ⟨token, .accepting s⟩ :: l2) :
      RxStep R
        { R with
          next := s.seq + 1
          receives := l1 ++ ⟨token, if (s.seq : Int) - R.next > 0
            then .lagging (s.seq - R.next) s.v else .leaving (.value s.v)⟩ :: l2 }
  | hold {R l1 l2 token missed v}
      (hreceives : R.receives = l1 ++ ⟨token, .lagging missed v⟩ :: l2) :
      RxStep R
        { R with held := some v, receives := l1 ++ ⟨token, .leaving (.lagged missed)⟩ :: l2 }
  | release {R l1 l2 token o} (hreceives : R.receives = l1 ++ ⟨token, .leaving o⟩ :: l2) :
      RxStep R
        { R with
          lock := R.lock ++ [token]
          receives := l1 ++ l2
          outcomes := R.outcomes ++ [o] }

/-! ## The hub -/

/-- Where `_publish` is in its loop over one mailbox. -/
inductive Sending where
  | trySend
  | full
  | again
  deriving DecidableEq

/-- The update that holds the guard, and the mailbox it has come to. -/
inductive Update (V : Type) where
  | publishing (s : Stamped V) (i : Nat) (stage : Sending)
  | closing (i : Nat)

/-- Receivers are numbered in the order in which they joined, and `subs` is how many there are. -/
structure World (V : Type) where
  seq : Nat
  closed : Bool
  subs : Nat
  rx : Nat → Rx V
  guard : Option (Update V)
  sent : List V

/-- A receiver that has just joined. -/
def joined (w : World V) : Rx V where
  mailbox := []
  closed := w.closed
  next := w.seq
  held := none
  lock := [0]
  receives := []
  start := w.sent.length
  outcomes := []

/-- Whether `try_send` takes a value. -/
def Rx.room (cap : Nat) (R : Rx V) : Prop := R.closed = false ∧ R.mailbox.length < cap

/-- One step of an update of the hub or of a receive.  A `send` on a closed broadcast faults before
    it changes anything. -/
inductive Step (cap : Nat) : World V → World V → Prop
  | subscribe {w} (hguard : w.guard = none) :
      Step cap w { w with subs := w.subs + 1, rx := update w.rx w.subs (joined w) }
  | send {w} (v : V) (hguard : w.guard = none) (hopen : w.closed = false) :
      Step cap w
        { w with
          seq := w.seq + 1
          guard := some (.publishing ⟨w.seq, v⟩ 0 .trySend)
          sent := w.sent ++ [v] }
  | trySend {w s i stage} (hguard : w.guard = some (.publishing s i stage)) (hi : i < w.subs)
      (hstage : stage ≠ .full) (hroom : (w.rx i).room cap) :
      Step cap w
        { w with
          rx := update w.rx i { w.rx i with mailbox := (w.rx i).mailbox ++ [s] }
          guard := some (.publishing s (i + 1) .trySend) }
  | full {w s i} (hguard : w.guard = some (.publishing s i .trySend)) (hi : i < w.subs)
      (hroom : ¬ (w.rx i).room cap) : Step cap w { w with guard := some (.publishing s i .full) }
  | drop {w s m i rest} (hguard : w.guard = some (.publishing s i .full)) (hi : i < w.subs)
      (hmailbox : (w.rx i).mailbox = m :: rest) :
      Step cap w
        { w with
          rx := update w.rx i { w.rx i with mailbox := rest }
          guard := some (.publishing s i .trySend) }
  | drained {w s i} (hguard : w.guard = some (.publishing s i .full)) (hi : i < w.subs)
      (hmailbox : (w.rx i).mailbox = []) :
      Step cap w { w with guard := some (.publishing s i .again) }
  | refused {w s i} (hguard : w.guard = some (.publishing s i .again)) (hi : i < w.subs)
      (hroom : ¬ (w.rx i).room cap) :
      Step cap w { w with guard := some (.publishing s (i + 1) .trySend) }
  | published {w s i stage} (hguard : w.guard = some (.publishing s i stage)) (hi : ¬ i < w.subs) :
      Step cap w { w with guard := none }
  | close {w} (hguard : w.guard = none) :
      Step cap w { w with closed := true, guard := some (.closing 0) }
  | closeOne {w i} (hguard : w.guard = some (.closing i)) (hi : i < w.subs) :
      Step cap w
        { w with
          rx := update w.rx i { w.rx i with closed := true }
          guard := some (.closing (i + 1)) }
  | closed {w i} (hguard : w.guard = some (.closing i)) (hi : ¬ i < w.subs) :
      Step cap w { w with guard := none }
  | receiver {w r R} (hr : r < w.subs) (hstep : RxStep (w.rx r) R) :
      Step cap w { w with rx := update w.rx r R }

/-- `Broadcast.new`; there is no receiver yet. -/
def init : World V where
  seq := 0
  closed := false
  subs := 0
  rx _ := ⟨[], false, 0, none, [], [], 0, []⟩
  guard := none
  sent := []

/-! ## What the outcomes account for -/

/-- The outcomes of a receiver that subscribed at send number `n` account for the sends from `n`
    up to `k`: each delivered, or counted in the report that stands in its place.  After a report
    (`lag`) the value at `k` comes next. -/
inductive Accounts (sent : List V) (n : Nat) : List (Outcome V) → Nat → Bool → Prop
  | start : Accounts sent n [] n false
  | value {outcomes k lag v} (h : Accounts sent n outcomes k lag) (hv : sent[k]? = some v) :
      Accounts sent n (outcomes ++ [.value v]) (k + 1) false
  | lagged {outcomes k m} (h : Accounts sent n outcomes k false) (hm : 0 < m)
      (hlt : k + m < sent.length) : Accounts sent n (outcomes ++ [.lagged m]) (k + m) true
  | closed {outcomes k} (h : Accounts sent n outcomes k false) (hk : k = sent.length) :
      Accounts sent n (outcomes ++ [.closed]) k false
  | nothing {outcomes k lag} (h : Accounts sent n outcomes k lag) :
      Accounts sent n (outcomes ++ [.nothing]) k lag

variable {sent : List V} {outcomes : List (Outcome V)}

/-- What was sent stays where it is. -/
theorem still_sent {n : Nat} {v x} (h : sent[n]? = some x) : (sent ++ [v])[n]? = some x := by
  rw [getElem?_append_left (List.getElem?_eq_some_iff.mp h).1]
  exact h

/-- As long as the broadcast was not seen closed, a further send changes no account. -/
theorem Accounts.send {n k : Nat} {lag} (h : Accounts sent n outcomes k lag)
    (hopen : Outcome.closed ∉ outcomes) (v) : Accounts (sent ++ [v]) n outcomes k lag := by
  induction h with
  | start => exact .start
  | value h hv ih =>
    exact .value (ih fun hmem => hopen (mem_append_left _ hmem)) (still_sent hv)
  | lagged h hm hlt ih =>
    refine .lagged (ih fun hmem => hopen (mem_append_left _ hmem)) hm ?_
    rw [length_append]
    omega
  | closed h hk => exact absurd (mem_append_right _ (mem_singleton.mpr rfl)) hopen
  | nothing h ih => exact .nothing (ih fun hmem => hopen (mem_append_left _ hmem))

theorem Accounts.le {n k lag} (h : Accounts sent n outcomes k lag) (hn : n ≤ sent.length) :
    k ≤ sent.length := by
  induction h with
  | start => exact hn
  | value h hv ih => exact (List.getElem?_eq_some_iff.mp hv).1
  | lagged h hm hlt ih => exact Nat.le_of_lt hlt
  | closed h hk ih => exact ih
  | nothing h ih => exact ih

/-! ## The invariant of a receiver -/

/-- Between two receives: the receiver expects the send after those accounted for, or has taken it
    and holds it back. -/
def Settled (sent : List V) (next : Nat) (held : Option V) (k : Nat) (lag : Bool) : Prop :=
  match held with
  | none => lag = false ∧ k = next
  | some v => lag = true ∧ k + 1 = next ∧ sent[k]? = some v

/-- Where the receiver stands in the middle of a receive. -/
def PhaseOk (sent : List V) (R : Rx V) (k : Nat) (lag : Bool) : Phase V → Prop
  | .looking _ => Settled sent R.next R.held k lag
  | .clearing v => R.held = some v ∧ Settled sent R.next R.held k lag
  | .waiting _ => R.held = none ∧ lag = false ∧ k = R.next
  | .accepting s =>
    R.held = none ∧ lag = false ∧ k = R.next ∧ k ≤ s.seq ∧ sent[s.seq]? = some s.v
  | .lagging missed v => R.held = none ∧ lag = false ∧
      ∃ m : Nat, missed = m ∧ 0 < m ∧ k + m + 1 = R.next ∧ sent[k + m]? = some v
  | .leaving o => ∃ k' lag', Accounts sent R.start (R.outcomes ++ [o]) k' lag' ∧
      Settled sent R.next R.held k' lag'

/-- The token is in the lock, or with the one receive that took it. -/
def TokenOk (sent : List V) (R : Rx V) (k : Nat) (lag : Bool) : Prop :=
  (R.lock.length = 1 ∧ R.receives = [] ∧ Settled sent R.next R.held k lag) ∨
  (R.lock = [] ∧ ∃ r, R.receives = [r] ∧ PhaseOk sent R k lag r.phase)

/-- The number of the first send the receiver has not taken. -/
def Rx.expected (R : Rx V) : Nat :=
  match R.receives with
  | [⟨_, .accepting s⟩] => s.seq + 1
  | _ => R.next

/-- What a receiver can see of the hub: the sends, whether the broadcast is closed, the number of
    the next send into its mailbox, and where the publisher is that works on its mailbox. -/
structure View (V : Type) where
  sent : List V
  closed : Bool
  top : Nat
  stage : Option Sending

structure RxInv (u : View V) (R : Rx V) : Prop where
  numbers : R.mailbox.map Stamped.seq = range' (u.top - R.mailbox.length) R.mailbox.length
  expected : R.expected + R.mailbox.length ≤ u.top
  stamped : ∀ s ∈ R.mailbox, u.sent[s.seq]? = some s.v
  -- a dropped value leaves a later one behind, except while the publisher is at this mailbox
  latest : R.mailbox = [] → u.stage = none → R.expected = u.top
  again : u.stage = some .again → R.mailbox = []
  shut : R.closed = true → u.closed = true
  seen : Outcome.closed ∈ R.outcomes ∨ (∃ r ∈ R.receives, r.phase = .leaving .closed) →
    u.closed = true
  subscribed : R.start ≤ u.sent.length
  account : ∃ k lag, Accounts u.sent R.start R.outcomes k lag ∧ TokenOk u.sent R k lag

section

variable {u : View V} {R R' : Rx V} {k : Nat} {lag : Bool}

/-- Only one receive is in progress, and the token is with it. -/
theorem TokenOk.only (h : TokenOk sent R k lag) {l1 l2 r} (hreceives : R.receives = l1 ++ r :: l2) :
    l1 = [] ∧ l2 = [] ∧ R.lock = [] ∧ R.receives = [r] ∧ PhaseOk sent R k lag r.phase := by
  rcases h with ⟨_, hnone, _⟩ | ⟨hlock, r', hone, hphase⟩
  · rw [hnone] at hreceives
    cases l1 <;> cases hreceives
  rw [hone] at hreceives
  rcases l1 with _ | ⟨a, l1⟩
  · cases hreceives
    exact ⟨rfl, rfl, hlock, hone, hphase⟩
  · cases l1 <;> cases hreceives

/-- Reports of nothing can be put anywhere. -/
theorem Accounts.insert_nothing {n o} (h : Accounts sent n (outcomes ++ [o]) k lag) :
    Accounts sent n (outcomes ++ [.nothing] ++ [o]) k lag := by
  generalize hx : outcomes ++ [o] = x at h
  cases h with
  | start => cases outcomes <;> cases hx
  | value h hv =>
    obtain ⟨rfl, rfl⟩ := append_singleton_inj.mp hx
    exact .value (.nothing h) hv
  | lagged h hm hlt =>
    obtain ⟨rfl, rfl⟩ := append_singleton_inj.mp hx
    exact .lagged (.nothing h) hm hlt
  | closed h hk =>
    obtain ⟨rfl, rfl⟩ := append_singleton_inj.mp hx
    exact .closed (.nothing h) hk
  | nothing h =>
    obtain ⟨rfl, rfl⟩ := append_singleton_inj.mp hx
    exact .nothing (.nothing h)

section

variable (h : RxInv u R)
include h

/-- A step that leaves the mailbox alone. -/
theorem RxInv.keep_mailbox {next held lock receives}
    (hexpected : Rx.expected { R with next, held, lock, receives, outcomes } = R.expected)
    (hseen : Outcome.closed ∈ outcomes ∨ (∃ r ∈ receives, r.phase = .leaving .closed) →
      u.closed = true)
    (haccount : ∃ k lag, Accounts u.sent R.start outcomes k lag ∧
      TokenOk u.sent { R with next, held, lock, receives, outcomes } k lag) :
    RxInv u { R with next, held, lock, receives, outcomes } :=
  { h with
    expected := hexpected ▸ h.expected
    latest := hexpected ▸ h.latest
    seen := hseen
    account := haccount }

/-- The end is in sight only after a `close`. -/
theorem RxInv.seen_of_phase {token phase} (hphase : phase ≠ .leaving .closed) :
    Outcome.closed ∈ R.outcomes ∨
      (∃ r ∈ [(⟨token, phase⟩ : Receive V)], r.phase = .leaving .closed) → u.closed = true := by
  rintro (hmem | ⟨r, hr, hleave⟩)
  · exact h.seen (.inl hmem)
  · rw [mem_singleton.mp hr] at hleave
    exact absurd hleave hphase

/-- The receive goes on to another phase. -/
theorem RxInv.advance {r} (hone : R.receives = [r]) (hlock : R.lock = [])
    (hacc : Accounts u.sent R.start R.outcomes k lag) {next held token phase}
    (hphase : phase ≠ .leaving .closed)
    (hok : PhaseOk u.sent { R with next, held, receives := [⟨token, phase⟩] } k lag phase)
    (hexpected : Rx.expected { R with next, held, receives := [⟨token, phase⟩] } =
      Rx.expected { R with receives := [r] }) :
    RxInv u { R with next, held, receives := [⟨token, phase⟩] } :=
  h.keep_mailbox (hexpected.trans (by rw [← hone])) (h.seen_of_phase hphase)
    ⟨k, lag, hacc, .inr ⟨hlock, _, rfl, hok⟩⟩

/-- The numbers in a mailbox without its first value. -/
theorem RxInv.behind {s rest} (hmailbox : R.mailbox = s :: rest) :
    s.seq + 1 + rest.length = u.top ∧ R.expected ≤ s.seq ∧
      rest.map Stamped.seq = range' (u.top - rest.length) rest.length ∧
      ∀ m ∈ rest, u.sent[m.seq]? = some m.v := by
  have hnumbers := h.numbers
  have hexpected := h.expected
  rw [hmailbox, length_cons] at hexpected
  rw [hmailbox, map_cons, length_cons, range'_succ] at hnumbers
  obtain ⟨hseq, hrest⟩ := cons.inj hnumbers
  refine ⟨by omega, by omega, ?_, fun m hm => h.stamped m ?_⟩
  · rw [hrest]
    congr 1
    omega
  · rw [hmailbox]
    exact mem_cons_of_mem s hm

/-- The receiver takes the first value of its mailbox. -/
theorem RxInv.receive {token s rest} (hmailbox : R.mailbox = s :: rest)
    (haccount : ∃ k lag, Accounts u.sent R.start R.outcomes k lag ∧
      TokenOk u.sent { R with mailbox := rest, receives := [⟨token, .accepting s⟩] } k lag) :
    RxInv u { R with mailbox := rest, receives := [⟨token, .accepting s⟩] } := by
  obtain ⟨htop, _, hnumbers, hstamped⟩ := h.behind hmailbox
  exact
    { h with
      numbers := hnumbers
      expected := Nat.le_of_eq htop
      stamped := hstamped
      latest := by
        rintro rfl _
        exact htop
      again := fun hstage => by
        have hnil := h.again hstage
        rw [hmailbox] at hnil
        cases hnil
      seen := h.seen_of_phase nofun
      account := haccount }

/-- **One step of a receive keeps the invariant.** -/
theorem RxInv.step (hclosed : u.closed = true → u.stage = none ∧ u.top = u.sent.length) (hstep :
    RxStep R R') :
    RxInv u R' := by
  obtain ⟨k, lag, hacc, htoken⟩ := h.account
  cases hstep with
  | @take token lock park hlock =>
    rcases htoken with ⟨hlen, hnone, hsettled⟩ | ⟨hnil, _⟩
    · rw [hlock] at hlen
      have hlock' : lock = [] := eq_nil_of_length_eq_zero (Nat.succ.inj hlen)
      rw [hnone]
      refine h.keep_mailbox ?_ (h.seen_of_phase nofun)
        ⟨k, lag, hacc, .inr ⟨hlock', _, rfl, hsettled⟩⟩
      simp [Rx.expected, hnone]
    · rw [hlock] at hnil
      cases hnil
  | busy hlock =>
    refine h.keep_mailbox rfl ?_ ⟨k, lag, .nothing hacc, ?_⟩
    · rintro (hmem | hleave)
      · rcases mem_append.mp hmem with hmem | hmem
        · exact h.seen (.inl hmem)
        · cases mem_singleton.mp hmem
      · exact h.seen (.inr hleave)
    · rcases htoken with ⟨hlen, _⟩ | ⟨hnil, r, hone, hphase⟩
      · rw [hlock] at hlen
        cases hlen
      refine .inr ⟨hnil, r, hone, ?_⟩
      cases hp : r.phase with
      | leaving o =>
        rw [hp] at hphase
        obtain ⟨k', lag', hacc', hsettled⟩ := hphase
        exact ⟨k', lag', hacc'.insert_nothing, hsettled⟩
      | _ =>
        rw [hp] at hphase
        exact hphase
  | @getHeld l1 l2 token park v hreceives hheld =>
    obtain ⟨rfl, rfl, hlock, hone, hphase⟩ := htoken.only hreceives
    exact h.advance hone hlock hacc nofun ⟨hheld, hphase⟩ rfl
  | @getNone l1 l2 token park hreceives hheld =>
    obtain ⟨rfl, rfl, hlock, hone, hphase⟩ := htoken.only hreceives
    have hsettled : lag = false ∧ k = R.next := by
      have hphase : Settled u.sent R.next R.held k lag := hphase
      rw [hheld] at hphase
      exact hphase
    exact h.advance hone hlock hacc nofun ⟨hheld, hsettled⟩ rfl
  | @clear l1 l2 token v hreceives =>
    obtain ⟨rfl, rfl, hlock, hone, hheld, hsettled⟩ := htoken.only hreceives
    rw [hheld] at hsettled
    obtain ⟨hlag, hk, hv⟩ := hsettled
    exact h.advance hone hlock hacc nofun ⟨k + 1, false, .value hacc hv, rfl, hk⟩ rfl
  | @receive l1 l2 token park s rest hreceives hmailbox =>
    obtain ⟨rfl, rfl, hlock, hone, hheld, hlag, hk⟩ := htoken.only hreceives
    have hfirst := (h.behind hmailbox).2.1
    have hnext : R.expected = R.next := by simp [Rx.expected, hone]
    refine h.receive hmailbox ⟨k, lag, hacc, .inr ⟨hlock, _, rfl, hheld, hlag, hk, ?_, ?_⟩⟩
    · omega
    · exact h.stamped s (by rw [hmailbox]; exact mem_cons_self)
  | @empty l1 l2 token hreceives hmailbox =>
    obtain ⟨rfl, rfl, hlock, hone, hheld, hlag, hk⟩ := htoken.only hreceives
    have hsettled : Settled u.sent R.next R.held k lag := by
      rw [hheld]
      exact ⟨hlag, hk⟩
    exact h.advance hone hlock hacc nofun ⟨k, lag, .nothing hacc, hsettled⟩ rfl
  | @drained l1 l2 token hreceives hmailbox hshut =>
    obtain ⟨rfl, rfl, hlock, hone, hheld, hlag, hk⟩ := htoken.only hreceives
    obtain ⟨hstage, htop⟩ := hclosed (h.shut hshut)
    have hnext : R.expected = R.next := by simp [Rx.expected, hone]
    have hlast := h.latest hmailbox hstage
    have hall : k = u.sent.length := by omega
    have hsettled : Settled u.sent R.next R.held k false := by
      rw [hheld]
      exact ⟨rfl, hk⟩
    refine h.keep_mailbox ?_ (fun _ => h.shut hshut)
      ⟨k, lag, hacc, .inr ⟨hlock, _, rfl, k, false, .closed (hlag ▸ hacc) hall, hsettled⟩⟩
    simp [Rx.expected, hone]
  | @exchange l1 l2 token s hreceives =>
    obtain ⟨rfl, rfl, hlock, hone, hheld, hlag, hk, hle, hv⟩ := htoken.only hreceives
    subst hlag
    by_cases hmissed : (s.seq : Int) - R.next > 0
    · simp only [if_pos hmissed]
      have hlast : R.next + (s.seq - R.next) = s.seq := by omega
      refine h.advance hone hlock hacc nofun ⟨hheld, rfl, s.seq - R.next, ?_, ?_, ?_, ?_⟩ rfl
      · omega
      · omega
      · dsimp only
        omega
      · rw [hk, hlast]
        exact hv
    · simp only [if_neg hmissed]
      have heq : s.seq = k := by omega
      rw [heq] at hv
      refine h.advance hone hlock hacc nofun ⟨k + 1, false, .value hacc hv, ?_⟩ rfl
      rw [hheld, heq]
      exact ⟨rfl, rfl⟩
  | @hold l1 l2 token missed v hreceives =>
    obtain ⟨rfl, rfl, hlock, hone, hheld, hlag, m, rfl, hm, hnext, hv⟩ := htoken.only hreceives
    subst hlag
    have hlt := (List.getElem?_eq_some_iff.mp hv).1
    exact h.advance hone hlock hacc nofun ⟨k + m, true, .lagged hacc hm hlt, rfl, hnext, hv⟩ rfl
  | @release l1 l2 token o hreceives =>
    obtain ⟨rfl, rfl, hlock, hone, k', lag', hacc', hsettled⟩ := htoken.only hreceives
    refine h.keep_mailbox ?_ ?_ ⟨k', lag', hacc', .inl ⟨?_, rfl, hsettled⟩⟩
    · simp [Rx.expected, hone]
    · rintro (hmem | ⟨r, hr, _⟩)
      · rcases mem_append.mp hmem with hmem | hmem
        · exact h.seen (.inl hmem)
        refine h.seen (.inr ⟨⟨token, .leaving o⟩, ?_, ?_⟩)
        · rw [hone]
          exact mem_singleton.mpr rfl
        · rw [mem_singleton.mp hmem]
      · cases hr
    · rw [hlock]
      rfl

end

end

/-! ## The invariant of the hub -/

section

variable (w : World V)

/-- The number of the next send into the mailbox of `r`. -/
def World.top (r : Nat) : Nat :=
  match w.guard with
  | some (.publishing s i _) => if i ≤ r then s.seq else w.seq
  | _ => w.seq

/-- Where the publisher is that works on the mailbox of `r`. -/
def World.stage (r : Nat) : Option Sending :=
  match w.guard with
  | some (.publishing _ i stage) => if i = r then some stage else none
  | _ => none

def World.view (r : Nat) : View V := ⟨w.sent, w.closed, w.top r, w.stage r⟩

def GuardOk : Prop :=
  match w.guard with
  | none => True
  | some (.publishing s _ _) =>
    w.closed = false ∧ s.seq + 1 = w.seq ∧ w.sent[s.seq]? = some s.v
  | some (.closing _) => w.closed = true

structure Inv : Prop where
  count : w.sent.length = w.seq
  guard : GuardOk w
  rx : ∀ r < w.subs, RxInv (w.view r) (w.rx r)

end

section

variable {u : View V} {R : Rx V}

theorem RxInv.joined {w : World V} (hcount : w.sent.length = w.seq) :
    RxInv ⟨w.sent, w.closed, w.seq, none⟩ (joined w) where
  numbers := rfl
  expected := Nat.le_refl _
  stamped := nofun
  latest _ _ := rfl
  again := nofun
  shut h := h
  seen := by
    rintro (hmem | ⟨r, hr, _⟩)
    · cases hmem
    · cases hr
  subscribed := Nat.le_refl _
  account := ⟨_, false, .start, .inl ⟨rfl, rfl, rfl, hcount⟩⟩

/-- The publisher comes to the mailbox, or goes on with it. -/
theorem RxInv.restage (h : RxInv u R) (stage)
    (hlatest : R.mailbox = [] → stage = none → R.expected = u.top)
    (hagain : stage = some .again → R.mailbox = []) : RxInv { u with stage } R :=
  { h with latest := hlatest, again := hagain }

theorem Settled.send {next k : Nat} {held} {lag : Bool} (h : Settled sent next held k lag) (v) :
    Settled (sent ++ [v]) next held k lag := by
  cases held with
  | none => exact h
  | some x => exact ⟨h.1, h.2.1, still_sent h.2.2⟩

/-- A value is sent: the mailboxes do not have it yet. -/
theorem RxInv.send (h : RxInv u R) (hopen : u.closed = false) (v) :
    RxInv { u with sent := u.sent ++ [v] } R := by
  have hnot : ¬ (Outcome.closed ∈ R.outcomes ∨ ∃ r ∈ R.receives, r.phase = .leaving .closed) := by
    intro hseen
    rw [h.seen hseen] at hopen
    cases hopen
  obtain ⟨k, lag, hacc, htoken⟩ := h.account
  have hlonger : u.sent.length ≤ (u.sent ++ [v]).length := by simp
  refine
    { h with
      stamped := fun s hs => still_sent (h.stamped s hs)
      subscribed := Nat.le_trans h.subscribed hlonger
      account := ⟨k, lag, hacc.send (fun hmem => hnot (.inl hmem)) v, ?_⟩ }
  rcases htoken with ⟨hlen, hnone, hsettled⟩ | ⟨hlock, r, hone, hphase⟩
  · exact .inl ⟨hlen, hnone, hsettled.send v⟩
  refine .inr ⟨hlock, r, hone, ?_⟩
  generalize hp : r.phase = phase at hphase
  cases phase with
  | looking park => exact Settled.send hphase v
  | clearing x => exact ⟨hphase.1, hphase.2.send v⟩
  | waiting park => exact hphase
  | accepting s =>
    obtain ⟨hheld, hlag, hk, hle, hv⟩ := hphase
    exact ⟨hheld, hlag, hk, hle, still_sent hv⟩
  | lagging missed x =>
    obtain ⟨hheld, hlag, m, hm, hpos, hnext, hv⟩ := hphase
    exact ⟨hheld, hlag, m, hm, hpos, hnext, still_sent hv⟩
  | leaving o =>
    obtain ⟨k', lag', hacc', hsettled⟩ := hphase
    refine ⟨k', lag', hacc'.send (fun hmem => hnot ?_) v, hsettled.send v⟩
    rcases mem_append.mp hmem with hmem | hmem
    · exact .inl hmem
    · rw [← mem_singleton.mp hmem] at hp
      exact .inr ⟨r, by rw [hone]; exact mem_singleton.mpr rfl, hp⟩

/-- The value comes into the mailbox. -/
theorem RxInv.deliver (h : RxInv u R) {s} (hseq : s.seq = u.top) (hv : u.sent[s.seq]? = some s.v) :
    RxInv ⟨u.sent, u.closed, u.top + 1, none⟩ { R with mailbox := R.mailbox ++ [s] } := by
  have hexpected := h.expected
  have hfirst : u.top + 1 - (R.mailbox.length + 1) = u.top - R.mailbox.length := by omega
  have hlast : u.top - R.mailbox.length + R.mailbox.length = u.top := by omega
  refine { h with numbers := ?_, expected := ?_, stamped := ?_, latest := ?_, again := nofun }
  · rw [map_append, h.numbers, length_append, length_singleton, hfirst,
      range'_1_concat, hlast, ← hseq]
    rfl
  · change R.expected + (R.mailbox ++ [s]).length ≤ u.top + 1
    rw [length_append, length_singleton]
    omega
  · exact forall_mem_append.mpr ⟨h.stamped, forall_mem_singleton.mpr hv⟩
  · intro hnil
    exact absurd hnil (by simp)

/-- The hub drops the oldest value of a mailbox. -/
theorem RxInv.drop (h : RxInv u R) {m rest} (hmailbox : R.mailbox = m :: rest) :
    RxInv { u with stage := some .trySend } { R with mailbox := rest } := by
  obtain ⟨htop, hexpected, hnumbers, hstamped⟩ := h.behind hmailbox
  refine
    { h with
      numbers := hnumbers
      expected := ?_
      stamped := hstamped
      latest := nofun
      again := nofun }
  change R.expected + rest.length ≤ u.top
  omega

theorem RxInv.close (h : RxInv u R) (closed) : RxInv { u with closed := true } { R with closed } :=
  { h with shut := fun _ => rfl, seen := fun _ => rfl }

variable {cap : Nat} {w w' : World V}

/-- One receiver changes, and the view of the others does not lose what they need. -/
theorem rx_update {i} {view : Nat → View V} (hi : RxInv (view i) R)
    (hothers : ∀ r < w.subs, r ≠ i → RxInv (view r) (w.rx r)) :
    ∀ r < w.subs, RxInv (view r) (update w.rx i R r) := by
  intro r hr
  by_cases heq : r = i
  · subst heq
    rw [update_self]
    exact hi
  · rw [update_of_ne heq]
    exact hothers r hr heq

/-- Once closed, everything sent has been offered to every mailbox. -/
theorem Inv.closed_view (h : Inv w) (r) (hclosed : w.closed = true) :
    (w.view r).stage = none ∧ (w.view r).top = (w.view r).sent.length := by
  have hguard := h.guard
  unfold GuardOk at hguard
  unfold World.view World.stage World.top
  split at hguard
  · next hnone =>
    rw [hnone]
    exact ⟨rfl, h.count.symm⟩
  · rw [hguard.1] at hclosed
    cases hclosed
  · next hclosing =>
    rw [hclosing]
    exact ⟨rfl, h.count.symm⟩

/-- The publisher does something to a mailbox, and stays there. -/
theorem Inv.stays (h : Inv w) {s i stage} (hpub : w.guard = some (.publishing s i stage)) {stage'}
    (hR : RxInv { w.view i with stage := some stage' } R) :
    Inv { w with
      rx := update w.rx i R
      guard := some (.publishing s i stage') } := by
  have hguard := h.guard
  unfold GuardOk at hguard
  simp only [hpub] at hguard
  refine ⟨h.count, hguard, rx_update (w := w) ?_ ?_⟩
  · simpa [World.view, World.top, World.stage, hpub] using hR
  · intro r hr hne
    simpa [World.view, World.top, World.stage, hpub, Ne.symm hne] using h.rx r hr

/-- **One step keeps the invariant.** -/
theorem Inv.step (hcap : 1 ≤ cap) (h : Inv w) (hstep : Step cap w w') : Inv w' := by
  have hguard := h.guard
  have hrx := h.rx
  unfold GuardOk at hguard
  unfold World.view World.top World.stage at hrx
  cases hstep with
  | subscribe hnone =>
    refine ⟨h.count, ?_, ?_⟩
    · rw [hnone]
      trivial
    intro r hr
    simp only [hnone] at hrx ⊢
    by_cases heq : r = w.subs
    · subst heq
      rw [update_self]
      exact RxInv.joined h.count
    · rw [update_of_ne heq]
      exact hrx r (by dsimp only at hr; omega)
  | send v hnone hopen =>
    refine ⟨?_, ?_, ?_⟩
    · rw [length_append, h.count]
      rfl
    · refine ⟨hopen, rfl, ?_⟩
      dsimp only
      rw [← h.count, getElem?_concat_length]
    intro r hr
    unfold World.view World.top World.stage
    simp only [hnone] at hrx
    dsimp only
    rw [if_pos (Nat.zero_le r)]
    refine ((hrx r hr).send hopen v).restage _ ?_ ?_
    · intro hnil _
      exact (hrx r hr).latest hnil rfl
    · split <;> nofun
  | @trySend s i stage hpub hi hstage hroom =>
    simp only [hpub] at hguard hrx
    obtain ⟨hopen, hseq, hv⟩ := hguard
    refine ⟨h.count, ⟨hopen, hseq, hv⟩, ?_⟩
    refine rx_update (w := w) ?_ ?_
    · have hrxi := hrx i hi
      rw [if_pos (Nat.le_refl i)] at hrxi
      have hdelivered := hrxi.deliver rfl hv
      rw [hseq] at hdelivered
      unfold World.view World.top World.stage
      dsimp only
      rw [if_neg (by omega), if_neg (by omega)]
      exact hdelivered
    · intro r hr hne
      have hrxr := hrx r hr
      unfold World.view World.top World.stage
      dsimp only
      rw [if_neg (Ne.symm hne)] at hrxr
      have htop : (if i + 1 ≤ r then s.seq else w.seq) = if i ≤ r then s.seq else w.seq := by
        by_cases hle : i ≤ r
        · rw [if_pos hle, if_pos (by omega)]
        · rw [if_neg hle, if_neg (by omega)]
      rw [htop]
      refine hrxr.restage _ (fun hnil _ => hrxr.latest hnil rfl) ?_
      split <;> nofun
  | @full s i hpub hi hroom =>
    have hnext := h.stays hpub ((h.rx i hi).restage (some .full) nofun nofun)
    rwa [update_eq_self] at hnext
  | @drop s m i rest hpub hi hmailbox => exact h.stays hpub ((h.rx i hi).drop hmailbox)
  | @drained s i hpub hi hmailbox =>
    have hnext := h.stays hpub ((h.rx i hi).restage (some .again) nofun fun _ => hmailbox)
    rwa [update_eq_self] at hnext
  | @refused s i hpub hi hroom =>
    -- an empty mailbox that is not closed takes the value
    simp only [hpub] at hguard hrx
    have hrxi := hrx i hi
    rw [if_pos rfl] at hrxi
    have hempty := hrxi.again rfl
    refine absurd ⟨?_, ?_⟩ hroom
    · by_contra hshut
      have hclosed : w.closed = true := hrxi.shut (by simpa using hshut)
      rw [hguard.1] at hclosed
      cases hclosed
    · rw [hempty]
      exact hcap
  | @published s i stage hpub hi =>
    simp only [hpub] at hguard hrx
    refine ⟨h.count, trivial, ?_⟩
    intro r hr
    have hrxr := hrx r hr
    have hr : r < w.subs := hr
    rw [if_neg (by omega), if_neg (by omega)] at hrxr
    exact hrxr
  | close hnone =>
    refine ⟨h.count, rfl, ?_⟩
    intro r hr
    simp only [hnone] at hrx
    exact (hrx r hr).close (w.rx r).closed
  | @closeOne i hclosing hi =>
    simp only [hclosing] at hguard hrx
    refine ⟨h.count, hguard, ?_⟩
    refine rx_update (w := w) ?_ ?_
    · have := (hrx i hi).close true
      simpa [World.view, World.top, World.stage, hguard] using this
    · intro r hr _
      exact hrx r hr
  | @closed i hclosing hi =>
    simp only [hclosing] at hrx
    exact ⟨h.count, trivial, hrx⟩
  | @receiver r R hr hrxstep =>
    refine ⟨h.count, h.guard, ?_⟩
    refine rx_update (w := w) ?_ ?_
    · exact (h.rx r hr).step (h.closed_view r) hrxstep
    · intro r' hr' _
      exact h.rx r' hr'

theorem inv_init : Inv (init : World V) := ⟨rfl, trivial, nofun⟩

/-- **Every receiver accounts for consecutive sends.**  From the send at which it subscribed on,
    its outcomes account for all sends up to some number; for all of them, once it is closed and
    drained. -/
theorem outcomes_account (cap : Nat) (hcap : 1 ≤ cap) (w : World V)
    (hw : Reaches (Step cap) init w) (r : Nat) (hr : r < w.subs) :
    ∃ k lag, Accounts w.sent (w.rx r).start (w.rx r).outcomes k lag ∧ k ≤ w.sent.length ∧
      ((w.rx r).closed = true → (w.rx r).mailbox = [] → (w.rx r).held = none →
        (w.rx r).receives = [] → k = w.sent.length) := by
  have hinv : Inv w := hw.keeps inv_init fun _ _ => Inv.step hcap
  have hrx := hinv.rx r hr
  obtain ⟨k, lag, hacc, htoken⟩ := hrx.account
  refine ⟨k, lag, hacc, hacc.le hrx.subscribed, ?_⟩
  intro hclosed hmailbox hheld hreceives
  obtain ⟨hstage, htop⟩ := hinv.closed_view r (hrx.shut hclosed)
  have hlast := hrx.latest hmailbox hstage
  have hnext : (w.rx r).expected = (w.rx r).next := by simp [Rx.expected, hreceives]
  rcases htoken with ⟨_, _, hsettled⟩ | ⟨_, r', hone, _⟩
  · rw [hheld] at hsettled
    obtain ⟨_, hk⟩ := hsettled
    have hsent : (w.view r).sent.length = w.sent.length := rfl
    omega
  · rw [hreceives] at hone
    cases hone

/-- Two sends to a mailbox for one value, and one receive, which reports the first send lost. -/
theorem outcomes_account_of_lagged : ∃ w : World Nat, Reaches (Step 1) init w ∧
    (w.rx 0).outcomes = [.lagged 1] ∧
    ∃ k lag, Accounts w.sent (w.rx 0).start (w.rx 0).outcomes k lag ∧ k ≤ w.sent.length ∧
      ((w.rx 0).closed = true → (w.rx 0).mailbox = [] → (w.rx 0).held = none →
        (w.rx 0).receives = [] → k = w.sent.length) := by
  have hempty : Reaches (Step 1) (init : World Nat) _ := Reaches.refl.tail (.subscribe rfl)
  have hfirst := ((hempty.tail (.send 10 rfl rfl)).tail
    (.trySend rfl (by decide) (by decide) ⟨rfl, by decide⟩)).tail (.published rfl (by decide))
  have hfull := (hfirst.tail (.send 20 rfl rfl)).tail
    (.full rfl (by decide) fun hroom => absurd hroom.2 (by decide))
  have hsecond := ((hfull.tail (.drop rfl (by decide) rfl)).tail
    (.trySend rfl (by decide) (by decide) ⟨rfl, by decide⟩)).tail (.published rfl (by decide))
  have htaken := ((hsecond.tail (.receiver (r := 0) (by decide) (.take true rfl))).tail
    (.receiver (r := 0) (by decide) (@RxStep.getNone _ _ [] [] _ _ rfl rfl))).tail
    (.receiver (r := 0) (by decide) (@RxStep.receive _ _ [] [] _ _ _ _ rfl rfl))
  have hreported := ((htaken.tail
    (.receiver (r := 0) (by decide) (@RxStep.exchange _ _ [] [] _ _ rfl))).tail
    (.receiver (r := 0) (by decide) (@RxStep.hold _ _ [] [] _ _ _ rfl))).tail
    (.receiver (r := 0) (by decide) (@RxStep.release _ _ [] [] _ _ rfl))
  exact ⟨_, hreported, rfl, outcomes_account 1 (Nat.le_refl 1) _ hreported 0 (by decide)⟩

end

end ChezziLang.Stdlib.Broadcast
