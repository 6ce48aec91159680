/-
  The capacity and the close of a channel, in every interleaving of `Vm/Channel.lean`.

  A receive refills the place it freed from a queued offer in the same hold of the lock, so the
  place counts as taken until then.

  Proved:
  * `channel_bounded`: a buffer never holds more than its capacity; once closed a channel stays
    closed, without offers, and its buffer only loses messages, from the front.
-/
import ChezziLang.Vm.ChannelSafety

set_option linter.unusedSectionVars false

namespace ChezziLang.Vm.Channel

open Sys Function List

variable {C P M R : Type} [DecidableEq C] [DecidableEq P] [DecidableEq M]

/-- The places of the buffer that a receive in progress has freed. -/
def Hold.freed : Option (Hold P M R) → Nat
  | some (.take _ refill _ _ _) => refill.toNat
  | _ => 0

def Hold.gives : Option (Hold P M R) → Bool
  | some (.give ..) => true
  | _ => false

/-- What the capacity and the close allow one channel and what holds its lock. -/
structure Bounded (cap : Option Nat) (s : ChanState P M) (h : Option (Hold P M R)) : Prop where
  room : ∀ n, cap = some n → s.queue.length + Hold.freed h ≤ n
  shut : s.closed = true → s.sendq = [] ∧ Hold.gives h = false

/-- What a step does to a channel: it keeps the bounds, and of a closed buffer it takes the front
    at most. -/
def Turns (cap : Option Nat) (s s' : ChanState P M) (h h' : Option (Hold P M R)) : Prop :=
  Bounded cap s h → Bounded cap s' h' ∧ (s.closed = true → s'.closed = true ∧ s'.queue <:+ s.queue)

def Keeps (cap : C → Option Nat) (σ σ' : Sys C P M R) : Prop :=
  ∀ c, Turns (cap c) (σ.chan c) (σ'.chan c) (σ.hold c) (σ'.hold c)

variable {cap : C → Option Nat} {σ σ' : Sys C P M R} {c : C} {s s' s₁ : ChanState P M}
  {h h' h₁ : Option (Hold P M R)} {k : Option Nat}

theorem Turns.refl : Turns k s s h h := fun hb => ⟨hb, fun hc => ⟨hc, suffix_rfl⟩⟩

theorem Turns.trans (ha : Turns k s s₁ h h₁) (hb : Turns k s₁ s' h₁ h') : Turns k s s' h h' := by
  intro hs
  obtain ⟨hs₁, hc₁⟩ := ha hs
  refine ⟨(hb hs₁).1, fun hc => ?_⟩
  have hlate := (hb hs₁).2 (hc₁ hc).1
  exact ⟨hlate.1, hlate.2.trans (hc₁ hc).2⟩

/-- The buffer loses at most its front. -/
theorem Turns.drops (hq : s'.queue <:+ s.queue) (hcl : s'.closed = s.closed)
    (hs : s.sendq = [] → s'.sendq = [])
    (hf : s'.queue.length + Hold.freed h' ≤ s.queue.length + Hold.freed h)
    (hg : Hold.gives h = false → Hold.gives h' = false) : Turns k s s' h h' := by
  rintro ⟨hroom, hshut⟩
  refine ⟨⟨fun n hn => Nat.le_trans hf (hroom n hn), fun hc => ?_⟩, fun hc => ⟨hcl.trans hc, hq⟩⟩
  obtain ⟨hnil, hgive⟩ := hshut (hcl ▸ hc)
  exact ⟨hs hnil, hg hgive⟩

/-- The channel is open, and stays within its room. -/
theorem Turns.opened (hopen : Bounded k s h → s.closed = false) (hcl : s'.closed = s.closed)
    (hroom : ∀ n, k = some n → s.queue.length + Hold.freed h ≤ n →
      s'.queue.length + Hold.freed h' ≤ n) : Turns k s s' h h' := by
  intro hb
  have hc := hopen hb
  exact ⟨⟨fun n hn => hroom n hn (hb.room n hn), by simp [hcl, hc]⟩, by simp [hc]⟩

/-! ## One channel at a time -/

theorem keeps_put (hc : σ'.chan = update σ.chan c s) (hh : σ'.hold = update σ.hold c h')
    (hl : σ.hold c = h) (ht : Turns (cap c) (σ.chan c) s h h') : Keeps cap σ σ' := by
  intro c'
  rw [hc, hh]
  by_cases he : c' = c
  · rwa [he, update_self, update_self, hl]
  · rw [update_of_ne he, update_of_ne he]
    exact .refl

theorem keeps_recvReturns {own got} (hc : σ'.chan = σ.chan) (hh : σ'.hold = σ.hold)
    (hl : σ.hold c = h) (ht : Turns (cap c) (σ.chan c) s h none) :
    Keeps cap σ (σ'.recvReturns c s own got) := by
  have hput : ∀ s', Turns (cap c) (σ.chan c) s' h none → Keeps cap σ (σ'.put c s' none) :=
    fun s' => keeps_put (by rw [← hc]; rfl) (by rw [← hh]; rfl) hl
  cases own with
  | none => exact hput s ht
  | some p =>
    cases got with
    | false => exact hput s ht
    | true =>
      refine hput (s.withdraw p) (ht.trans ?_)
      exact .drops suffix_rfl rfl (by simp +contextual [ChanState.withdraw]) (Nat.le_refl _) id

theorem keeps_offerOrFull {m offer}
    (hopen : Bounded (cap c) (σ.chan c) (σ.hold c) → (σ.chan c).closed = false) :
    Keeps cap σ (σ.offerOrFull c m offer) := by
  cases offer <;>
    exact keeps_put rfl rfl rfl (.opened hopen rfl fun n _ => Nat.le_of_add_right_le)

theorem sendTurn_open (ht : s.sendTurn k ≠ .closed) : s.closed = false := by
  by_contra hc
  simp_all [ChanState.sendTurn]

theorem sendTurn_push (ht : s.sendTurn k = .push) (n) (hn : k = some n) : s.queue.length < n := by
  unfold ChanState.sendTurn at ht
  grind

/-- An offer that can be taken shows its channel open. -/
theorem takeTurn_open {pend me i o pend'} (ht : s.takeTurn pend me i = .commit o pend')
    (hb : Bounded k s h) : s.closed = false := by
  by_contra hc
  have ho := (takeTurn_commit ht).1
  simp [(hb.shut (by simpa using hc)).1] at ho

theorem keeps_step (hs : Step cap σ σ') : Keeps cap σ σ' := by
  cases hs with
  | sendClosed c _ _ hl | giveCommit c _ _ _ _ _ hl =>
    refine keeps_put (setOffer_chan ..) (setOffer_hold ..) hl ?_
    exact .drops suffix_rfl rfl id (Nat.le_refl _) fun _ => rfl
  | sendPush c m _ hl _ _ ht =>
    refine keeps_put (setOffer_chan ..) (setOffer_hold ..) hl ?_
    refine .opened (fun _ => sendTurn_open (ht.trans_ne (by decide))) rfl fun n hn _ => ?_
    simpa [ChanState.push, Hold.freed] using Nat.succ_le_of_lt (sendTurn_push ht n hn)
  | sendBlock c _ _ _ _ _ ht =>
    exact keeps_offerOrFull (σ := σ.issue _) fun _ => sendTurn_open (ht.trans_ne (by decide))
  | sendGive c _ _ hl _ _ ht =>
    refine keeps_put (setOffer_chan ..) (setOffer_hold ..) hl ?_
    exact .opened (fun _ => sendTurn_open (ht.trans_ne (by decide))) rfl fun _ _ => id
  | giveExhausted c _ _ _ hl =>
    refine keeps_offerOrFull fun hb => ?_
    by_contra hc
    simpa [hl, Hold.gives] using (hb.shut (by simpa using hc)).2
  | recvFront c _ _ _ _ hl _ hq | repollFront c _ _ _ _ hl _ hq =>
    refine keeps_put rfl rfl hl ?_
    exact .drops (by simp [hq]) rfl id (by simp [hq, Hold.freed]) id
  | takeRefill c _ _ _ _ _ _ hl ht =>
    refine keeps_recvReturns rfl rfl hl ?_
    exact .opened (takeTurn_open ht) rfl (by simp [Hold.freed])
  | takeCommit c _ _ _ _ _ _ hl | takeExhausted c _ _ _ _ _ hl =>
    refine keeps_recvReturns rfl rfl hl ?_
    exact .drops suffix_rfl rfl (by simp +contextual) (Nat.add_le_add_left (Nat.zero_le _) _) id
  | closeStart c hl =>
    refine keeps_put rfl rfl hl fun hb => ?_
    exact ⟨⟨hb.room, fun _ => ⟨rfl, rfl⟩⟩, fun _ => ⟨rfl, suffix_rfl⟩⟩
  | offerArm _ c _ _ hl _ _ _ hc =>
    refine keeps_put rfl rfl hl ?_
    exact .opened (fun _ => hc) rfl fun _ _ => id
  | settleTake p c _ _ _ _ _ hl ht =>
    obtain ⟨hn, -⟩ | ⟨i, e, v', -, -, -, hs⟩ := take_cases (σ.chan c) p
    · cases hn.symm.trans ht
    · cases hs.symm.trans ht
      refine keeps_put rfl rfl hl ?_
      exact .drops suffix_rfl rfl id (Nat.le_refl _) id
  | giveSkip c _ _ _ hl | giveDead c _ _ _ hl | recvEmpty c _ _ hl | repollEmpty c _ _ hl
  | takeSkip c _ _ _ _ _ hl | takeDead c _ _ _ _ _ hl | closeTurn c _ _ hl | closeEnd c hl
  | slotArm _ c _ hl | settleWithdraw _ c _ _ _ hl =>
    refine keeps_put rfl rfl hl ?_
    refine .drops suffix_rfl rfl ?_ (Nat.le_refl _) id
    simp +contextual [ChanState.slot, ChanState.withdraw]
  | _ => exact fun c => .refl

theorem keeps_run (hr : Relation.ReflTransGen (Step cap) σ σ') : Keeps cap σ σ' := by
  induction hr with
  | refl => exact fun c => .refl
  | tail _ hs ih => exact fun c => (ih c).trans (keeps_step hs c)

/-- **A buffer never outgrows its channel's capacity, and a close is final**: no message joins the
    buffer of a closed channel later, and no sender waits on it. -/
theorem channel_bounded (hσ : Reachable cap σ) (c) :
    (∀ n, cap c = some n → (σ.chan c).queue.length ≤ n) ∧
    ((σ.chan c).closed = true → ∀ σ', Relation.ReflTransGen (Step cap) σ σ' →
      (σ'.chan c).closed = true ∧ (σ'.chan c).sendq = [] ∧
      (σ'.chan c).queue <:+ (σ.chan c).queue) := by
  have hb := (keeps_run hσ c ⟨fun _ _ => Nat.zero_le _, fun h => by cases h⟩).1
  refine ⟨fun n hn => Nat.le_of_add_right_le (hb.room n hn), fun hc σ' hr => ?_⟩
  obtain ⟨hb', hlater⟩ := keeps_run hr c hb
  obtain ⟨hc', hq⟩ := hlater hc
  exact ⟨hc', (hb'.shut hc').1, hq⟩

theorem channel_bounded_send :
    ((((init : Sys Unit Unit Nat Unit).issue 7).sendReturns () (ChanState.empty.push 7) 7 none
      .sent).chan ()).queue.length ≤ 1 :=
  have h : Step (fun _ => some 1) _ _ := .sendPush init () 7 none rfl (by simp [init]) (by simp) rfl
  (channel_bounded (.single h) ()).1 1 rfl

end ChezziLang.Vm.Channel
