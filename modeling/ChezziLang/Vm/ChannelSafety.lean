/-
  Channel safety: exactly-once delivery, whatever the interleaving.

  Every `Step` of `Vm/Channel.lean` is a composition of the moves of
  `Vm/ChannelInv.lean`, so the invariant holds in every reachable state
  (`inv_step`, `reachable_inv`).  What a sender was told never changes
  (`report_step`), and with the invariant this gives the property of the whole
  system: a message reported as sent is in exactly one place, a message reported
  otherwise is never delivered, a `Pending` commits once, and a settled one has
  left every channel.
-/
import ChezziLang.Vm.ChannelInv

set_option linter.unusedSectionVars false

namespace ChezziLang.Vm.Channel

open ChezziLang.Lib.Places Sys Function List Option

variable {C P M R : Type} [DecidableEq C] [DecidableEq P] [DecidableEq M]

/-! ## What a turn found -/

variable {s : ChanState P M} {i arm : Nat} {me offer own : Option P} {cap : C → Option Nat}
  {σ' σ : Sys C P M R} {m : M} {arms : List (C × Nat × Bool)} {c : C} {p : P} {pend : P → PState}
  {e : Slot P M} {o : Offer P M} {r : Report} {drop : Bool}

theorem giveTurn_dead (h : s.giveTurn pend me i = .dead) :
    ∃ e, s.recvq[i]? = some e ∧ e.got = none := by
  unfold ChanState.giveTurn at h
  split at h
  · cases h
  rename_i e he
  cases hg : e.got with
  | none => exact ⟨e, he, hg⟩
  | some v => simp [hg] at h

/-- A commit was made on a `Pending` that was still queued. -/
theorem tryCommit_eq_some {pend'} (h : tryCommit pend p arm = some pend') :
    pend p = .queued ∧ pend' = update pend p (.done arm) := by
  unfold tryCommit compareExchange at h
  split at h
  · cases h; exact ⟨‹_›, rfl⟩
  · cases h

theorem giveTurn_commit {pend'} (h : s.giveTurn pend me i = .commit e pend') :
    s.recvq[i]? = some e ∧ e.got = none ∧ pend e.p = .queued ∧
      pend' = update pend e.p (.done e.arm) := by
  unfold ChanState.giveTurn at h
  repeat' split at h
  all_goals cases h
  rename_i he hg hc
  rw [Bool.or_eq_true, not_or, Bool.not_eq_true, isSome_eq_false_iff, isNone_iff_eq_none] at hg
  exact ⟨he, hg.1, tryCommit_eq_some hc⟩

theorem takeTurn_commit {pend'} (h : s.takeTurn pend me i = .commit o pend') :
    s.sendq[i]? = some o ∧ pend o.p = .queued ∧ pend' = update pend o.p (.done o.arm) := by
  unfold ChanState.takeTurn at h
  repeat' split at h
  all_goals cases h
  rename_i ho _ hc
  exact ⟨ho, tryCommit_eq_some hc⟩

/-! ## The owner's phases -/

theorem Inv.no_give (hi : Inv σ) (h : ∀ c, (σ.op p).phase ≠ .sending c) (c i m) :
    σ.hold c ≠ some (.give i m (some p)) :=
  fun hh => h c (((hi.entries c).giving i m _ hh).2.2 p rfl)

/-- A `Pending` that is not published yet has no entries, so it may go anywhere. -/
theorem MayBecome.of_fresh (hi : Inv σ) {o} (hf : (σ.op p).phase.isFresh = true)
    (ha : (o.arms.map fun a => a.2.1).Nodup) (ho : o.phase.isFresh = true → o.arms = [])
    (hw : o.phase.isWithdrawing = false) (ht : ∀ c a d, o.phase ≠ .taking c a d)
    (hg : ∀ c i m, σ.hold c ≠ some (.give i m (some p))) : MayBecome σ p o where
  arms := ha
  mono := fun a h => by rw [(hi.owners.idle p hf).1] at h; cases h
  offer := fun c e he hp => by
    have h := ((hi.entries c).offer e he).2.1
    rw [hp, (hi.owners.idle p hf).1] at h
    cases h
  slot := fun c e he hp => by
    have h := ((hi.entries c).slot e he).1
    rw [hp, (hi.owners.idle p hf).1] at h
    cases h
  filled := fun h => by rw [hw] at h; cases h
  idle := fun h => ⟨ho h, (hi.owners.idle p hf).2⟩
  past := fun h => by rw [hw] at h; cases h
  taking := fun c a d h => absurd h (ht c a d)
  give := fun c i m h => absurd h (hg c i m)
  take := NotRepolling.of_phase hi fun h => by rw [h] at hf; cases hf

/-- The phases in which the owner may publish or poll. -/
def Phase.isLive : Phase C M → Bool
  | .active => true
  | .receiving => true
  | _ => false

theorem Phase.isFresh_of_live {ph : Phase C M} (h : ph.isLive = true) : ph.isFresh = false := by
  cases ph <;> first | rfl | cases h

theorem Phase.isWithdrawing_of_live {ph : Phase C M} (h : ph.isLive = true) :
    ph.isWithdrawing = false := by
  cases ph <;> first | rfl | cases h

theorem entryAt_of_live {o : PendingOp C M} (h : o.phase.isLive = true) {b}
    (ha : (c, arm, b) ∈ o.arms) : EntryAt o c arm b := by
  refine ⟨ha, ?_⟩
  cases hp : o.phase <;> rw [hp] at h <;> trivial

/-- A live owner stays live and may record more arms. -/
theorem MayBecome.of_live (hi : Inv σ) {o : PendingOp C M} (hl : (σ.op p).phase.isLive = true)
    (ho : o.phase.isLive = true) (ha : (o.arms.map fun a => a.2.1).Nodup)
    (hm : ∀ a ∈ (σ.op p).arms, a ∈ o.arms) (hr : NotRepolling σ p) : MayBecome σ p o where
  arms := ha
  mono := hm
  offer := fun c e he hp =>
    entryAt_of_live ho (hm _ (hp ▸ ((hi.entries c).offer e he).2.1))
  slot := fun c e he hp => entryAt_of_live ho (hm _ (hp ▸ ((hi.entries c).slot e he).1))
  filled := fun h => absurd h (ne_true_of_eq_false (Phase.isWithdrawing_of_live ho))
  idle := fun h => absurd h (ne_true_of_eq_false (Phase.isFresh_of_live ho))
  past := fun h => absurd h (ne_true_of_eq_false (Phase.isWithdrawing_of_live ho))
  taking := fun c a d h => by rw [h] at ho; cases ho
  give := fun c i m h => by
    have := ((hi.entries c).giving i m _ h).2.2 p rfl
    rw [this] at hl
    cases hl
  take := hr

/-- The owner changes its phase only, while no operation in progress depends on it: what
    remains to be looked after are its entries. -/
theorem MayBecome.moveOn (hi : Inv σ) {ph} (hs : ∀ c, (σ.op p).phase ≠ .sending c)
    (hr : (σ.op p).phase ≠ .receiving) (hf : ph.isFresh = false)
    (he : ∀ c a b, EntryAt (σ.op p) c a b →
      ((∃ e ∈ offersOf σ c, e.p = p) ∨ ∃ e ∈ (σ.chan c).recvq, e.p = p) →
      EntryAt ⟨(σ.op p).arms, ph⟩ c a b)
    (hw : ph.isWithdrawing = true → σ.pend p ≠ .queued ∧
      ∀ c, ∀ e ∈ (σ.chan c).recvq, e.p = p → e.got = none)
    (ht : ∀ c a d, ph = .taking c a d → σ.pend p = .done a ∧ (c, a, false) ∈ (σ.op p).arms) :
    MayBecome σ p ⟨(σ.op p).arms, ph⟩ where
  arms := hi.owners.arms p
  mono := fun _ h => h
  offer := fun c e hm hep =>
    he _ _ _ (hep ▸ ((hi.entries c).offer e hm).2) (.inl ⟨e, hm, hep⟩)
  slot := fun c e hm hep => he _ _ _ (hep ▸ (hi.entries c).slot e hm) (.inr ⟨e, hm, hep⟩)
  filled := fun h => (hw h).2
  idle := fun h => absurd h (ne_true_of_eq_false hf)
  past := fun h => (hw h).1
  taking := ht
  give := fun c i m h => absurd h (hi.no_give hs c i m)
  take := NotRepolling.of_phase hi hr

theorem nodup_arms_append {b : Bool} (hn : (arms.map fun a => a.2.1).Nodup)
    (ha : ∀ a ∈ arms, a.2.1 ≠ arm) :
    ((arms ++ [(c, arm, b)]).map fun a => a.2.1).Nodup := by
  rw [map_append]
  refine hn.append (nodup_singleton _) ?_
  intro x hx hx'
  obtain ⟨a, hin, rfl⟩ := mem_map.mp hx
  exact ha a hin (mem_singleton.mp hx')

/-! ## Sends -/

theorem setOffer_chan (σ : Sys C P M R) (offer ph) :
    (σ.setOffer offer ph).chan = σ.chan := by cases offer <;> rfl

theorem setOffer_hold (σ : Sys C P M R) (offer ph) :
    (σ.setOffer offer ph).hold = σ.hold := by cases offer <;> rfl

theorem setOffer_pend (σ : Sys C P M R) (offer ph) :
    (σ.setOffer offer ph).pend = σ.pend := by cases offer <;> rfl

theorem setOffer_commits (σ : Sys C P M R) (offer ph) :
    (σ.setOffer offer ph).commits = σ.commits := by cases offer <;> rfl

theorem setOffer_phase (σ : Sys C P M R) (p ph) : ((σ.setOffer (some p) ph).op p).phase = ph := by
  show (update σ.op p { σ.op p with phase := ph } p).phase = ph
  rw [update_self]

theorem setOffer_put (σ : Sys C P M R) (offer ph c s) (h : Option (Hold P M R)) :
    (σ.setOffer offer ph).put c s h = (σ.put c s h).setOffer offer ph := by
  cases offer <;> rfl

theorem Loose.setOffer (hm : Loose σ m) (offer ph) : Loose (σ.setOffer offer ph) m := by
  cases offer with
  | none => exact hm
  | some p => exact ⟨hm.issued, hm.nowhere, hm.origin, hm.report⟩

/-- The `Pending` a send came with is still unpublished, and no other `give` has it. -/
def Unpublished (σ : Sys C P M R) (offer : Option P) : Prop :=
  ∀ p, offer = some p → (σ.op p).phase.isFresh = true ∧
    ∀ c i m, σ.hold c ≠ some (.give i m (some p))

section

variable (hi : Inv σ)
include hi

theorem Inv.unpublished_of_unused (ho : ∀ p, offer = some p → (σ.op p).phase = .unused) :
    Unpublished σ offer := by
  intro p hp
  refine ⟨by rw [ho p hp]; rfl, hi.no_give fun c => ?_⟩
  rw [ho p hp]
  exact nofun

theorem Inv.unpublished_of_sending (hl : σ.hold c = none)
    (ho : ∀ p, offer = some p → (σ.op p).phase = .sending c) :
    Unpublished σ offer := by
  intro p hp
  refine ⟨by rw [ho p hp]; rfl, fun c' i m hh => ?_⟩
  have hc := ((hi.entries c').giving i m _ hh).2.2 p rfl
  rw [ho p hp] at hc
  injection hc with hc
  rw [← hc, hl] at hh
  cases hh

theorem Inv.setOffer (hu : Unpublished σ offer) (ph) (hw : ph.isWithdrawing = false)
    (ht : ∀ c a d, ph ≠ .taking c a d) : Inv (σ.setOffer offer ph) := by
  cases offer with
  | none => exact hi
  | some p =>
    obtain ⟨hf, hg⟩ := hu p rfl
    have ha := (hi.owners.idle p hf).1
    refine hi.setOp (MayBecome.of_fresh hi hf ?_ (fun _ => ha) hw ht hg)
    rw [ha]
    exact nodup_nil

theorem Inv.sendFails (hm : Loose σ m) (hl : σ.hold c = none)
    (hu : Unpublished σ offer) (hr : r ≠ .sent) : Inv (σ.sendReturns c (σ.chan c) m offer r) := by
  have hput := put_self σ c
  rw [hl] at hput
  unfold sendReturns
  rw [hput]
  exact (hi.setOffer hu (.settled .cancelled) rfl nofun).tellFailed (hm.setOffer offer _) hr

theorem Inv.sendPushes (hm : Loose σ m) (hl : σ.hold c = none)
    (hu : Unpublished σ offer) :
    Inv (σ.sendReturns c ((σ.chan c).push m) m offer .sent) := by
  have h := (hi.setOffer hu (.settled .cancelled) rfl nofun).push (c := c)
    (hm.setOffer offer _) (by rw [setOffer_hold]; exact hl)
  rw [setOffer_put, setOffer_chan] at h
  exact h

theorem Inv.offersOrFull (hm : Loose σ m) (hl : σ.hold c = none)
    (hu : Unpublished σ offer) :
    Inv (σ.offerOrFull c m offer) := by
  cases offer with
  | none => exact hi.sendFails hm hl hu nofun
  | some p =>
    obtain ⟨hf, hg⟩ := hu p rfl
    have ha := (hi.owners.idle p hf).1
    refine hi.publish hm hl (fun a h => by rw [ha] at h; cases h) ?_
    refine MayBecome.of_fresh hi hf ?_ nofun rfl nofun hg
    rw [ha]
    exact nodup_singleton _

end

theorem offerOrFull_put (σ : Sys C P M R) (c m offer) :
    (σ.put c (σ.chan c) none).offerOrFull c m offer = σ.offerOrFull c m offer := by
  cases offer with
  | none => simp only [offerOrFull, sendReturns, put_put, put_chan_self]
  | some p => simp only [offerOrFull, publishOffer, put_put, put_chan_self]; rfl

/-- A `give` found a live slot. -/
theorem Inv.gives (hi : Inv σ) (hl : σ.hold c = some (.give i m offer))
    (he : (σ.chan c).recvq[i]? = some e) (hg : e.got = none) (hq : σ.pend e.p = .queued) :
    Inv { σ.sendReturns c ((σ.chan c).fillSlot i e m) m offer .sent with
      pend := update σ.pend e.p (.done e.arm)
      commits := (e.p, e.arm) :: σ.commits } := by
  obtain ⟨hi', hm⟩ := hi.dropHand hl
  have hu : Unpublished (σ.put c (σ.chan c) none) offer :=
    hi'.unpublished_of_sending (put_hold_self ..) ((hi.entries c).giving i m offer hl).2.2
  have h := (hi'.setOffer hu (.settled .cancelled) rfl nofun).fill (c := c) (i := i) (e := e)
    (hm.setOffer offer _) (by rw [setOffer_hold, put_hold_self])
    (by rw [setOffer_chan, put_chan_self]; exact he) hg (by rw [setOffer_pend]; exact hq)
  rw [setOffer_put, setOffer_chan, setOffer_pend, setOffer_commits, put_chan_self, put_put] at h
  exact h

/-! ## Turns that only remove entries -/

theorem filterMap_eraseIdx_none {α β : Type} (f : α → Option β) {l : List α} {a}
    (h : l[i]? = some a) (hf : f a = none) : (l.eraseIdx i).filterMap f = l.filterMap f := by
  induction l generalizing i with
  | nil => rfl
  | cons x xs ih =>
    cases i with
    | zero =>
      rw [getElem?_cons_zero, some_inj] at h
      rw [eraseIdx_cons_zero, filterMap_cons_none (h ▸ hf)]
    | succ i =>
      rw [eraseIdx_cons_succ, filterMap_cons, filterMap_cons, ih h]

theorem filterMap_filter_of_none {α β : Type} (f : α → Option β) {q} {l : List α}
    (h : ∀ a ∈ l, q a = false → f a = none) : (l.filter q).filterMap f = l.filterMap f := by
  induction l with
  | nil => rfl
  | cons x xs ih =>
    have ih' := ih (forall_mem_cons.mp h).2
    cases hq : q x with
    | true => rw [filter_cons_of_pos hq, filterMap_cons, filterMap_cons, ih']
    | false =>
      rw [filter_cons_of_neg (ne_true_of_eq_false hq), ih',
        filterMap_cons_none (h x mem_cons_self hq)]

section

variable (hi : Inv σ)
include hi

/-- A `give` goes on, having dropped unfilled slots only. -/
theorem Inv.giveGoesOn (hl : σ.hold c = some (.give i m offer)) (j) {q}
    (hs : q.Sublist (σ.chan c).recvq)
    (hg : q.filterMap Slot.got = (σ.chan c).recvq.filterMap Slot.got) :
    Inv (σ.put c { σ.chan c with recvq := q } (some (.give j m offer))) :=
  hi.shrink
    { queue := rfl
      sealed := rfl
      got := hg
      recvq := hs
      offers := offers_subperm σ c rfl (Sublist.refl _)
      hand := by
        show [m].Subperm (Hold.inHand (σ.hold c))
        rw [hl]
        exact Subperm.refl _
      give := fun i' m' offer' h => by
        cases h
        exact (hi.entries c).giving i m offer hl
      take := nofun }

/-- A receive starts or goes on, having dropped offers only. -/
theorem Inv.takeGoesOn (j refill r me) {q} (hs : q.Sublist (σ.chan c).sendq)
    (ho : ∀ p, own = some p → σ.op p = ⟨[(c, 0, false)], .receiving⟩ ∧ σ.pend p = .queued) :
    Inv (σ.put c { σ.chan c with sendq := q } (some (.take j refill r me own))) :=
  hi.shrink
    { queue := rfl
      sealed := rfl
      got := rfl
      recvq := Sublist.refl _
      offers := offers_subperm σ c rfl hs
      hand := nil_subperm
      give := nofun
      take := fun i' refill' r' me' p h => by
        cases h
        exact ho p rfl }

/-- The lock is let go of, having dropped offers and unfilled slots. -/
theorem Inv.unlock {q q'} (hs : q.Sublist (σ.chan c).sendq)
    (hs' : q'.Sublist (σ.chan c).recvq)
    (hg : q'.filterMap Slot.got = (σ.chan c).recvq.filterMap Slot.got) :
    Inv (σ.put c { σ.chan c with sendq := q, recvq := q' } none) :=
  hi.shrink (.unlock hs hs' hg)

theorem Inv.withdraws (hp : ∀ e ∈ (σ.chan c).recvq, e.p = p → e.got = none) :
    Inv (σ.put c ((σ.chan c).withdraw p) none) := by
  refine hi.unlock filter_sublist filter_sublist (filterMap_filter_of_none _ ?_)
  intro e he h
  exact hp e he (not_not.mp (of_decide_eq_false h))

/-- No slot of an owner that is still queued, or past taking, is filled. -/
theorem Inv.unfilled (hp : (∀ a, σ.pend p ≠ .done a) ∨ (σ.op p).phase.isWithdrawing = true) (c) :
    ∀ e ∈ (σ.chan c).recvq, e.p = p → e.got = none := by
  intro e he hep
  by_contra hg
  obtain ⟨hd, hw⟩ := (hi.entries c).filled e he (isSome_iff_ne_none.mpr hg)
  rw [hep] at hd hw
  cases hp with
  | inl h => exact h _ hd
  | inr h => rw [h] at hw; cases hw

end

/-! ## Receives -/

/-- A receive lets go of the lock. -/
theorem Inv.receives (hi : Inv σ) {refill r} (hl : σ.hold c = some (.take i refill r me own))
    (got) : Inv (σ.recvReturns c (σ.chan c) own got) := by
  cases own with
  | none => exact hi.unlock (Sublist.refl _) (Sublist.refl _) rfl
  | some p =>
    obtain ⟨hop, hpq⟩ := (hi.entries c).repolling i refill r me p hl
    -- `p` has one arm, so a receive that withdraws its slot holds channel `c`
    have hrep : ∀ s, NotRepolling (σ.put c s none) p := by
      intro s c' i' refill' r' me' hh
      by_cases hc : c' = c
      · rw [hc, put_hold_self] at hh; cases hh
      rw [put_hold_ne σ s none hc] at hh
      have := ((hi.entries c').repolling i' refill' r' me' p hh).1
      rw [hop] at this
      cases this
      exact hc rfl
    have hback : ∀ s, Inv (σ.put c s none) → Inv ((σ.put c s none).setPhase p .active) := by
      intro s h
      refine h.setOp (MayBecome.of_live h ?_ rfl (h.owners.arms p) (fun _ ha => ha) (hrep s))
      show (σ.op p).phase.isLive = true
      rw [hop]; rfl
    cases got with
    | false => exact hback _ (hi.unlock (Sublist.refl _) (Sublist.refl _) rfl)
    | true =>
      have hun := hi.unfilled (p := p) (.inl fun a h => by rw [hpq] at h; cases h) c
      refine (hback _ (hi.withdraws hun)).cas p nofun ?_ (hrep ((σ.chan c).withdraw p))
      show (update σ.op p _ p).phase.isFresh = false
      rw [update_self]; rfl

theorem Inv.pops (hi : Inv σ) {v q} (hq : (σ.chan c).queue = v :: q) (r me)
    (ho : ∀ p, own = some p → σ.op p = ⟨[(c, 0, false)], .receiving⟩ ∧ σ.pend p = .queued) :
    Inv { σ.put c { σ.chan c with queue := q } (some (.take 0 true r me own)) with
      received := σ.received ++ [(v, .poll r)] } := by
  have h := (hi.popFront hq (.poll r)).takeGoesOn (c := c) 0 true r me (Sublist.refl _) ho
  simp only [relocate, put, update_self, update_idem] at h
  exact h

/-- The owner of a published slot polls again. -/
theorem Inv.repolls (hi : Inv σ) (hp : σ.op p = ⟨[(c, 0, false)], .active⟩) :
    Inv (σ.setPhase p .receiving) := by
  refine hi.setOp (MayBecome.of_live hi ?_ rfl (hi.owners.arms p) (fun _ ha => ha)
    (NotRepolling.of_phase hi ?_))
  · rw [hp]; rfl
  · rw [hp]; exact nofun

theorem setPhase_receiving (hp : σ.op p = ⟨[(c, 0, false)], .active⟩) (hpq : σ.pend p = .queued) (q)
    (hq : some p = some q) :
    (σ.setPhase p .receiving).op q = ⟨[(c, 0, false)], .receiving⟩ ∧ σ.pend q = .queued := by
  cases hq
  refine ⟨?_, hpq⟩
  show update σ.op p _ p = _
  rw [update_self, hp]

theorem Inv.takes (hi : Inv σ) {refill r received b} (ht : Takes σ c i o s received b)
    (hl : σ.hold c = some (.take i refill r me own)) (ho : (σ.chan c).sendq[i]? = some o)
    (hq : σ.pend o.p = .queued) : Inv (recvReturns { σ with
      pend := update σ.pend o.p (.done o.arm)
      commits := (o.p, o.arm) :: σ.commits
      received := received } c s own true) := by
  have hl' : (σ.put c s (σ.hold c)).hold c = some (.take i refill r me own) :=
    (put_hold_self σ c s _).trans hl
  have h := (hi.takeOffer ht ho (by rw [hl]; rfl) hq).receives hl' true
  cases own <;>
    simpa only [recvReturns, relocate, put, setPhase, update_self, update_idem]
      using h

/-! ## Settling -/

/-- The owner goes for the slot of the receive arm that its `Pending` is done on, and
    to withdraw from every channel otherwise. -/
theorem settleTurn_cases (arms : List (C × Nat × Bool)) (drop st) :
    (∃ r, settleTurn (M := M) arms drop st = .withdrawing (arms.map fun a => a.1) r) ∨
      ∃ c a, settleTurn (M := M) arms drop st = .taking c a drop ∧ st = .done a ∧
        (c, a, false) ∈ arms := by
  cases st with
  | done arm =>
    unfold settleTurn
    dsimp only
    split
    · exact .inl ⟨_, rfl⟩
    · rename_i c a hf
      have ha : a = arm := beq_iff_eq.mp (find?_some hf :)
      exact .inr ⟨c, arm, rfl, rfl, ha ▸ mem_of_find?_eq_some hf⟩
    · exact .inl ⟨_, rfl⟩
  | queued | cancelled | closed => exact .inl ⟨_, rfl⟩

theorem settleTurn_eq_taking {st a d} (h : settleTurn (M := M) arms drop st = .taking c a d) :
    st = .done a ∧ (c, a, false) ∈ arms := by
  obtain ⟨r, hr⟩ | ⟨c', a', hr, ht⟩ := settleTurn_cases (M := M) arms drop st
  · cases hr.symm.trans h
  · cases hr.symm.trans h
    exact ht

/-- The arm a `Pending` is done on is a receive arm: its owner goes for the slot. -/
theorem settleTurn_done (hn : (arms.map fun a => a.2.1).Nodup) {a} (ha : (c, a, false) ∈ arms) :
    settleTurn (M := M) arms drop (.done a) = .taking c a drop := by
  have hs : (arms.find? fun x => x.2.1 == a).isSome := find?_isSome.mpr ⟨_, ha, beq_self_eq_true a⟩
  obtain ⟨k, hk⟩ := isSome_iff_exists.mp hs
  have hka : k.2.1 = a := beq_iff_eq.mp (find?_some hk :)
  have := inj_on_of_nodup_map hn (mem_of_find?_eq_some hk) ha hka
  simp only [settleTurn, hk, this]

/-- Wherever the settle of `arms` goes, it still has to look at every channel. -/
theorem settleTurn_entryAt (drop : Bool) (st) {a b} (h : (c, a, b) ∈ arms) :
    EntryAt (⟨arms, settleTurn (M := M) arms drop st⟩ : PendingOp C M) c a b := by
  refine ⟨h, ?_⟩
  obtain ⟨r, hr⟩ | ⟨c', a', hr, -⟩ := settleTurn_cases (M := M) arms drop st
  · simp only [hr]
    exact mem_map.mpr ⟨_, h, rfl⟩
  · simp only [hr]

theorem settleTurn_not_fresh (arms : List (C × Nat × Bool)) (drop st) :
    (settleTurn (M := M) arms drop st).isFresh = false := by
  obtain ⟨r, hr⟩ | ⟨c', a', hr, -⟩ := settleTurn_cases (M := M) arms drop st
  all_goals rw [hr]; rfl

/-- `try_cancel` leaves a `Pending` that was decided before. -/
theorem cancel_self (pend : P → PState) (p) : ((tryCancel pend p).getD pend) p =
    if pend p = .queued then .cancelled else pend p := by
  unfold tryCancel compareExchange
  split
  · rw [getD_some, update_self]
  · rw [getD_none]

theorem settleTurn_cancel (arms : List (C × Nat × Bool)) (drop) (pend : P → PState) (p : P) :
    settleTurn (M := M) arms drop (((tryCancel pend p).getD pend) p) =
      settleTurn arms drop (pend p) := by
  rw [cancel_self]
  split
  · rename_i hq; rw [hq]; rfl
  · rfl

theorem Report.of_cancel (pend : P → PState) (p arm) :
    Report.of (((tryCancel pend p).getD pend) p) arm = .of (pend p) arm := by
  rw [cancel_self]
  split
  · rename_i hq; rw [hq]; rfl
  · rfl

theorem cancel_ne_queued (pend : P → PState) (p) : ((tryCancel pend p).getD pend) p ≠ .queued := by
  rw [cancel_self]
  split
  · exact nofun
  · assumption

/-- The owner leaves the active phase with the outcome of its `Pending`. -/
theorem MayBecome.settle (hi : Inv σ) (drop : Bool) (hp : (σ.op p).phase = .active)
    (hq : σ.pend p ≠ .queued) :
    MayBecome σ p ⟨(σ.op p).arms, settleTurn (σ.op p).arms drop (σ.pend p)⟩ := by
  refine .moveOn hi (by rw [hp]; exact nofun) (by rw [hp]; exact nofun)
    (settleTurn_not_fresh _ drop _) (fun c a b h _ => settleTurn_entryAt drop _ h.1)
    (fun hw => ⟨hq, fun c e he hep => ?_⟩) fun _ _ _ h => settleTurn_eq_taking h
  by_contra hg
  have hd := ((hi.entries c).filled e he (isSome_iff_ne_none.mpr hg)).1
  rw [hep] at hd
  rw [hd, settleTurn_done (hi.owners.arms p) (hep ▸ ((hi.entries c).slot e he).1)] at hw
  cases hw

theorem Inv.settles (hi : Inv σ) (drop : Bool) (hp : (σ.op p).phase = .active) :
    Inv { σ.setPhase p (settleTurn (σ.op p).arms drop (σ.pend p)) with
      pend := (tryCancel σ.pend p).getD σ.pend
      report := settleReport σ p (σ.pend p) } := by
  have h1 := hi.cas p (fun a => (nofun : PState.cancelled ≠ .done a)) (by rw [hp]; rfl)
    (NotRepolling.of_phase hi (by rw [hp]; exact nofun))
  have hq := cancel_ne_queued σ.pend p
  have h2 := h1.tellAll hq
  have h3 := h2.setOp (MayBecome.settle h2 drop hp hq)
  have hrep : settleReport σ p (((tryCancel σ.pend p).getD σ.pend) p) =
      settleReport σ p (σ.pend p) := by
    funext m
    simp only [settleReport, Report.of_cancel]
  have hturn := settleTurn_cancel (M := M) (σ.op p).arms drop σ.pend p
  rw [← hrep, ← hturn]
  exact h3

/-- The owner has taken its slot, or found it gone, and goes on to withdraw. -/
theorem MayBecome.afterTaking (hi : Inv σ) (hp : (σ.op p).phase = .taking c arm drop)
    (hc : ∀ e ∈ (σ.chan c).recvq, e.p = p → e.got = none) (r) :
    MayBecome σ p ⟨(σ.op p).arms, .withdrawing ((σ.op p).arms.map fun a => a.1) r⟩ := by
  obtain ⟨hd, ha⟩ := hi.owners.taking p c arm drop hp
  refine .moveOn hi (by rw [hp]; exact nofun) (by rw [hp]; exact nofun) rfl
    (fun c' a b h _ => ⟨h.1, mem_map.mpr ⟨_, h.1, rfl⟩⟩)
    (fun _ => ⟨by rw [hd]; exact nofun, fun c' e he hep => ?_⟩) nofun
  by_contra hg
  have hf := ((hi.entries c').filled e he (isSome_iff_ne_none.mpr hg)).1
  have hs := ((hi.entries c').slot e he).1
  rw [hep] at hf hs
  rw [hd] at hf
  injection hf with hf
  rw [← hf] at hs
  rw [(hi.owners.arm_unique hs ha).1] at he
  exact hg (hc e he hep)

/-- A `Pending` has one filled slot on a channel at most. -/
theorem Inv.dropSlot_unfilled (hi : Inv σ) (he : (σ.chan c).recvq[i]? = some e)
    (hg : e.got.isSome = true) :
    ∀ e' ∈ ((σ.chan c).dropSlot i).recvq, e'.p = e.p → e'.got = none := by
  intro e' he' hp
  obtain ⟨hlt, rfl⟩ := List.getElem?_eq_some_iff.mp he
  have hperm := getElem_cons_eraseIdx_perm hlt
  have hpw := (hperm.pairwise_iff fun {a b} h ha hb => (h hb ha).symm).mpr (hi.entries c).once
  by_contra hn
  exact (pairwise_cons.mp hpw).1 e' he' hg (isSome_iff_ne_none.mpr hn) hp.symm

theorem relocate_chan_self (σ : Sys C P M R) (c s received discarded) :
    (relocate σ c s received discarded).chan c = s := put_chan_self σ c s (σ.hold c)

theorem Inv.settleTakes (hi : Inv σ) {v} (hp : (σ.op p).phase = .taking c arm drop)
    (hl : σ.hold c = none) (ht : (σ.chan c).take p = some (v, s)) (r : Settled M) :
    Inv { (σ.put c s none).setPhase p (.withdrawing ((σ.op p).arms.map fun a => a.1) r) with
      received := if drop then σ.received else σ.received ++ [(v, .party p)]
      discarded := if drop then σ.discarded ++ [v] else σ.discarded } := by
  obtain ⟨i, e, v', he, hep, hg, hs⟩ := (take_cases (σ.chan c) p).resolve_left fun h => by
    cases h.1.symm.trans ht
  cases hs.symm.trans ht
  have h1 : Inv (relocate σ c ((σ.chan c).dropSlot i)
      (if drop then σ.received else σ.received ++ [(v, .party p)])
      (if drop then σ.discarded ++ [v] else σ.discarded)) := by
    cases drop with
    | true => exact hi.takeSlot he hg (.inr ⟨rfl, rfl, rfl⟩)
    | false => exact hi.takeSlot he hg (.inl ⟨rfl, map_append, rfl⟩)
  have hun := hi.dropSlot_unfilled he (by rw [hg]; rfl)
  have h2 := h1.setOp (MayBecome.afterTaking h1 hp (by
    rw [relocate_chan_self, ← hep]
    exact hun) r)
  unfold relocate at h2
  rw [hl] at h2
  exact h2

theorem Inv.settleMisses (hi : Inv σ) (hp : (σ.op p).phase = .taking c arm drop)
    (ht : (σ.chan c).take p = none) (r) :
    Inv (σ.setPhase p (.withdrawing ((σ.op p).arms.map fun a => a.1) r)) := by
  obtain ⟨-, hnone⟩ | ⟨_, _, _, -, -, -, hs⟩ := take_cases (σ.chan c) p
  · exact hi.setOp (MayBecome.afterTaking hi hp hnone r)
  · cases hs.symm.trans ht

theorem mem_withdraw_sendq (h : o ∈ (s.withdraw p).sendq) : o.p ≠ p := by
  have := (mem_filter.mp h).2
  exact of_decide_eq_true this

theorem mem_withdraw_recvq (h : e ∈ (s.withdraw p).recvq) : e.p ≠ p := by
  have := (mem_filter.mp h).2
  exact of_decide_eq_true this

/-- The owner withdraws from the next channel. -/
theorem Inv.settleWithdraws (hi : Inv σ) {rest r}
    (hp : (σ.op p).phase = .withdrawing (c :: rest) r) :
    Inv ((σ.put c ((σ.chan c).withdraw p) none).setPhase p (.withdrawing rest r)) := by
  have hw : (σ.op p).phase.isWithdrawing = true := by rw [hp]; rfl
  have hi' := hi.withdraws (hi.unfilled (.inr hw) c)
  have hop : (σ.put c ((σ.chan c).withdraw p) none).op = σ.op := rfl
  refine hi'.setOp (.moveOn hi' (by rw [hop, hp]; exact nofun) (by rw [hop, hp]; exact nofun) rfl
    (fun c' a b h hin => ?_) (fun _ => ⟨hi.owners.past p hw, hi'.unfilled (.inr hw)⟩) nofun)
  obtain ⟨ha, hr⟩ := h
  rw [hop, hp] at hr
  refine ⟨ha, (mem_cons.mp hr).resolve_left ?_⟩
  rintro rfl
  obtain ⟨e, he, hep⟩ | ⟨e, he, hep⟩ := hin
  · rw [offersOf_put_self] at he
    change e ∈ _ ++ [] at he
    rw [append_nil] at he
    exact mem_withdraw_sendq he hep
  · rw [put_chan_self] at he
    exact mem_withdraw_recvq he hep

theorem Inv.settleEnds (hi : Inv σ) {r} (hp : (σ.op p).phase = .withdrawing [] r) :
    Inv (σ.setPhase p (.settled r)) := by
  refine hi.setOp (.moveOn hi (by rw [hp]; exact nofun) (by rw [hp]; exact nofun) rfl
    (fun c a b h _ => ?_) nofun nofun)
  have hrest := h.2
  rw [hp] at hrest
  cases hrest

/-! ## Closing -/

/-- A close keeps no offer that was not there. -/
theorem Inv.closing (hi : Inv σ) (closed) {sendq rest}
    (hoff : (sendq ++ rest).Subperm (offersOf σ c)) :
    Inv (σ.put c { σ.chan c with closed, sendq } (some (.closing rest))) :=
  hi.shrink
    { queue := rfl
      sealed := rfl
      got := rfl
      recvq := Sublist.refl _
      offers := hoff
      hand := nil_subperm
      give := nofun
      take := nofun }

theorem Inv.closeStarts (hi : Inv σ) (c) :
    Inv (σ.put c { σ.chan c with closed := true, sendq := [] }
      (some (.closing (σ.chan c).sendq))) :=
  hi.closing true (sublist_append_left _ _).subperm

/-- `close` closes the next drained offer. -/
theorem Inv.closeTurns (hi : Inv σ) {rest} (hl : σ.hold c = some (.closing (o :: rest))) :
    Inv { σ.put c (σ.chan c) (some (.closing rest)) with
      pend := (tryClose σ.pend o.p).getD σ.pend } := by
  have hoff : offersOf σ c = (σ.chan c).sendq ++ o :: rest := by
    rw [offersOf, hl]; rfl
  have hmem : o ∈ offersOf σ c := hoff ▸ mem_append_right _ mem_cons_self
  have harm := ((hi.entries c).offer o hmem).2.1
  have h : Inv (σ.put c (σ.chan c) (some (.closing rest))) := by
    apply hi.closing
    rw [hoff]
    exact ((sublist_cons_self o rest).append_left _).subperm
  refine h.cas o.p (fun _ h => by cases h) ?_ (h.notRepolling harm fun _ _ _ _ => .inr rfl)
  rw [Bool.eq_false_iff]
  intro hf
  rw [(hi.owners.idle o.p hf).1] at harm
  cases harm

theorem Inv.closeEnds (hi : Inv σ) (c : C) : Inv (σ.put c { σ.chan c with
      recvq := (σ.chan c).recvq.filter fun e => e.got.isSome } none) :=
  hi.unlock (Sublist.refl _) filter_sublist
    (filterMap_filter_of_none _ fun _ _ h => isNone_iff_eq_none.mp
      (isSome_eq_false_iff.mp h))

/-! ## Every step, every run -/

/-- **One step keeps the invariant**, whoever takes it. -/
theorem inv_step (hs : Step cap σ σ') (hi : Inv σ) : Inv σ' := by
  cases hs with
  | sendClosed c m offer hl hm ho _ =>
    obtain ⟨hi', hm'⟩ := hi.issue hm
    exact hi'.sendFails hm' hl (hi'.unpublished_of_unused ho) nofun
  | sendPush c m offer hl hm ho _ =>
    obtain ⟨hi', hm'⟩ := hi.issue hm
    exact hi'.sendPushes hm' hl (hi'.unpublished_of_unused ho)
  | sendBlock c m offer hl hm ho _ =>
    obtain ⟨hi', hm'⟩ := hi.issue hm
    exact hi'.offersOrFull hm' hl (hi'.unpublished_of_unused ho)
  | sendGive c m offer hl hm ho _ =>
    obtain ⟨hi', hm'⟩ := hi.issue hm
    have hph : ∀ p, offer = some p →
        (((σ.issue m).setOffer offer (.sending c)).op p).phase = .sending c := by
      rintro p rfl
      exact setOffer_phase _ p _
    have h := (hi'.setOffer (hi'.unpublished_of_unused ho) (.sending c) rfl nofun).startGive
      (hm'.setOffer offer _) (by rw [setOffer_hold]; exact hl) hph
    rw [setOffer_put, setOffer_chan] at h
    exact h
  | giveSkip c i m offer hl _ => exact hi.giveGoesOn hl (i + 1) (Sublist.refl _) rfl
  | giveDead c i m offer hl ht =>
    obtain ⟨e, he, hg⟩ := giveTurn_dead ht
    exact hi.giveGoesOn hl i (eraseIdx_sublist ..) (filterMap_eraseIdx_none _ he hg)
  | giveCommit c i m offer e pend hl ht =>
    obtain ⟨he, hg, hq, rfl⟩ := giveTurn_commit ht
    exact hi.gives hl he hg hq
  | giveExhausted c i m offer hl _ =>
    obtain ⟨hi', hm'⟩ := hi.dropHand hl
    have hu := hi'.unpublished_of_sending (put_hold_self ..)
      ((hi.entries c).giving i m offer hl).2.2
    have h := hi'.offersOrFull hm' (put_hold_self ..) hu
    rw [offerOrFull_put] at h
    exact h
  | recvSealed c r v _ hs _ =>
    rw [(hi.entries c).unsealed] at hs
    cases hs
  | recvFront c r me v q hl _ hq => exact hi.pops hq r me nofun
  | recvEmpty c r me _ _ _ => exact hi.takeGoesOn 0 false r me (Sublist.refl _) nofun
  | repollFront c r p v q hl _ hq hp hpq =>
    exact (hi.repolls hp).pops hq r none (setPhase_receiving hp hpq)
  | repollEmpty c r p hl _ hq hp hpq =>
    exact (hi.repolls hp).takeGoesOn 0 false r none (Sublist.refl _)
      (setPhase_receiving hp hpq)
  | takeSkip c i refill r me own hl _ =>
    exact hi.takeGoesOn (i + 1) refill r me (Sublist.refl _) fun p hp =>
      (hi.entries c).repolling i refill r me p (hp ▸ hl)
  | takeDead c i refill r me own hl _ =>
    exact hi.takeGoesOn i refill r me (eraseIdx_sublist ..) fun p hp =>
      (hi.entries c).repolling i refill r me p (hp ▸ hl)
  | takeRefill c i r me own o pend hl ht =>
    obtain ⟨ho, hq, rfl⟩ := takeTurn_commit ht
    exact hi.takes (b := .buffer c) ⟨rfl, rfl, rfl, .inl ⟨rfl, rfl, rfl⟩⟩ hl ho hq
  | takeCommit c i r me own o pend hl ht =>
    obtain ⟨ho, hq, rfl⟩ := takeTurn_commit ht
    exact hi.takes (b := .received) ⟨rfl, rfl, rfl, .inr ⟨rfl, rfl, map_append⟩⟩ hl ho hq
  | takeExhausted c i refill r me own hl _ => exact hi.receives hl refill
  | closeStart c _ => exact hi.closeStarts c
  | closeTurn c o rest hl => exact hi.closeTurns hl
  | closeEnd c _ => exact hi.closeEnds c
  | block p hp =>
    have hf : (σ.op p).phase.isFresh = true := by rw [hp]; rfl
    exact hi.setOp (MayBecome.of_fresh hi hf (hi.owners.arms p) nofun rfl nofun
      (hi.no_give fun c => by rw [hp]; exact nofun))
  | offerArm p c arm m hl hm hp ha _ _ =>
    obtain ⟨hi', hm'⟩ := hi.issue hm
    have hp' : ((σ.issue m).op p).phase = .active := hp
    exact hi'.publish hm' hl ha (MayBecome.of_live hi' (by rw [hp']; rfl) rfl
      (nodup_arms_append (hi.owners.arms p) ha) (fun a h => mem_append_left _ h)
      (NotRepolling.of_phase hi' (by rw [hp']; exact nofun)))
  | recvArm p c arm hp ha =>
    exact hi.setOp (MayBecome.of_live hi (by rw [hp]; rfl) rfl
      (nodup_arms_append (hi.owners.arms p) ha) (fun a h => mem_append_left _ h)
      (NotRepolling.of_phase hi (by rw [hp]; exact nofun)))
  | slotArm p c arm hl hp ha _ _ _ =>
    exact hi.addSlot hl (entryAt_of_live (by rw [hp]; rfl) ha)
  | settle p drop hp => exact hi.settles drop hp
  | settleTake p c arm drop v s hp hl ht => exact hi.settleTakes hp hl ht _
  | settleMiss p c arm drop hp _ ht => exact hi.settleMisses hp ht _
  | settleWithdraw p c rest r hp _ => exact hi.settleWithdraws hp
  | settleEnd p r hp => exact hi.settleEnds hp

theorem inv_run (hr : Relation.ReflTransGen (Step cap) σ σ') (hi : Inv σ) : Inv σ' := by
  induction hr with
  | refl => exact hi
  | tail _ hs ih => exact inv_step hs ih

theorem reachable_inv (h : Reachable cap σ) : Inv σ := inv_run h inv_init

/-! ## What senders are told is final -/

theorem sendReturns_report (σ : Sys C P M R) (c s m offer r) :
    (σ.sendReturns c s m offer r).report = update σ.report m (some r) := by
  cases offer <;> rfl

theorem recvReturns_report (σ : Sys C P M R) (c s own got) :
    (σ.recvReturns c s own got).report = σ.report := by
  cases own with
  | none => rfl
  | some p => cases got <;> rfl

theorem setOffer_report (σ : Sys C P M R) (offer ph) :
    (σ.setOffer offer ph).report = σ.report := by cases offer <;> rfl

/-- A report for a message that had none changes no other report. -/
theorem report_update {report m' r'} (hm : report m = none) (h : report m' = some r') :
    update report m (some r) m' = some r' := by
  rw [update_of_ne fun he : m' = m => by rw [he, hm] at h; cases h]
  exact h

theorem offerOrFull_report {m'} (hm : σ.report m = none) (h : σ.report m' = some r) :
    (σ.offerOrFull c m offer).report m' = some r := by
  cases offer with
  | none => exact report_update hm h
  | some p => exact h

theorem report_step (hs : Step cap σ σ') (hi : Inv σ) (h : σ.report m = some r) :
    σ'.report m = some r := by
  cases hs with
  | sendClosed c m' offer _ hm _ _ =>
    rw [sendReturns_report]
    exact report_update (hi.fresh m' hm).2.2 h
  | sendPush c m' offer _ hm _ _ =>
    rw [sendReturns_report]
    exact report_update (hi.fresh m' hm).2.2 h
  | sendBlock c m' offer _ hm _ _ => exact offerOrFull_report (hi.fresh m' hm).2.2 h
  | sendGive c m' offer _ _ _ _ => rw [setOffer_report]; exact h
  | giveCommit c i m' offer e pend hl _ =>
    rw [sendReturns_report]
    exact report_update ((hi.entries c).giving i m' offer hl).2.1 h
  | giveExhausted c i m' offer hl _ =>
    exact offerOrFull_report ((hi.entries c).giving i m' offer hl).2.1 h
  | takeRefill | takeCommit | takeExhausted => rw [recvReturns_report]; exact h
  | settle p drop _ =>
    show settleReport σ p (σ.pend p) m = some r
    obtain ⟨hs, -⟩ | ⟨a, ho, hs⟩ := settleReport_cases σ p (σ.pend p) m
    · exact hs.trans h
    · rw [hs, (hi.told.settled m p a r ho h).2]
  | _ => exact h

theorem report_run (hr : Relation.ReflTransGen (Step cap) σ σ') (hi : Inv σ)
    (h : σ.report m = some r) : σ'.report m = some r := by
  induction hr with
  | refl => exact h
  | tail hr hs ih => exact report_step hs (inv_run hr hi) ih

/-! ## Exactly once -/

/-- A position at which a delivered message can be: in a buffer, in a slot, among
    the received messages, or among those discarded with their receive. -/
inductive Seat (C : Type) where
  | buffer (c : C) (i : Nat)
  | slot (c : C) (i : Nat)
  | received (i : Nat)
  | discarded (i : Nat)

def Seat.Holds (σ : Sys C P M R) (m : M) : Seat C → Prop
  | .buffer c i => (σ.chan c).queue[i]? = some m
  | .slot c i => ∃ e, (σ.chan c).recvq[i]? = some e ∧ e.got = some m
  | .received i => ∃ who, σ.received[i]? = some (m, who)
  | .discarded i => σ.discarded[i]? = some m

def Seat.place : Seat C → Place C
  | .buffer c _ => .buffer c
  | .slot c _ => .slots c
  | .received _ => .received
  | .discarded _ => .discarded

theorem Seat.Holds.mem {s} (h : Seat.Holds σ m s) : m ∈ ids σ s.place := by
  cases s with
  | buffer c i => exact mem_of_getElem? h
  | slot c i =>
    obtain ⟨e, he, hg⟩ := h
    exact mem_filterMap.mpr ⟨e, mem_of_getElem? he, hg⟩
  | received i =>
    obtain ⟨who, hw⟩ := h
    exact mem_map.mpr ⟨_, mem_of_getElem? hw, rfl⟩
  | discarded i => exact mem_of_getElem? h

theorem Seat.Holds.delivered {s} (h : Seat.Holds σ m s) : Delivered σ m := by
  have hm := h.mem
  cases s with
  | buffer c i => exact .inl ⟨c, hm⟩
  | slot c i => exact .inr (.inl ⟨c, hm⟩)
  | received i => exact .inr (.inr (.inl hm))
  | discarded i => exact .inr (.inr (.inr hm))

theorem Delivered.exists_seat (h : Delivered σ m) : ∃ s, Seat.Holds σ m s := by
  obtain ⟨c, hc⟩ | ⟨c, hc⟩ | hc | hc := h
  · obtain ⟨i, hi⟩ := mem_iff_getElem?.mp hc
    exact ⟨.buffer c i, hi⟩
  · obtain ⟨e, he, hg⟩ := mem_filterMap.mp hc
    obtain ⟨i, hi⟩ := mem_iff_getElem?.mp he
    exact ⟨.slot c i, e, hi, hg⟩
  · obtain ⟨k, hk, hm⟩ := mem_map.mp hc
    obtain ⟨i, hi⟩ := mem_iff_getElem?.mp hk
    exact ⟨.received i, k.2, by rw [← hm]; exact hi⟩
  · obtain ⟨i, hi⟩ := mem_iff_getElem?.mp hc
    exact ⟨.discarded i, hi⟩

/-- A list whose picked values are distinct picks a value at one index only. -/
theorem filterMap_index_unique {α β : Type} {f} {l : List α} (hn : (l.filterMap f).Nodup) {j}
    {a a' : α} {b : β} (hi : l[i]? = some a) (hj : l[j]? = some a') (ha : f a = some b)
    (ha' : f a' = some b) : i = j := by
  have hpw := pairwise_iff_getElem.mp (pairwise_filterMap.mp hn)
  obtain ⟨hi', rfl⟩ := List.getElem?_eq_some_iff.mp hi
  obtain ⟨hj', rfl⟩ := List.getElem?_eq_some_iff.mp hj
  by_contra hne
  cases Nat.lt_or_gt_of_ne hne with
  | inl h => exact hpw i j hi' hj' h b ha b ha' rfl
  | inr h => exact hpw j i hj' hi' h b ha' b ha rfl

theorem Inv.seat_unique (hi : Inv σ) {s s'} (h : Seat.Holds σ m s) (h' : Seat.Holds σ m s') :
    s = s' := by
  have hp : s.place = s'.place := hi.uniq.inj h.mem h'.mem
  match s, s', hp with
  | .buffer c i, .buffer _ j, rfl =>
    rw [(hi.uniq.position_unique (i := .buffer c) (j := .buffer c) h h').2]
  | .slot c i, .slot _ j, rfl =>
    obtain ⟨e, he, hg⟩ := h
    obtain ⟨e', he', hg'⟩ := h'
    rw [filterMap_index_unique (hi.uniq.nodup (.slots c)) he he' hg hg']
  | .received i, .received j, _ =>
    obtain ⟨who, hw⟩ := h
    obtain ⟨who', hw'⟩ := h'
    rw [(hi.uniq.position_unique (i := .received) (j := .received) (x := m) (m := i) (n := j)
      (by show (σ.received.map Prod.fst)[i]? = _; rw [getElem?_map, hw]; rfl)
      (by show (σ.received.map Prod.fst)[j]? = _; rw [getElem?_map, hw']; rfl)).2]
  | .discarded i, .discarded j, _ =>
    rw [(hi.uniq.position_unique (i := .discarded) (j := .discarded) h h').2]

theorem Inv.commits_le_one (hi : Inv σ) (p) :
    (σ.commits.filter fun k => decide (k.1 = p)).length ≤ 1 := by
  rw [hi.owners.committed p]
  cases σ.pend p with
  | done a => exact Nat.le_refl 1
  | queued | cancelled | closed => exact Nat.zero_le 1

theorem Inv.settled_left (hi : Inv σ) {r} (hp : (σ.op p).phase = .settled r) (c) :
    (∀ o ∈ (σ.chan c).sendq, o.p ≠ p) ∧ ∀ e ∈ (σ.chan c).recvq, e.p ≠ p := by
  have hnone : ∀ a b, ¬ EntryAt (σ.op p) c a b := by
    intro a b h
    have := h.2
    rw [hp] at this
    exact this
  refine ⟨fun o ho heq => ?_, fun e he heq => ?_⟩
  · exact hnone _ _ (heq ▸ ((hi.entries c).offer o (mem_append_left _ ho)).2)
  · exact hnone _ _ (heq ▸ (hi.entries c).slot e he)

/-- **Exactly-once delivery.**  In every state that an interleaving of sends,
    receives, waits, settles and closes reaches: no message is in two positions; a
    message reported as sent is in exactly one; a message reported as cancelled,
    closed or full is in none, nor will it be; a `Pending` has committed at most
    once; and a settled `Pending` has no entry left on any channel. -/
theorem channel_exactly_once (cap : C → Option Nat) {σ : Sys C P M R} (h : Reachable cap σ) :
    (∀ m s s', Seat.Holds σ m s → Seat.Holds σ m s' → s = s') ∧
    (∀ m, σ.report m = some .sent → ∃! s, Seat.Holds σ m s) ∧
    (∀ m r, σ.report m = some r → r ≠ .sent → ∀ σ', Relation.ReflTransGen (Step cap) σ σ' →
      σ'.report m = some r ∧ ∀ s, ¬ Seat.Holds σ' m s) ∧
    (∀ p, (σ.commits.filter fun k => decide (k.1 = p)).length ≤ 1) ∧
    (∀ p r, (σ.op p).phase = .settled r → ∀ c,
      (∀ o ∈ (σ.chan c).sendq, o.p ≠ p) ∧ ∀ e ∈ (σ.chan c).recvq, e.p ≠ p) := by
  have hi := reachable_inv h
  refine ⟨fun m s s' => hi.seat_unique, fun m hm => ?_, fun m r hm hr σ' hrun => ?_,
    hi.commits_le_one, fun p r => hi.settled_left⟩
  · obtain ⟨s, hs⟩ := (hi.told.sent m hm).exists_seat
    exact ⟨s, hs, fun s' hs' => hi.seat_unique hs' hs⟩
  · have hm' := report_run hrun hi hm
    exact ⟨hm', fun s hs => (inv_run hrun hi).told.failed m r hm' hr hs.delivered⟩

/-- Party 1 blocks in a receive on rendezvous channel 0 and message 7 is given to
    it. -/
theorem channel_exactly_once_rendezvous : ∃ σ : Sys Nat Nat Nat Nat,
    Reachable (fun _ => some 0) σ ∧ σ.report 7 = some .sent ∧ σ.pend 1 = .done 0 ∧
      ∃! s, Seat.Holds σ 7 s := by
  have h0 : Reachable (fun _ => some 0) (Sys.init : Sys Nat Nat Nat Nat) := .refl
  have h1 := h0.tail (Step.block _ 1 rfl)
  have h2 := h1.tail (Step.recvArm _ 1 0 0 rfl (by decide))
  have h3 := h2.tail (Step.slotArm _ 1 0 0 rfl rfl (by decide) rfl rfl (by decide))
  have h4 := h3.tail (Step.sendGive _ 0 7 none rfl (by decide) nofun rfl)
  have h5 := h4.tail (Step.giveCommit _ 0 0 7 none ⟨1, 0, none⟩ _ rfl rfl)
  exact ⟨_, h5, rfl, rfl, (channel_exactly_once _ h5).2.1 7 rfl⟩

end ChezziLang.Vm.Channel
