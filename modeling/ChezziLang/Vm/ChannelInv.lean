/-
  The invariant of the channel steps, and the moves that keep it.

  The core of `Inv` is that the places of the system hold every message at most
  once (`Lib/Places.lean`), that a message offered on an arm has been delivered
  exactly when its `Pending` is done on that arm, and that a `Pending` has entries
  only where its owner still has to withdraw.

  The steps of `Vm/Channel.lean` are composed of a few moves: `Inv.shrink`
  (entries disappear or change hands inside one channel), `Inv.cas` (a `Pending`
  is cancelled or closed), `Inv.setOp` (its owner moves on), the moves of a `Loose`
  message (one that is nowhere: pushed, given, offered, or refused), and the
  deliveries `Inv.popFront`, `Inv.takeOffer`, `Inv.takeSlot`.
-/
import ChezziLang.Lib.Places
import ChezziLang.Vm.Channel

set_option linter.unusedSectionVars false

namespace ChezziLang.Vm.Channel

open ChezziLang.Lib.Places Sys Function List Option

variable {C P M R : Type} [DecidableEq C] [DecidableEq P] [DecidableEq M]

/-! ## Where messages are -/

/-- The message of a `give` in progress. -/
def Hold.inHand : Option (Hold P M R) → List M
  | some (.give _ m _) => [m]
  | _ => []

/-- The offers that a `close` in progress has drained and not yet closed. -/
def Hold.drained : Option (Hold P M R) → List (Offer P M)
  | some (.closing rest) => rest
  | _ => []

inductive Place (C : Type) where
  | buffer (c : C)
  | offers (c : C)
  | slots (c : C)
  | hand (c : C)
  | received
  | discarded
  deriving DecidableEq

/-- The channel a place belongs to. -/
def Place.home : Place C → Option C
  | .buffer c => some c
  | .offers c => some c
  | .slots c => some c
  | .hand c => some c
  | .received => none
  | .discarded => none

/-- The offers of channel `c`, those that a `close` is working on included. -/
def offersOf (σ : Sys C P M R) (c : C) : List (Offer P M) :=
  (σ.chan c).sendq ++ Hold.drained (σ.hold c)

def ids (σ : Sys C P M R) : Place C → List M
  | .buffer c => (σ.chan c).queue
  | .offers c => (offersOf σ c).map Offer.v
  | .slots c => (σ.chan c).recvq.filterMap Slot.got
  | .hand c => Hold.inHand (σ.hold c)
  | .received => σ.received.map Prod.fst
  | .discarded => σ.discarded

/-- The message has moved: it is buffered, in a filled slot, received, or
    discarded with the receive that owned its slot. -/
def Delivered (σ : Sys C P M R) (m : M) : Prop :=
  (∃ c, m ∈ ids σ (.buffer c)) ∨ (∃ c, m ∈ ids σ (.slots c)) ∨ m ∈ ids σ .received ∨
    m ∈ ids σ .discarded

/-- The owner of an entry on `(c, arm)` will still look at channel `c`. -/
def EntryAt (o : PendingOp C M) (c : C) (arm : Nat) (send : Bool) : Prop :=
  (c, arm, send) ∈ o.arms ∧
    match o.phase with
    | .withdrawing rest _ => c ∈ rest
    | .settled _ => False
    | _ => True

/-- The owner is past taking its filled slot. -/
def Phase.isWithdrawing : Phase C M → Bool
  | .withdrawing _ _ => true
  | _ => false

/-- The `Pending` belongs to a channel operation that has not returned. -/
def Phase.isFresh : Phase C M → Bool
  | .unused => true
  | .sending _ => true
  | _ => false

/-- The commits of one `Pending` that its state stands for. -/
def PState.commits (p : P) : PState → List (P × Nat)
  | .done a => [(p, a)]
  | _ => []

/-! ## The invariant -/

section

variable (op : P → PendingOp C M) (pend : P → PState) (origin : M → Option (P × Nat))

/-- What holds of one channel and the operation that holds its lock. -/
structure Entries
    (report : M → Option Report) (c : C) (s : ChanState P M) (h : Option (Hold P M R)) :
    Prop where
  offer : ∀ o ∈ s.sendq ++ Hold.drained h,
    origin o.v = some (o.p, o.arm) ∧ EntryAt (op o.p) c o.arm true
  slot : ∀ e ∈ s.recvq, EntryAt (op e.p) c e.arm false
  filled : ∀ e ∈ s.recvq, e.got.isSome →
    pend e.p = .done e.arm ∧ (op e.p).phase.isWithdrawing = false
  once : s.recvq.Pairwise fun a b => a.got.isSome → b.got.isSome → a.p ≠ b.p
  giving : ∀ i m offer, h = some (.give i m offer) →
    origin m = none ∧ report m = none ∧ ∀ p, offer = some p → (op p).phase = .sending c
  repolling : ∀ i refill r me p, h = some (.take i refill r me (some p)) →
    op p = ⟨[(c, 0, false)], .receiving⟩ ∧ pend p = .queued
  unsealed : s.sealed = false

/-- What holds of the parties: the arms of a `Pending` are distinct, it is done
    on one of them at most, and each offered message has its own arm. -/
structure Owners
    (commits : List (P × Nat)) : Prop where
  arms : ∀ p, ((op p).arms.map fun a => a.2.1).Nodup
  idle : ∀ p, (op p).phase.isFresh = true → (op p).arms = [] ∧ pend p = .queued
  past : ∀ p, (op p).phase.isWithdrawing = true → pend p ≠ .queued
  taking : ∀ p c a d, (op p).phase = .taking c a d →
    pend p = .done a ∧ (c, a, false) ∈ (op p).arms
  doneArm : ∀ p a, pend p = .done a → ∃ c b, (c, a, b) ∈ (op p).arms
  originArm : ∀ m p a, origin m = some (p, a) → ∃ c, (c, a, true) ∈ (op p).arms
  originInj : ∀ m m' p a, origin m = some (p, a) → origin m' = some (p, a) → m = m'
  committed : ∀ p, commits.filter (fun k => decide (k.1 = p)) = (pend p).commits p

end

/-- What senders are told agrees with where their messages are. -/
structure Told (delivered : M → Prop) (pend : P → PState) (origin : M → Option (P × Nat))
    (report : M → Option Report) : Prop where
  done : ∀ m p a, origin m = some (p, a) → (delivered m ↔ pend p = .done a)
  sent : ∀ m, report m = some .sent → delivered m
  failed : ∀ m r, report m = some r → r ≠ .sent → ¬ delivered m
  settled : ∀ m p a r, origin m = some (p, a) → report m = some r →
    pend p ≠ .queued ∧ r = .of (pend p) a

structure Inv (σ : Sys C P M R) : Prop where
  uniq : Unique (ids σ)
  fresh : ∀ m, m ∉ σ.issued → (∀ pl, m ∉ ids σ pl) ∧ σ.origin m = none ∧ σ.report m = none
  entries : ∀ c, Entries σ.op σ.pend σ.origin σ.report c (σ.chan c) (σ.hold c)
  owners : Owners σ.op σ.pend σ.origin σ.commits
  told : Told (Delivered σ) σ.pend σ.origin σ.report

theorem inv_init : Inv (Sys.init : Sys C P M R) where
  uniq := Unique.empty.mono fun pl => by cases pl <;> exact Subperm.refl []
  fresh := fun m _ => ⟨fun pl => by cases pl <;> exact not_mem_nil, rfl, rfl⟩
  entries := fun c =>
    { offer := fun _ ho => absurd ho not_mem_nil
      slot := fun _ he => absurd he not_mem_nil
      filled := fun _ he => absurd he not_mem_nil
      once := List.Pairwise.nil
      giving := nofun
      repolling := nofun
      unsealed := rfl }
  owners :=
    { arms := fun _ => nodup_nil
      idle := fun _ _ => ⟨rfl, rfl⟩
      past := nofun
      taking := nofun
      doneArm := nofun
      originArm := nofun
      originInj := nofun
      committed := fun _ => rfl }
  told :=
    { done := nofun
      sent := nofun
      failed := nofun
      settled := fun _ _ _ _ h => by cases h }

variable {report : M → Option Report} {origin : M → Option (P × Nat)} {D D' : M → Prop}
  {received : List (M × Receiver P R)} {arm i : Nat} {b : Place C} {m : M} {p : P} {σ : Sys C P M R}
  {s : ChanState P M} {h : Option (Hold P M R)} {c : C} {pend : P → PState}

section
variable {α β : Type} [DecidableEq α] {x y : α} {k k' : β}

theorem update_eq_some {f : α → Option β} (h : update f x (some k) y = some k') :
    y = x ∧ k' = k ∨ y ≠ x ∧ f y = some k' := by
  by_cases he : y = x
  · rw [he, update_self, some_inj] at h
    exact .inl ⟨he, h.symm⟩
  · rw [update_of_ne he] at h
    exact .inr ⟨he, h⟩

end

theorem Told.congr (h : Told D pend origin report) (hD : ∀ m, D' m ↔ D m) :
    Told D' pend origin report where
  done := fun m p a ho => (hD m).trans (h.done m p a ho)
  sent := fun m hm => (hD m).mpr (h.sent m hm)
  failed := fun m r hm hr hd => h.failed m r hm hr ((hD m).mp hd)
  settled := h.settled

/-! ## Replacing one channel -/

section
variable (σ : Sys C P M R) (c : C) (s : ChanState P M) (h : Option (Hold P M R))

@[simp] theorem put_chan_self : (σ.put c s h).chan c = s := update_self ..

@[simp] theorem put_hold_self : (σ.put c s h).hold c = h := update_self ..

theorem put_put (s') (h' : Option (Hold P M R)) : (σ.put c s h).put c s' h' = σ.put c s' h' := by
  unfold put
  simp only [update_idem]

theorem put_self : σ.put c (σ.chan c) (σ.hold c) = σ := by
  unfold put
  rw [update_eq_self, update_eq_self]

theorem offersOf_put_self : offersOf (σ.put c s h) c = s.sendq ++ Hold.drained h := by
  unfold offersOf
  rw [put_chan_self, put_hold_self]

@[simp] theorem ids_put_buffer : ids (σ.put c s h) (.buffer c) = s.queue :=
  congrArg ChanState.queue (put_chan_self σ c s h)

@[simp] theorem ids_put_offers :
    ids (σ.put c s h) (.offers c) = (s.sendq ++ Hold.drained h).map Offer.v :=
  congrArg (map Offer.v) (offersOf_put_self σ c s h)

@[simp] theorem ids_put_slots : ids (σ.put c s h) (.slots c) = s.recvq.filterMap Slot.got :=
  congrArg (fun t : ChanState P M => t.recvq.filterMap Slot.got) (put_chan_self σ c s h)

@[simp] theorem ids_put_hand : ids (σ.put c s h) (.hand c) = Hold.inHand h :=
  congrArg Hold.inHand (put_hold_self σ c s h)

variable {c} {c' : C}

theorem put_chan_ne (hc : c' ≠ c) : (σ.put c s h).chan c' = σ.chan c' := update_of_ne hc ..

theorem put_hold_ne (hc : c' ≠ c) : (σ.put c s h).hold c' = σ.hold c' := update_of_ne hc ..

theorem offersOf_put_ne (hc : c' ≠ c) : offersOf (σ.put c s h) c' = offersOf σ c' := by
  unfold offersOf
  rw [put_chan_ne σ s h hc, put_hold_ne σ s h hc]

/-- The places of a channel other than the replaced one are as before. -/
theorem ids_put_ne (pl) (hne : pl.home ≠ some c) : ids (σ.put c s h) pl = ids σ pl := by
  have hc : ∀ c', pl.home = some c' → c' ≠ c := fun c' hp he => hne (he ▸ hp)
  cases pl with
  | buffer c' => simp only [ids, put_chan_ne σ s h (hc c' rfl)]
  | offers c' => simp only [ids, offersOf_put_ne σ s h (hc c' rfl)]
  | slots c' => simp only [ids, put_chan_ne σ s h (hc c' rfl)]
  | hand c' => simp only [ids, put_hold_ne σ s h (hc c' rfl)]
  | received | discarded => rfl

variable (c)

/-- A bound for every place of `σ.put c s h`, from the four places of `c`. -/
theorem subperm_put (g : Place C → List M) (hb : s.queue.Subperm (g (.buffer c)))
    (ho : ((s.sendq ++ Hold.drained h).map Offer.v).Subperm (g (.offers c)))
    (hs : (s.recvq.filterMap Slot.got).Subperm (g (.slots c)))
    (hh : (Hold.inHand h).Subperm (g (.hand c)))
    (hne : ∀ pl, pl.home ≠ some c → (ids σ pl).Subperm (g pl)) (pl) :
    (ids (σ.put c s h) pl).Subperm (g pl) := by
  by_cases hc : pl.home = some c
  · cases pl with
    | buffer c' => cases hc; rw [ids_put_buffer]; exact hb
    | offers c' => cases hc; rw [ids_put_offers]; exact ho
    | slots c' => cases hc; rw [ids_put_slots]; exact hs
    | hand c' => cases hc; rw [ids_put_hand]; exact hh
    | received | discarded => cases hc
  · rw [ids_put_ne σ s h pl hc]
    exact hne pl hc

/-- Delivered without the buffer and the slots of channel `c`. -/
def DeliveredElse (σ : Sys C P M R) (c : C) (m : M) : Prop :=
  (∃ c', c' ≠ c ∧ (m ∈ ids σ (.buffer c') ∨ m ∈ ids σ (.slots c'))) ∨ m ∈ ids σ .received ∨
    m ∈ ids σ .discarded

theorem delivered_iff (m) :
    Delivered σ m ↔ m ∈ ids σ (.buffer c) ∨ m ∈ ids σ (.slots c) ∨ DeliveredElse σ c m := by
  have hsplit : ∀ Q : C → Prop, (∃ c', Q c') ↔ Q c ∨ ∃ c', c' ≠ c ∧ Q c' := by
    refine fun Q => ⟨fun ⟨c', h⟩ => ?_, fun h => h.elim (⟨c, ·⟩) fun ⟨c', _, h⟩ => ⟨c', h⟩⟩
    by_cases he : c' = c
    · exact .inl (he ▸ h)
    · exact .inr ⟨c', he, h⟩
  simp only [Delivered, DeliveredElse, hsplit fun c' => m ∈ ids σ (.buffer c'),
    hsplit fun c' => m ∈ ids σ (.slots c'), and_or_left, exists_or]
  exact iff_of_eq (by ac_rfl)

theorem deliveredElse_put (m) : DeliveredElse (σ.put c s h) c m ↔ DeliveredElse σ c m := by
  refine or_congr (exists_congr fun c' => and_congr_right fun hc => ?_) .rfl
  rw [ids_put_ne σ s h (.buffer c') fun he => hc (some_inj.mp he),
    ids_put_ne σ s h (.slots c') fun he => hc (some_inj.mp he)]

theorem delivered_put_iff (m) : Delivered (σ.put c s h) m ↔
    m ∈ s.queue ∨ m ∈ s.recvq.filterMap Slot.got ∨ DeliveredElse σ c m := by
  rw [delivered_iff _ c, ids_put_buffer, ids_put_slots, deliveredElse_put]

theorem delivered_put (m) (hb : m ∈ s.queue ↔ m ∈ ids σ (.buffer c))
    (hs : m ∈ s.recvq.filterMap Slot.got ↔ m ∈ ids σ (.slots c)) :
    Delivered (σ.put c s h) m ↔ Delivered σ m := by
  rw [delivered_put_iff, delivered_iff σ c, hb, hs]

theorem forall_put (Q : C → ChanState P M → Option (Hold P M R) → Prop) (hc : Q c s h)
    (hne : ∀ c', c' ≠ c → Q c' (σ.chan c') (σ.hold c')) (c') :
    Q c' ((σ.put c s h).chan c') ((σ.put c s h).hold c') := by
  by_cases he : c' = c
  · rw [he, put_chan_self, put_hold_self]; exact hc
  · rw [put_chan_ne σ s h he, put_hold_ne σ s h he]; exact hne c' he

end

/-- A part of the send queue is a part of the offers. -/
theorem offers_subperm (σ : Sys C P M R) (c) (hd : Hold.drained h = []) {q}
    (hq : q.Sublist (σ.chan c).sendq) : (q ++ Hold.drained h).Subperm (offersOf σ c) := by
  rw [hd, append_nil]
  exact (hq.trans (sublist_append_left _ _)).subperm

theorem Inv.entries_put (hi : Inv σ) (hs : Entries σ.op σ.pend σ.origin σ.report c s h) (c' : C) :
    Entries σ.op σ.pend σ.origin σ.report c' ((σ.put c s h).chan c') ((σ.put c s h).hold c') :=
  forall_put σ c s h (Entries σ.op σ.pend σ.origin σ.report) hs (fun c' _ => hi.entries c') c'

/-! ## Entries disappear -/

/-- What a channel operation may do to its channel without moving a message:
    offers and unfilled slots disappear, or pass from the queue to a `close`. -/
structure Shrinks (σ : Sys C P M R) (c : C) (s : ChanState P M) (h : Option (Hold P M R)) :
    Prop where
  queue : s.queue = (σ.chan c).queue
  sealed : s.sealed = (σ.chan c).sealed
  got : s.recvq.filterMap Slot.got = (σ.chan c).recvq.filterMap Slot.got
  recvq : s.recvq.Sublist (σ.chan c).recvq
  offers : (s.sendq ++ Hold.drained h).Subperm (offersOf σ c)
  hand : (Hold.inHand h).Subperm (ids σ (.hand c))
  give : ∀ i m offer, h = some (.give i m offer) → σ.origin m = none ∧ σ.report m = none ∧
    ∀ p, offer = some p → (σ.op p).phase = .sending c
  take : ∀ i refill r me p, h = some (.take i refill r me (some p)) →
    σ.op p = ⟨[(c, 0, false)], .receiving⟩ ∧ σ.pend p = .queued

theorem Shrinks.unlock {q q'} (hs : q.Sublist (σ.chan c).sendq)
    (hs' : q'.Sublist (σ.chan c).recvq)
    (hg : q'.filterMap Slot.got = (σ.chan c).recvq.filterMap Slot.got) :
    Shrinks σ c { σ.chan c with sendq := q, recvq := q' } none where
  queue := rfl
  sealed := rfl
  got := hg
  recvq := hs'
  offers := offers_subperm σ c rfl hs
  hand := nil_subperm
  give := nofun
  take := nofun

theorem Shrinks.ids (hs : Shrinks σ c s h) (pl : Place C) :
    (ids (σ.put c s h) pl).Subperm (Channel.ids σ pl) :=
  subperm_put σ c s h _ (hs.queue ▸ Subperm.refl _) (subperm_map _ hs.offers)
    (hs.got ▸ Subperm.refl _) hs.hand (fun _ _ => Subperm.refl _) pl

theorem Shrinks.entries (hs : Shrinks σ c s h) (hi : Inv σ) :
    Entries σ.op σ.pend σ.origin σ.report c s h where
  offer := fun o ho => (hi.entries c).offer o (hs.offers.subset ho)
  slot := fun e he => (hi.entries c).slot e (hs.recvq.subset he)
  filled := fun e he => (hi.entries c).filled e (hs.recvq.subset he)
  once := (hi.entries c).once.sublist hs.recvq
  giving := hs.give
  repolling := hs.take
  unsealed := hs.sealed.trans (hi.entries c).unsealed

theorem Inv.shrink (hi : Inv σ) (hs : Shrinks σ c s h) : Inv (σ.put c s h) where
  uniq := hi.uniq.mono hs.ids
  fresh := fun m hm => ⟨fun pl hin => (hi.fresh m hm).1 pl ((hs.ids pl).subset hin),
    (hi.fresh m hm).2⟩
  entries := hi.entries_put (hs.entries hi)
  owners := hi.owners
  told := hi.told.congr fun m =>
    delivered_put σ c s h m (by rw [hs.queue]; rfl) (by rw [hs.got]; rfl)

/-! ## A pending is cancelled or closed -/

/-- No receive in progress will withdraw an entry of `p`. -/
def NotRepolling (σ : Sys C P M R) (p : P) : Prop :=
  ∀ c i refill r me, σ.hold c ≠ some (.take i refill r me (some p))

variable {commits : List (P × Nat)} {st : PState} {offer : Option P} {e : Slot P M} {a : Place C}
  {x : M} {o : Offer P M}

section
variable {pend : P → PState} {p : P} {st : PState}

theorem Entries.setPend {op} (he : Entries op pend origin report c s h) (hq : pend p = .queued) (st)
    (hr : ∀ i refill r me, h ≠ some (.take i refill r me (some p))) :
    Entries op (update pend p st) origin report c s h :=
  { he with
    filled := fun e hm hg => by
      obtain ⟨hd, hw⟩ := he.filled e hm hg
      have hqp : e.p ≠ p := fun heq => by rw [heq, hq] at hd; cases hd
      exact ⟨(update_of_ne hqp ..).trans hd, hw⟩
    repolling := fun i refill r me q hh => by
      have hqp : q ≠ p := fun heq => hr i refill r me (heq ▸ hh)
      obtain ⟨hop, hpq⟩ := he.repolling i refill r me q hh
      exact ⟨hop, (update_of_ne hqp ..).trans hpq⟩ }

/-- A queued `Pending` is decided. -/
theorem Owners.decide {op : P → PendingOp C M} (ho : Owners op pend origin commits)
    (hq : pend p = .queued) (hph : (op p).phase.isFresh = false)
    (harm : ∀ a, st = .done a → ∃ c b, (c, a, b) ∈ (op p).arms) {commits'}
    (hc : ∀ q, commits'.filter (fun k => Decidable.decide (k.1 = q)) =
      (update pend p st q).commits q) :
    Owners op (update pend p st) origin commits' := by
  have hkeep : ∀ q, pend q ≠ .queued → update pend p st q = pend q :=
    fun q h => update_of_ne (fun he : q = p => h (he ▸ hq)) ..
  exact
    { ho with
      idle := fun q hf => by
        have hqp : q ≠ p := fun he => by rw [he, hph] at hf; cases hf
        exact ⟨(ho.idle q hf).1, (update_of_ne hqp ..).trans (ho.idle q hf).2⟩
      past := fun q hw => by rw [hkeep q (ho.past q hw)]; exact ho.past q hw
      taking := fun q c a d h => by
        obtain ⟨hd, ha⟩ := ho.taking q c a d h
        exact ⟨(hkeep q (by rw [hd]; nofun)).trans hd, ha⟩
      doneArm := fun q a h => by
        by_cases he : q = p
        · rw [he, update_self] at h
          exact he ▸ harm a h
        · rw [update_of_ne he] at h
          exact ho.doneArm q a h
      committed := hc }

/-- With a decision exactly the messages offered on the arm it names are delivered. -/
theorem Told.decide (ht : Told D pend origin report) (hq : pend p = .queued)
    (hnew : ∀ m a, origin m = some (p, a) → (D' m ↔ st = .done a))
    (hold : ∀ m, (∀ a, origin m ≠ some (p, a)) → (D' m ↔ D m)) :
    Told D' (update pend p st) origin report := by
  -- the owner has told nothing yet
  have hrep : ∀ m r, report m = some r → ∀ a, origin m ≠ some (p, a) :=
    fun m r h a ho => (ht.settled m p a r ho h).1 hq
  refine ⟨fun m q a h => ?_, fun m h => (hold m (hrep m _ h)).mpr (ht.sent m h),
    fun m r h hr => ?_, fun m q a r h hr => ?_⟩
  · by_cases he : q = p
    · rw [he, update_self]
      exact hnew m a (he ▸ h)
    · rw [update_of_ne he, ← ht.done m q a h]
      exact hold m fun a' h' => he (congrArg Prod.fst (some_inj.mp (h.symm.trans h')))
  · rw [hold m (hrep m r h)]
    exact ht.failed m r h hr
  · rw [update_of_ne fun he : q = p => hrep m r hr a (he ▸ h)]
    exact ht.settled m q a r h hr

end

theorem Inv.cas (hi : Inv σ) (p) (hst : ∀ a, st ≠ .done a) (hph : (σ.op p).phase.isFresh = false)
    (hr : NotRepolling σ p) : Inv { σ with pend := (compareExchange σ.pend p st).getD σ.pend } := by
  unfold compareExchange
  by_cases hq : σ.pend p = .queued
  · rw [if_pos hq]
    exact
      { uniq := hi.uniq
        fresh := hi.fresh
        entries := fun c => (hi.entries c).setPend hq st (hr c)
        owners := hi.owners.decide hq hph (fun a h => absurd h (hst a)) fun q => by
          rw [hi.owners.committed q]
          by_cases he : q = p
          · rw [he, update_self, hq]
            cases st with
            | done a => exact absurd rfl (hst a)
            | queued | cancelled | closed => rfl
          · rw [update_of_ne he]
        told := hi.told.decide hq (fun m a ho => by
          refine (hi.told.done m p a ho).trans ?_
          rw [hq]
          exact iff_of_false nofun (hst a)) fun _ _ => .rfl }
  · rw [if_neg hq]; exact hi

/-! ## The owner of a pending moves on -/

/-- The owner of `p` may go to `o`: its entries are still looked after, and no
    operation in progress depends on where it was. -/
structure MayBecome (σ : Sys C P M R) (p : P) (o : PendingOp C M) : Prop where
  arms : (o.arms.map fun a => a.2.1).Nodup
  mono : ∀ a ∈ (σ.op p).arms, a ∈ o.arms
  offer : ∀ c, ∀ e ∈ offersOf σ c, e.p = p → EntryAt o c e.arm true
  slot : ∀ c, ∀ e ∈ (σ.chan c).recvq, e.p = p → EntryAt o c e.arm false
  filled : o.phase.isWithdrawing = true → ∀ c, ∀ e ∈ (σ.chan c).recvq, e.p = p → e.got = none
  idle : o.phase.isFresh = true → o.arms = [] ∧ σ.pend p = .queued
  past : o.phase.isWithdrawing = true → σ.pend p ≠ .queued
  taking : ∀ c a d, o.phase = .taking c a d → σ.pend p = .done a ∧ (c, a, false) ∈ o.arms
  give : ∀ c i m, σ.hold c = some (.give i m (some p)) → o.phase = .sending c
  take : NotRepolling σ p

theorem MayBecome.entries {o} (hm : MayBecome σ p o) (hi : Inv σ) (c) :
    Entries (update σ.op p o) σ.pend σ.origin σ.report c (σ.chan c) (σ.hold c) := by
  have he := hi.entries c
  have hall : ∀ (q : P) (Q : PendingOp C M → Prop), (q = p → Q o) → Q (σ.op q) →
      Q (update σ.op p o q) := by
    intro q Q ho hq
    by_cases hp : q = p
    · rw [hp, update_self]; exact ho hp
    · rw [update_of_ne hp]; exact hq
  refine { he with
    offer := fun e hin => ⟨(he.offer e hin).1,
      hall e.p (EntryAt · c e.arm true) (hm.offer c e hin) (he.offer e hin).2⟩
    slot := fun e hin => hall e.p (EntryAt · c e.arm false) (hm.slot c e hin) (he.slot e hin)
    filled := fun e hin hg => ⟨(he.filled e hin hg).1,
      hall e.p (·.phase.isWithdrawing = false) (fun hp => ?_) (he.filled e hin hg).2⟩
    giving := fun i m offer hh => ?_
    repolling := fun i refill r me q hh => ?_ }
  · rw [Bool.eq_false_iff]
    intro hw
    rw [hm.filled hw c e hin hp] at hg
    cases hg
  · obtain ⟨ho, hr, hp⟩ := he.giving i m offer hh
    exact ⟨ho, hr, fun q hq =>
      hall q (·.phase = .sending c) (fun heq => hm.give c i m (heq ▸ hq ▸ hh)) (hp q hq)⟩
  · obtain ⟨hop, hpq⟩ := he.repolling i refill r me q hh
    exact ⟨hall q (· = _) (fun heq => absurd (heq ▸ hh) (hm.take c i refill r me)) hop, hpq⟩

theorem MayBecome.owners {o} (hm : MayBecome σ p o) (hi : Inv σ) :
    Owners (update σ.op p o) σ.pend σ.origin σ.commits := by
  have hall : ∀ Q : P → PendingOp C M → Prop, Q p o → (∀ q, Q q (σ.op q)) →
      ∀ q, Q q (update σ.op p o q) := fun Q ho hq =>
    (forall_update_iff σ.op Q).mpr ⟨ho, fun q _ => hq q⟩
  have hmono : ∀ q, ∀ a ∈ (σ.op q).arms, a ∈ (update σ.op p o q).arms :=
    hall (fun q x => ∀ a ∈ (σ.op q).arms, a ∈ x.arms) hm.mono fun _ _ ha => ha
  exact
    { hi.owners with
      arms := hall (fun _ x => (x.arms.map fun a => a.2.1).Nodup) hm.arms hi.owners.arms
      idle := hall (fun q x => x.phase.isFresh = true → x.arms = [] ∧ σ.pend q = .queued) hm.idle
        hi.owners.idle
      past := hall (fun q x => x.phase.isWithdrawing = true → σ.pend q ≠ .queued) hm.past
        hi.owners.past
      taking := hall (fun q x => ∀ c a d, x.phase = .taking c a d →
        σ.pend q = .done a ∧ (c, a, false) ∈ x.arms) hm.taking hi.owners.taking
      doneArm := fun q a h => by
        obtain ⟨c, b, hc⟩ := hi.owners.doneArm q a h
        exact ⟨c, b, hmono q _ hc⟩
      originArm := fun m q a h => by
        obtain ⟨c, hc⟩ := hi.owners.originArm m q a h
        exact ⟨c, hmono q _ hc⟩ }

theorem Inv.setOp (hi : Inv σ) {o} (hm : MayBecome σ p o) :
    Inv { σ with op := update σ.op p o } where
  uniq := hi.uniq
  fresh := hi.fresh
  entries := hm.entries hi
  owners := hm.owners hi
  told := hi.told

/-! ## Loose messages -/

/-- A message that was issued and is nowhere yet. -/
structure Loose (σ : Sys C P M R) (m : M) : Prop where
  issued : m ∈ σ.issued
  nowhere : ∀ pl, m ∉ ids σ pl
  origin : σ.origin m = none
  report : σ.report m = none

theorem Inv.issue (hi : Inv σ) (hm : m ∉ σ.issued) : Inv (σ.issue m) ∧ Loose (σ.issue m) m := by
  obtain ⟨hpl, ho, hr⟩ := hi.fresh m hm
  exact ⟨⟨hi.uniq, fun m' hm' => hi.fresh m' fun h => hm' (mem_cons_of_mem m h),
    hi.entries, hi.owners, hi.told⟩, mem_cons_self, hpl, ho, hr⟩

theorem Loose.not_delivered (h : Loose σ m) : ¬ Delivered σ m := by
  intro hd
  obtain ⟨c, hc⟩ | ⟨c, hc⟩ | hc | hc := hd <;> exact h.nowhere _ hc

theorem mem_hand (σ : Sys C P M R) (h : σ.hold c = some (.give i m offer)) :
    m ∈ ids σ (.hand c) := by
  show m ∈ Hold.inHand (σ.hold c)
  rw [h]
  exact mem_singleton.mpr rfl

/-- Telling the sender of a loose message touches no operation in progress. -/
theorem Loose.entries_tell (hm : Loose σ m) (hi : Inv σ) (r : Report) (c) :
    Entries σ.op σ.pend σ.origin (update σ.report m (some r)) c (σ.chan c)
      (σ.hold c) :=
  { hi.entries c with
    giving := fun i m' offer hh => by
      have he : m' ≠ m := fun he => hm.nowhere _ (he ▸ mem_hand σ hh)
      obtain ⟨ho, hrep, hp⟩ := (hi.entries c).giving i m' offer hh
      exact ⟨ho, (update_of_ne he ..).trans hrep, hp⟩ }

theorem Loose.fresh_tell (hm : Loose σ m) (hi : Inv σ) (r) {m'} (hm' : m' ∉ σ.issued) :
    update σ.report m (some r) m' = none := by
  rw [update_of_ne fun he : m' = m => hm' (he ▸ hm.issued)]
  exact (hi.fresh m' hm').2.2

/-- A loose message gets its report, `sent` if it has just been delivered. -/
theorem Told.tell (ht : Told D pend origin report) (ho : origin m = none) {r}
    (hr : r = .sent ↔ D' m) (hD : ∀ m', m' ≠ m → (D' m' ↔ D m')) :
    Told D' pend origin (update report m (some r)) := by
  have hne : ∀ m' p a, origin m' = some (p, a) → m' ≠ m := by
    intro m' p a h he
    rw [he, ho] at h
    cases h
  refine ⟨fun m' p a h => (hD m' (hne m' p a h)).trans (ht.done m' p a h), fun m' h => ?_,
    fun m' r' h hr' => ?_, fun m' p a r' h hrep => ?_⟩
  · obtain ⟨rfl, hs⟩ | ⟨he, h⟩ := update_eq_some h
    · exact hr.mp hs.symm
    · exact (hD m' he).mpr (ht.sent m' h)
  · obtain ⟨rfl, rfl⟩ | ⟨he, h⟩ := update_eq_some h
    · rw [← hr]; exact hr'
    · rw [hD m' he]; exact ht.failed m' r' h hr'
  · rw [update_of_ne (hne m' p a h)] at hrep
    exact ht.settled m' p a r' h hrep

/-- A loose message has been delivered, and nothing else has happened. -/
theorem Told.tellSent (ht : Told D pend origin report) (ho : origin m = none)
    (hD : ∀ m', D' m' ↔ m' = m ∨ D m') :
    Told D' pend origin (update report m (some .sent)) :=
  ht.tell ho (iff_of_true rfl ((hD m).mpr (.inl rfl))) fun m' he => (hD m').trans (or_iff_right he)

/-- A refused message stays nowhere. -/
theorem Inv.tellFailed (hi : Inv σ) (hm : Loose σ m) {r} (hr : r ≠ .sent) : Inv (σ.tell m r) where
  uniq := hi.uniq
  fresh := fun m' hm' => ⟨(hi.fresh m' hm').1, (hi.fresh m' hm').2.1, hm.fresh_tell hi r hm'⟩
  entries := hm.entries_tell hi r
  owners := hi.owners
  told := hi.told.tell hm.origin (iff_of_false hr hm.not_delivered) fun _ _ => .rfl

/-- Freshness when the places gained `m` only. -/
theorem Loose.fresh_insert (hm : Loose σ m) (hi : Inv σ) {f : Place C → List M}
    (hids : ∀ pl, (f pl).Subperm (if pl = b then m :: ids σ pl else ids σ pl)) {m'}
    (hm' : m' ∉ σ.issued) (pl) : m' ∉ f pl := by
  intro hin
  have hmem := (hids pl).subset hin
  split at hmem
  · cases mem_cons.mp hmem with
    | inl he => exact hm' (he ▸ hm.issued)
    | inr h => exact (hi.fresh m' hm').1 pl h
  · exact (hi.fresh m' hm').1 pl hmem

theorem push_ids (σ : Sys C P M R) (c m pl) : (ids (σ.put c ((σ.chan c).push m) none) pl).Subperm
      (if pl = .buffer c then m :: ids σ pl else ids σ pl) := by
  refine subperm_put σ c _ _ (fun pl => if pl = .buffer c then m :: ids σ pl else ids σ pl)
    ?_ ?_ ?_ ?_ (fun pl hpl => ?_) pl
  · rw [if_pos rfl]
    exact (perm_append_singleton m (σ.chan c).queue).subperm
  · exact subperm_map _ (offers_subperm σ c rfl (Sublist.refl _))
  · exact Subperm.refl _
  · exact nil_subperm
  · rw [if_neg fun he => hpl (by rw [he]; rfl)]

/-- A loose message is buffered, and its sender is told so. -/
theorem Inv.push (hi : Inv σ) (hm : Loose σ m) (hl : σ.hold c = none) :
    Inv ((σ.put c ((σ.chan c).push m) none).tell m .sent) where
  uniq := hi.uniq.insert hm.nowhere (.buffer c) (push_ids σ c m)
  fresh := fun m' hm' => ⟨hm.fresh_insert hi (push_ids σ c m) hm', (hi.fresh m' hm').2.1,
    hm.fresh_tell hi .sent hm'⟩
  entries := by
    have he := hm.entries_tell hi .sent
    refine forall_put σ c _ _ (Entries _ _ _ _) ?_ fun c' _ => he c'
    have hc := he c
    rw [hl] at hc
    exact { hc with }
  owners := hi.owners
  told := hi.told.tellSent hm.origin fun m' => by
    show Delivered (σ.put c _ none) m' ↔ _
    rw [delivered_put_iff, delivered_iff σ c]
    show m' ∈ (σ.chan c).queue ++ [m] ∨ m' ∈ ids σ (.slots c) ∨ _ ↔ _
    rw [mem_append, mem_singleton]
    tauto

/-- A loose message is taken in hand by a `give`. -/
theorem Inv.startGive (hi : Inv σ) (hm : Loose σ m) (hl : σ.hold c = none)
    (ho : ∀ p, offer = some p → (σ.op p).phase = .sending c) :
    Inv (σ.put c (σ.chan c) (some (.give 0 m offer))) := by
  have hids : ∀ pl, (ids (σ.put c (σ.chan c) (some (.give 0 m offer))) pl).Subperm
      (if pl = .hand c then m :: ids σ pl else ids σ pl) := by
    refine subperm_put σ c _ _ (fun pl => if pl = .hand c then m :: ids σ pl else ids σ pl)
      ?_ ?_ ?_ ?_ fun pl hpl => ?_
    · exact Subperm.refl _
    · exact subperm_map _ (offers_subperm σ c rfl (Sublist.refl _))
    · exact Subperm.refl _
    · rw [if_pos rfl]
      exact (subperm_cons m).mpr nil_subperm
    · rw [if_neg fun he => hpl (by rw [he]; rfl)]
  exact
    { uniq := hi.uniq.insert hm.nowhere (.hand c) hids
      fresh := fun m' hm' => ⟨hm.fresh_insert hi hids hm', (hi.fresh m' hm').2⟩
      entries := by
        have hc := hi.entries c
        rw [hl] at hc
        refine hi.entries_put { hc with giving := fun i m' offer' h => ?_, repolling := nofun }
        injection h with h
        injection h with _ hm' ho'
        subst hm' ho'
        exact ⟨hm.origin, hm.report, ho⟩
      owners := hi.owners
      told := hi.told.congr fun m' => delivered_put σ c _ _ m' .rfl .rfl }

/-- A `give` that finds nobody leaves its message loose. -/
theorem Inv.dropHand (hi : Inv σ) (hl : σ.hold c = some (.give i m offer)) :
    Inv (σ.put c (σ.chan c) none) ∧ Loose (σ.put c (σ.chan c) none) m := by
  have hs : Shrinks σ c (σ.chan c) none := .unlock (Sublist.refl _) (Sublist.refl _) rfl
  have hin : m ∈ ids σ (.hand c) := mem_hand σ hl
  obtain ⟨ho, hr, -⟩ := (hi.entries c).giving i m offer hl
  refine ⟨hi.shrink hs, ?_, fun pl hpl => ?_, ho, hr⟩
  · by_contra hm
    exact (hi.fresh m hm).1 _ hin
  · have hpl' := hi.uniq.inj ((hs.ids pl).subset hpl) hin
    rw [hpl', ids_put_hand] at hpl
    exact absurd hpl not_mem_nil

/-! ## Publishing an offer -/

section
variable {op : P → PendingOp C M} {pend : P → PState} {origin : M → Option (P × Nat)}
  {p : P} {arm : Nat} {m : M}

theorem Entries.setOrigin (he : Entries op pend origin report c s h)
    (ho : ∀ o ∈ s.sendq ++ Hold.drained h, o.v ≠ m)
    (hg : ∀ i m' offer, h = some (.give i m' offer) → m' ≠ m) :
    Entries op pend (update origin m (some (p, arm))) report c s h :=
  { he with
    offer := fun o hin => by
      rw [update_of_ne (ho o hin)]
      exact he.offer o hin
    giving := fun i m' offer hh => by
      rw [update_of_ne (hg i m' offer hh)]
      exact he.giving i m' offer hh }

theorem Owners.setOrigin (ho : Owners op pend origin commits) (he : (c, arm, true) ∈ (op p).arms)
    (hn : ∀ m', origin m' ≠ some (p, arm)) (m) :
    Owners op pend (update origin m (some (p, arm))) commits := by
  refine { ho with originArm := fun m' q a h => ?_, originInj := fun m1 m2 q a h1 h2 => ?_ }
  · obtain ⟨-, hk⟩ | ⟨-, h⟩ := update_eq_some h
    · cases hk
      exact ⟨c, he⟩
    · exact ho.originArm m' q a h
  obtain ⟨rfl, hk⟩ | ⟨-, ho1⟩ := update_eq_some h1
  · obtain ⟨rfl, -⟩ | ⟨-, ho2⟩ := update_eq_some h2
    · rfl
    · exact absurd (hk ▸ ho2) (hn m2)
  · obtain ⟨-, hk⟩ | ⟨-, ho2⟩ := update_eq_some h2
    · exact absurd (hk ▸ ho1) (hn m1)
    · exact ho.originInj m1 m2 q a ho1 ho2

theorem Told.setOrigin (ht : Told D pend origin report) (hD : ¬ D m) (hd : pend p ≠ .done arm)
    (hr : report m = none) :
    Told D pend (update origin m (some (p, arm))) report := by
  refine { ht with done := fun m' q a h => ?_, settled := fun m' q a r h hrep => ?_ }
  · obtain ⟨rfl, hk⟩ | ⟨-, h⟩ := update_eq_some h
    · cases hk
      exact iff_of_false hD hd
    · exact ht.done m' q a h
  · have hm : m' ≠ m := fun he => by rw [he, hr] at hrep; cases hrep
    rw [update_of_ne hm] at h
    exact ht.settled m' q a r h hrep

end

theorem offer_ids (σ : Sys C P M R) (c p arm m pl) :
    (ids (σ.put c ((σ.chan c).offer p arm m) none) pl).Subperm
      (if pl = .offers c then m :: ids σ pl else ids σ pl) := by
  refine subperm_put σ c _ _ (fun pl => if pl = .offers c then m :: ids σ pl else ids σ pl)
    ?_ ?_ ?_ ?_ (fun pl hpl => ?_) pl
  · exact Subperm.refl _
  · rw [if_pos rfl]
    show (((σ.chan c).sendq ++ [Offer.mk p arm m] ++ []).map Offer.v).Subperm
      (m :: (offersOf σ c).map Offer.v)
    rw [append_nil, map_append]
    exact (perm_append_singleton m _).subperm.trans
      ((subperm_cons m).mpr (subperm_map _ (sublist_append_left _ _).subperm))
  · exact Subperm.refl _
  · exact nil_subperm
  · rw [if_neg fun he => hpl (by rw [he]; rfl)]

/-- A loose message becomes an offer on an arm its owner has recorded. -/
theorem Inv.offerLoose (hi : Inv σ) (hm : Loose σ m) (hl : σ.hold c = none)
    (he : EntryAt (σ.op p) c arm true) (hd : σ.pend p ≠ .done arm)
    (ho : ∀ m', σ.origin m' ≠ some (p, arm)) :
    Inv { σ.put c ((σ.chan c).offer p arm m) none with
      origin := update σ.origin m (some (p, arm)) } where
  uniq := hi.uniq.insert hm.nowhere (.offers c) (offer_ids σ c p arm m)
  fresh := fun m' hm' => ⟨hm.fresh_insert hi (offer_ids σ c p arm m) hm',
    (update_of_ne (fun h : m' = m => hm' (by rw [h]; exact hm.issued)) ..).trans
      (hi.fresh m' hm').2.1, (hi.fresh m' hm').2.2⟩
  entries := by
    have hentries : ∀ c', Entries σ.op σ.pend (update σ.origin m (some (p, arm)))
        σ.report c' (σ.chan c') (σ.hold c') := fun c' =>
      (hi.entries c').setOrigin
        (fun o hin h => hm.nowhere (.offers c') (h ▸ mem_map_of_mem (f := Offer.v) hin))
        fun i m' offer hh h => hm.nowhere (.hand c') (h ▸ mem_hand σ hh)
    refine forall_put σ c _ _ (Entries _ _ _ _) ?_ fun c' _ => hentries c'
    have hc := hentries c
    rw [hl] at hc
    refine { hc with offer := fun o hin => ?_ }
    change o ∈ (σ.chan c).sendq ++ [Offer.mk p arm m] ++ [] at hin
    rw [append_nil, mem_append, mem_singleton] at hin
    cases hin with
    | inl h => exact hc.offer o (mem_append_left _ h)
    | inr h => rw [h]; exact ⟨update_self .., he⟩
  owners := hi.owners.setOrigin he.1 ho m
  told := (hi.told.setOrigin hm.not_delivered hd hm.report).congr
    fun m' => delivered_put σ c ((σ.chan c).offer p arm m) none m' .rfl .rfl

theorem Inv.publish (hi : Inv σ) (hm : Loose σ m) (hl : σ.hold c = none)
    (ha : ∀ a ∈ (σ.op p).arms, a.2.1 ≠ arm)
    (hb : MayBecome σ p ⟨(σ.op p).arms ++ [(c, arm, true)], .active⟩) :
    Inv (σ.publishOffer c p arm m) := by
  have hself : update σ.op p ⟨(σ.op p).arms ++ [(c, arm, true)], .active⟩ p =
      ⟨(σ.op p).arms ++ [(c, arm, true)], .active⟩ := update_self ..
  refine (hi.setOp hb).offerLoose (m := m) ⟨hm.issued, hm.nowhere, hm.origin, hm.report⟩ hl ?_ ?_ ?_
  · show EntryAt (update σ.op p _ p) c arm true
    rw [hself]
    exact ⟨mem_append_right _ (mem_singleton.mpr rfl), trivial⟩
  · intro hd
    obtain ⟨c', b, hc⟩ := hi.owners.doneArm p arm hd
    exact ha _ hc rfl
  · intro m' ho
    obtain ⟨c', hc⟩ := hi.owners.originArm m' p arm ho
    exact ha _ hc rfl

/-! ## Commits -/

section
variable {op : P → PendingOp C M} {pend : P → PState} {origin : M → Option (P × Nat)}
  {report : M → Option Report} {p : P} {arm : Nat}

theorem Owners.commit (ho : Owners op pend origin commits) (hq : pend p = .queued) {b : Bool}
    (ha : (c, arm, b) ∈ (op p).arms) :
    Owners op (update pend p (.done arm)) origin ((p, arm) :: commits) := by
  refine ho.decide hq ?_ (fun a h => ?_) fun q => ?_
  · rw [Bool.eq_false_iff]
    intro hf
    rw [(ho.idle p hf).1] at ha
    cases ha
  · cases h
    exact ⟨c, b, ha⟩
  by_cases he : q = p
  · rw [he, update_self, filter_cons_of_pos (by simp), ho.committed p, hq]
    rfl
  · rw [update_of_ne he, filter_cons_of_neg (by simpa using Ne.symm he), ho.committed q]

/-- A commit on an arm that offers no message. -/
theorem Told.commitSlot (ht : Told D pend origin report) (hq : pend p = .queued)
    (hn : ∀ m, origin m ≠ some (p, arm)) :
    Told D (update pend p (.done arm)) origin report := by
  refine ht.decide hq (fun m a h => ?_) fun _ _ => .rfl
  rw [ht.done m p a h, hq]
  refine iff_of_false nofun fun hd => ?_
  injection hd with hd
  exact hn m (hd ▸ h)

/-- A commit delivers the message offered on its arm, and no other. -/
theorem Told.commitOffer (ht : Told D pend origin report) (hq : pend p = .queued)
    (hx : origin x = some (p, arm)) (hinj : ∀ m, origin m = some (p, arm) → m = x)
    (hD : ∀ m, D' m ↔ m = x ∨ D m) :
    Told D' (update pend p (.done arm)) origin report := by
  refine ht.decide hq (fun m a h => ?_) fun m hm =>
    (hD m).trans (or_iff_right fun he => hm arm (he ▸ hx))
  rw [hD m, ht.done m p a h, hq, or_iff_left nofun]
  constructor
  · rintro rfl
    cases h.symm.trans hx
    rfl
  · intro hd
    injection hd with hd
    exact hinj m (hd ▸ h)

end

/-- An arm has one channel and one direction. -/
theorem Owners.arm_unique {op} (ho : Owners op pend origin commits) {c' a b b'}
    (h : (c, a, b) ∈ (op p).arms) (h' : (c', a, b') ∈ (op p).arms) : c = c' ∧ b = b' := by
  have := inj_on_of_nodup_map (ho.arms p) h h' rfl
  cases this
  exact ⟨rfl, rfl⟩

theorem Inv.no_origin_of_slot (hi : Inv σ) (h : (c, arm, false) ∈ (σ.op p).arms) (m) :
    σ.origin m ≠ some (p, arm) := by
  intro ho
  obtain ⟨c', hc⟩ := hi.owners.originArm m p arm ho
  exact absurd (hi.owners.arm_unique h hc).2 nofun

/-- A receive that will withdraw `p`'s slot holds the channel of that slot. -/
theorem Inv.notRepolling (hi : Inv σ) {b} (ha : (c, arm, b) ∈ (σ.op p).arms)
    (hc : ∀ i refill r me, σ.hold c ≠ some (.take i refill r me (some p)) ∨ b = true) :
    NotRepolling σ p := by
  intro c' i refill r me hh
  have hop := ((hi.entries c').repolling i refill r me p hh).1
  rw [hop, mem_singleton] at ha
  cases ha
  cases hc i refill r me with
  | inl h => exact h hh
  | inr h => cases h

theorem NotRepolling.of_phase (hi : Inv σ) (h : (σ.op p).phase ≠ .receiving) :
    NotRepolling σ p := by
  intro c i refill r me hh
  rw [((hi.entries c).repolling i refill r me p hh).1] at h
  exact h rfl

/-! ## A slot is filled -/

theorem filterMap_set_perm {α β : Type} (f) {a} {b : β} (hb : f a = some b) :
    ∀ (l : List α) (i : Nat) (e : α), l[i]? = some e → f e = none →
      ((l.set i a).filterMap f).Perm (b :: l.filterMap f)
  | [], i, e, h, _ => by simp at h
  | x :: xs, 0, e, h, he => by
    rw [getElem?_cons_zero, some_inj] at h
    rw [set_cons_zero, filterMap_cons_some hb, h, filterMap_cons_none he]
  | x :: xs, i + 1, e, h, he => by
    rw [getElem?_cons_succ] at h
    have ih := filterMap_set_perm f hb xs i e h he
    rw [set_cons_succ]
    cases hx : f x with
    | none =>
      rw [filterMap_cons_none hx, filterMap_cons_none hx]
      exact ih
    | some y =>
      rw [filterMap_cons_some hx, filterMap_cons_some hx]
      exact (ih.cons y).trans (Perm.swap b y _)

theorem pairwise_set {α : Type} {r} {l : List α} (hl : l.Pairwise r) {a}
    (ha : ∀ x ∈ l, r x a ∧ r a x) (i) : (l.set i a).Pairwise r := by
  induction l generalizing i with
  | nil => exact List.Pairwise.nil
  | cons x xs ih =>
    rw [pairwise_cons] at hl
    cases i with
    | zero =>
      exact pairwise_cons.mpr ⟨fun y hy => (ha y (mem_cons_of_mem x hy)).2, hl.2⟩
    | succ i =>
      refine pairwise_cons.mpr ⟨fun y hy => ?_, ih hl.2 (forall_mem_cons.mp ha).2 i⟩
      cases mem_or_eq_of_mem_set hy with
      | inl h => exact hl.1 y h
      | inr h => rw [h]; exact (ha x mem_cons_self).1

/-- The state of a channel after its slot `i` got `m`. -/
def ChanState.fillSlot (s : ChanState P M) (i : Nat) (e : Slot P M) (m : M) : ChanState P M :=
  { s with recvq := s.recvq.set i { e with got := some m } }

theorem fill_ids (σ : Sys C P M R) (m) (he : (σ.chan c).recvq[i]? = some e) (hg : e.got = none)
    (pl) : (ids (σ.put c ((σ.chan c).fillSlot i e m) none) pl).Subperm
      (if pl = .slots c then m :: ids σ pl else ids σ pl) := by
  refine subperm_put σ c _ _ (fun pl => if pl = .slots c then m :: ids σ pl else ids σ pl)
    ?_ ?_ ?_ ?_ (fun pl hpl => ?_) pl
  · exact Subperm.refl _
  · exact subperm_map _ (offers_subperm σ c rfl (Sublist.refl _))
  · rw [if_pos rfl]
    exact (filterMap_set_perm Slot.got rfl _ i e he hg).subperm
  · exact nil_subperm
  · rw [if_neg fun he => hpl (by rw [he]; rfl)]

theorem fill_entries (hi : Inv σ) (m) (he : (σ.chan c).recvq[i]? = some e)
    (hq : σ.pend e.p = .queued)
    (hc : Entries σ.op (update σ.pend e.p (.done e.arm)) σ.origin report c (σ.chan c) h) :
    Entries σ.op (update σ.pend e.p (.done e.arm)) σ.origin report c
      ((σ.chan c).fillSlot i e m) h := by
  have hmem : e ∈ (σ.chan c).recvq := mem_of_getElem? he
  have hset : ∀ x ∈ ((σ.chan c).fillSlot i e m).recvq,
      x ∈ (σ.chan c).recvq ∨ x = { e with got := some m } :=
    fun x hx => mem_or_eq_of_mem_set hx
  refine { hc with slot := fun x hx => ?_, filled := fun x hx hg => ?_, once := ?_ }
  · cases hset x hx with
    | inl h => exact hc.slot x h
    | inr h => rw [h]; exact hc.slot e hmem
  · cases hset x hx with
    | inl h => exact hc.filled x h hg
    | inr h =>
      rw [h]
      refine ⟨update_self .., ?_⟩
      rw [Bool.eq_false_iff]
      exact fun hw => hi.owners.past e.p hw hq
  · refine pairwise_set hc.once (fun x hx => ?_) i
    have hne : x.got.isSome → x.p ≠ e.p := by
      intro hg hp
      have hd := ((hi.entries c).filled x hx hg).1
      rw [hp, hq] at hd
      cases hd
    exact ⟨fun hg _ => hne hg, fun _ hg => (hne hg).symm⟩

/-- A loose message fills a live slot: the slot's owner commits and the sender is
    told so. -/
theorem Inv.fill (hi : Inv σ) (hm : Loose σ m) (hl : σ.hold c = none)
    (he : (σ.chan c).recvq[i]? = some e) (hg : e.got = none) (hq : σ.pend e.p = .queued) :
    Inv { (σ.put c ((σ.chan c).fillSlot i e m) none).tell m .sent with
      pend := update σ.pend e.p (.done e.arm)
      commits := (e.p, e.arm) :: σ.commits } := by
  have hmem : e ∈ (σ.chan c).recvq := mem_of_getElem? he
  have harm : (c, e.arm, false) ∈ (σ.op e.p).arms := ((hi.entries c).slot e hmem).1
  have hr : NotRepolling σ e.p := hi.notRepolling harm fun i refill r me => .inl (by
    rw [hl]; exact nofun)
  exact
    { uniq := hi.uniq.insert hm.nowhere (.slots c) (fill_ids σ m he hg)
      fresh := fun m' hm' => ⟨hm.fresh_insert hi (fill_ids σ m he hg) hm', (hi.fresh m' hm').2.1,
        hm.fresh_tell hi .sent hm'⟩
      entries := by
        have hent := fun c' => (hm.entries_tell hi .sent c').setPend hq (.done e.arm) (hr c')
        refine forall_put σ c _ _ (Entries _ _ _ _) ?_ fun c' _ => hent c'
        exact fill_entries hi m he hq (hl ▸ hent c)
      owners := hi.owners.commit hq harm
      told := (hi.told.commitSlot hq (hi.no_origin_of_slot harm)).tellSent hm.origin fun m' => by
        show Delivered (σ.put c _ none) m' ↔ _
        rw [delivered_put_iff, delivered_iff σ c]
        have hperm := (filterMap_set_perm Slot.got (a := { e with got := some m }) rfl
          (σ.chan c).recvq i e he hg).mem_iff (a := m')
        rw [mem_cons] at hperm
        show m' ∈ ids σ (.buffer c) ∨ m' ∈ ((σ.chan c).recvq.set i _).filterMap Slot.got ∨ _ ↔ _
        rw [hperm]
        tauto }

/-! ## A delivered or offered message moves -/

/-- A place other than the one of `x` keeps what it holds. -/
theorem Inv.keeps (hi : Inv σ) (hx : x ∈ ids σ a) (pl) (hne : pl ≠ a) :
    (ids σ pl).Subperm ((ids σ pl).erase x) := by
  rw [erase_of_not_mem fun h => hne (hi.uniq.inj h hx)]

theorem Inv.keeps_if (hi : Inv σ) (hx : x ∈ ids σ a) (pl) (hne : pl ≠ a) : (ids σ pl).Subperm
      (if pl = b then x :: (ids σ pl).erase x else (ids σ pl).erase x) := by
  have hk := hi.keeps hx pl hne
  split
  · exact hk.trans (sublist_cons_self x _).subperm
  · exact hk

/-- The place that `x` comes to. -/
theorem Inv.gains_if (hi : Inv σ) (hx : x ∈ ids σ a) (pl) (hne : pl ≠ a) : (ids σ pl ++ [x]).Subperm
      (if pl = pl then x :: (ids σ pl).erase x else (ids σ pl).erase x) := by
  rw [if_pos rfl]
  exact (perm_append_singleton x _).subperm.trans
    ((subperm_cons x).mpr (hi.keeps hx pl hne))

/-- Freshness when the places only exchanged `x`. -/
theorem Inv.fresh_move (hi : Inv σ) (hx : x ∈ ids σ a) {f : Place C → List M}
    (hids : ∀ pl, (f pl).Subperm (if pl = b then x :: (ids σ pl).erase x else (ids σ pl).erase x))
    (hm : m ∉ σ.issued) (pl) : m ∉ f pl := by
  intro hin
  have hmem := (hids pl).subset hin
  split at hmem
  · cases mem_cons.mp hmem with
    | inl he => exact (hi.fresh m hm).1 a (he ▸ hx)
    | inr h => exact (hi.fresh m hm).1 pl (mem_of_mem_erase h)
  · exact (hi.fresh m hm).1 pl (mem_of_mem_erase hmem)

section

variable (σ : Sys C P M R) (c : C) (s : ChanState P M) (received : List (M × Receiver P R)) (discarded : List M)

/-- One channel and the two histories are replaced. -/
def relocate : Sys C P M R :=
  { σ.put c s (σ.hold c) with received := received, discarded := discarded }

/-- What one channel and the two histories hold after message `x` went from one
    of them to place `b`. -/
structure Moves (x : M) (b : Place C) : Prop where
  buffer : s.queue.Subperm
    (if Place.buffer c = b then x :: (ids σ (.buffer c)).erase x else (ids σ (.buffer c)).erase x)
  offers : ((s.sendq ++ Hold.drained (σ.hold c)).map Offer.v).Subperm ((ids σ (.offers c)).erase x)
  slots : (s.recvq.filterMap Slot.got).Subperm ((ids σ (.slots c)).erase x)
  received : (received.map Prod.fst).Subperm
    (if Place.received = b then x :: (ids σ .received).erase x else (ids σ .received).erase x)
  discarded : discarded.Subperm
    (if Place.discarded = b then x :: (ids σ .discarded).erase x
      else (ids σ .discarded).erase x)
  target : b = .buffer c ∨ b = .received ∨ b = .discarded

end

theorem Moves.ids {discarded} (hm : Moves σ c s received discarded x b) (hi : Inv σ)
    (hx : x ∈ Channel.ids σ a) (ha : a.home = some c) (hh : a ≠ .hand c) (pl : Place C) :
    (Channel.ids (relocate σ c s received discarded) pl).Subperm
      (if pl = b then x :: (Channel.ids σ pl).erase x else (Channel.ids σ pl).erase x) := by
  by_cases hr : pl = .received
  · rw [hr]; exact hm.received
  by_cases hd : pl = .discarded
  · rw [hd]; exact hm.discarded
  have hsame : Channel.ids (relocate σ c s received discarded) pl =
      Channel.ids (σ.put c s (σ.hold c)) pl := by
    cases pl <;> first | rfl | contradiction
  have htarget : ∀ pl', pl' = .offers c ∨ pl' = .slots c ∨ pl' = .hand c → pl' ≠ b := by
    intro pl' hpl he
    obtain ht | ht | ht := hm.target <;> obtain h | h | h := hpl <;> rw [h, ht] at he <;> cases he
  rw [hsame]
  refine subperm_put σ c s _ (fun pl => if pl = b then x :: (Channel.ids σ pl).erase x
    else (Channel.ids σ pl).erase x) hm.buffer ?_ ?_ ?_ (fun pl hpl => ?_) pl
  · rw [if_neg (htarget _ (.inl rfl))]
    exact hm.offers
  · rw [if_neg (htarget _ (.inr (.inl rfl)))]
    exact hm.slots
  · rw [if_neg (htarget _ (.inr (.inr rfl)))]
    exact hi.keeps hx _ (Ne.symm hh)
  · exact hi.keeps_if hx pl fun he => hpl (by rw [he]; exact ha)

theorem delivered_relocate (σ : Sys C P M R) (c s received discarded m) :
    Delivered (relocate σ c s received discarded) m ↔ m ∈ s.queue ∨ m ∈ s.recvq.filterMap Slot.got ∨
        (∃ c', c' ≠ c ∧ (m ∈ ids σ (.buffer c') ∨ m ∈ ids σ (.slots c'))) ∨
        m ∈ received.map Prod.fst ∨ m ∈ discarded := by
  rw [delivered_iff _ c]
  refine or_congr ?_ (or_congr ?_ (or_congr (exists_congr fun c' => and_congr_right fun hc => ?_)
    .rfl))
  · exact iff_of_eq (congrArg _ (ids_put_buffer σ c s (σ.hold c)))
  · exact iff_of_eq (congrArg _ (ids_put_slots σ c s (σ.hold c)))
  · have hne : some c' ≠ some c := fun he => hc (some_inj.mp he)
    show m ∈ ids (σ.put c s (σ.hold c)) (.buffer c') ∨ m ∈ ids (σ.put c s (σ.hold c)) (.slots c') ↔ _
    rw [ids_put_ne σ s (σ.hold c) (.buffer c') hne, ids_put_ne σ s (σ.hold c) (.slots c') hne]

/-- The front of the buffer is received. -/
theorem Inv.popFront (hi : Inv σ) {v : M} {q} (hq : (σ.chan c).queue = v :: q)
    (who : Receiver P R) :
    Inv (relocate σ c { σ.chan c with queue := q } (σ.received ++ [(v, who)]) σ.discarded) := by
  have hx : v ∈ ids σ (.buffer c) := by
    show v ∈ (σ.chan c).queue
    rw [hq]; exact mem_cons_self
  have hm : Moves σ c { σ.chan c with queue := q } (σ.received ++ [(v, who)]) σ.discarded v
      .received :=
    { buffer := by
        rw [if_neg nofun]
        show q.Subperm ((σ.chan c).queue.erase v)
        rw [hq, erase_cons_head]
      offers := hi.keeps hx (.offers c) nofun
      slots := hi.keeps hx (.slots c) nofun
      received := by
        rw [map_append]
        exact hi.gains_if hx .received nofun
      discarded := hi.keeps_if hx .discarded nofun
      target := .inr (.inl rfl) }
  exact
    { uniq := hi.uniq.move v .received (hm.ids hi hx rfl nofun)
      fresh := fun m hm' => ⟨hi.fresh_move hx (hm.ids hi hx rfl nofun) hm', (hi.fresh m hm').2⟩
      entries := hi.entries_put { hi.entries c with }
      owners := hi.owners
      told := hi.told.congr fun m => by
        rw [delivered_relocate, delivered_iff σ c, show ids σ (.buffer c) = v :: q from hq,
          map_append, mem_append, mem_cons, DeliveredElse]
        show m ∈ q ∨ m ∈ ids σ (.slots c) ∨ _ ∨ (m ∈ ids σ .received ∨ m ∈ [v]) ∨
          m ∈ ids σ .discarded ↔ _
        rw [mem_singleton]
        exact iff_of_eq (by ac_rfl) }

theorem map_eraseIdx_subperm {α β : Type} [DecidableEq β] (f : α → β) {l : List α} {a}
    (h : l[i]? = some a) : ((l.eraseIdx i).map f).Subperm ((l.map f).erase (f a)) := by
  obtain ⟨hi, rfl⟩ := List.getElem?_eq_some_iff.mp h
  have hp := (getElem_cons_eraseIdx_perm hi).map f
  rw [map_cons] at hp
  have he := hp.erase (f l[i])
  rw [erase_cons_head] at he
  exact he.subperm

theorem mem_offers (h : o ∈ (σ.chan c).sendq) : o.v ∈ ids σ (.offers c) :=
  mem_map_of_mem (mem_append_left _ h)

/-- Where a taken offer goes: into the freed place of the buffer, or to the
    receiver. -/
structure Takes (σ : Sys C P M R) (c : C) (i : Nat) (o : Offer P M) (s : ChanState P M)
    (received : List (M × Receiver P R)) (b : Place C) : Prop where
  sendq : s.sendq = (σ.chan c).sendq.eraseIdx i
  recvq : s.recvq = (σ.chan c).recvq
  sealed : s.sealed = (σ.chan c).sealed
  dest : (b = .buffer c ∧ s.queue = (σ.chan c).queue ++ [o.v] ∧ received = σ.received) ∨
    (b = .received ∧ s.queue = (σ.chan c).queue ∧
      received.map Prod.fst = σ.received.map Prod.fst ++ [o.v])

theorem Takes.moves (ht : Takes σ c i o s received b) (hi : Inv σ)
    (ho : (σ.chan c).sendq[i]? = some o) (hd : Hold.drained (σ.hold c) = []) :
    Moves σ c s received σ.discarded o.v b := by
  have hx : o.v ∈ ids σ (.offers c) := mem_offers (mem_of_getElem? ho)
  have hoff : ((s.sendq ++ Hold.drained (σ.hold c)).map Offer.v).Subperm
      ((ids σ (.offers c)).erase o.v) := by
    have he : ids σ (.offers c) = (σ.chan c).sendq.map Offer.v := by
      show (offersOf σ c).map Offer.v = _
      rw [offersOf, hd, append_nil]
    rw [he, hd, append_nil, ht.sendq]
    exact map_eraseIdx_subperm Offer.v ho
  have hslot : (s.recvq.filterMap Slot.got).Subperm ((ids σ (.slots c)).erase o.v) := by
    rw [ht.recvq]
    exact hi.keeps hx (.slots c) nofun
  obtain ⟨rfl, hq, rfl⟩ | ⟨rfl, hq, hr⟩ := ht.dest
  · exact ⟨hq ▸ hi.gains_if hx (.buffer c) nofun, hoff, hslot, hi.keeps_if hx .received nofun,
      hi.keeps_if hx .discarded nofun, .inl rfl⟩
  · exact ⟨hq ▸ hi.keeps_if hx (.buffer c) nofun, hoff, hslot,
      hr ▸ hi.gains_if hx .received nofun, hi.keeps_if hx .discarded nofun, .inr (.inl rfl)⟩

theorem Takes.delivered (ht : Takes σ c i o s received b) (m : M) :
    Delivered (relocate σ c s received σ.discarded) m ↔ m = o.v ∨ Delivered σ m := by
  rw [delivered_relocate, delivered_iff σ c, ht.recvq, DeliveredElse]
  obtain ⟨-, hq, rfl⟩ | ⟨-, hq, hr⟩ := ht.dest
  · rw [hq, mem_append, mem_singleton]
    show (m ∈ ids σ (.buffer c) ∨ _) ∨ m ∈ ids σ (.slots c) ∨ _ ∨ m ∈ ids σ .received ∨
      m ∈ ids σ .discarded ↔ _
    exact iff_of_eq (by ac_rfl)
  rw [hq, hr, mem_append, mem_singleton]
  show m ∈ ids σ (.buffer c) ∨ m ∈ ids σ (.slots c) ∨ _ ∨ (m ∈ ids σ .received ∨ _) ∨
    m ∈ ids σ .discarded ↔ _
  exact iff_of_eq (by ac_rfl)

/-- A live offer is taken: its owner commits and the message is delivered. -/
theorem Inv.takeOffer (hi : Inv σ) (ht : Takes σ c i o s received b)
    (ho : (σ.chan c).sendq[i]? = some o) (hd : Hold.drained (σ.hold c) = [])
    (hq : σ.pend o.p = .queued) :
    Inv { relocate σ c s received σ.discarded with
      pend := update σ.pend o.p (.done o.arm)
      commits := (o.p, o.arm) :: σ.commits } := by
  have hmem : o ∈ offersOf σ c := mem_append_left _ (mem_of_getElem? ho)
  have hx : o.v ∈ ids σ (.offers c) := mem_map_of_mem hmem
  obtain ⟨horigin, harm, -⟩ := (hi.entries c).offer o hmem
  have hr : NotRepolling σ o.p := hi.notRepolling harm fun _ _ _ _ => .inr rfl
  have hids := (ht.moves hi ho hd).ids hi hx rfl nofun
  exact
    { uniq := hi.uniq.move o.v b hids
      fresh := fun m hm => ⟨hi.fresh_move hx hids hm, (hi.fresh m hm).2⟩
      entries := by
        have hent := fun c' => (hi.entries c').setPend hq (.done o.arm) (hr c')
        refine forall_put σ c _ _ (Entries _ _ _ _) ?_ fun c' _ => hent c'
        have hc := hent c
        refine ⟨fun o' ho' => hc.offer o' ?_, ht.recvq ▸ hc.slot, ht.recvq ▸ hc.filled,
          ht.recvq ▸ hc.once, hc.giving, hc.repolling, ht.sealed.trans hc.unsealed⟩
        rw [hd, append_nil, ht.sendq] at ho'
        exact mem_append_left _ (mem_of_mem_eraseIdx ho')
      owners := hi.owners.commit hq harm
      told := hi.told.commitOffer hq horigin
        (fun m hm => hi.owners.originInj m o.v o.p o.arm hm horigin) ht.delivered }

/-! ## Settling -/

/-- `take` takes the slot of `p` that is filled, if there is one. -/
theorem take_cases (s : ChanState P M) (p) :
    (s.take p = none ∧ ∀ e ∈ s.recvq, e.p = p → e.got = none) ∨
      ∃ i e v, s.recvq[i]? = some e ∧ e.p = p ∧ e.got = some v ∧
        s.take p = some (v, { s with recvq := s.recvq.eraseIdx i }) := by
  unfold ChanState.take
  cases hf : s.recvq.findIdx? (fun e => e.got.isSome && decide (e.p = p)) with
  | none =>
    refine .inl ⟨rfl, fun e he hp => ?_⟩
    have hnot := findIdx?_eq_none_iff.mp hf e he
    rw [hp, decide_eq_true rfl, Bool.and_true] at hnot
    exact isNone_iff_eq_none.mp (isSome_eq_false_iff.mp hnot)
  | some i =>
    obtain ⟨hlt, hpred, -⟩ := findIdx?_eq_some_iff_getElem.mp hf
    rw [Bool.and_eq_true, decide_eq_true_eq] at hpred
    obtain ⟨v, hv⟩ := isSome_iff_exists.mp hpred.1
    refine .inr ⟨i, _, v, getElem?_eq_getElem hlt, hpred.2, hv, ?_⟩
    simp only [getElem?_eq_getElem hlt, bind_some, hv, map_some]

theorem filterMap_eraseIdx_perm {α β : Type} (f) {l : List α} {a} {b : β} (h : l[i]? = some a)
    (hb : f a = some b) : (b :: (l.eraseIdx i).filterMap f).Perm (l.filterMap f) := by
  obtain ⟨hi, rfl⟩ := List.getElem?_eq_some_iff.mp h
  have hp := (getElem_cons_eraseIdx_perm hi).filterMap f
  rw [filterMap_cons_some hb] at hp
  exact hp

/-- The slots of channel `c` without the one at `i`. -/
def ChanState.dropSlot (s : ChanState P M) (i : Nat) : ChanState P M :=
  { s with recvq := s.recvq.eraseIdx i }

/-- The message of a filled slot is received by the slot's owner, or discarded
    with it. -/
theorem Inv.takeSlot (hi : Inv σ) {v : M} (he : (σ.chan c).recvq[i]? = some e) (hg : e.got = some v)
    {discarded : List M}
    (hb : (b = .received ∧ received.map Prod.fst = σ.received.map Prod.fst ++ [v] ∧
        discarded = σ.discarded) ∨
      (b = .discarded ∧ received = σ.received ∧ discarded = σ.discarded ++ [v])) :
    Inv (relocate σ c ((σ.chan c).dropSlot i) received discarded) := by
  have hperm := filterMap_eraseIdx_perm Slot.got he hg
  have hx : v ∈ ids σ (.slots c) := hperm.subset mem_cons_self
  have hm : Moves σ c ((σ.chan c).dropSlot i) received discarded v b := by
    have hslot : (((σ.chan c).recvq.eraseIdx i).filterMap Slot.got).Subperm
        ((ids σ (.slots c)).erase v) := by
      have := hperm.erase v
      rw [erase_cons_head] at this
      exact this.subperm
    obtain ⟨rfl, hr, rfl⟩ | ⟨rfl, rfl, rfl⟩ := hb
    · exact ⟨hi.keeps_if hx (.buffer c) nofun, hi.keeps hx (.offers c) nofun, hslot,
        hr ▸ hi.gains_if hx .received nofun, hi.keeps_if hx .discarded nofun, .inr (.inl rfl)⟩
    · exact ⟨hi.keeps_if hx (.buffer c) nofun, hi.keeps hx (.offers c) nofun, hslot,
        hi.keeps_if hx .received nofun, hi.gains_if hx .discarded nofun, .inr (.inr rfl)⟩
  have hids := hm.ids hi hx rfl nofun
  have hsub := eraseIdx_sublist (l := (σ.chan c).recvq) (k := i)
  exact
    { uniq := hi.uniq.move v b hids
      fresh := fun m hm' => ⟨hi.fresh_move hx hids hm', (hi.fresh m hm').2⟩
      entries := hi.entries_put { hi.entries c with
        slot := fun e' he' => (hi.entries c).slot e' (hsub.subset he')
        filled := fun e' he' => (hi.entries c).filled e' (hsub.subset he')
        once := (hi.entries c).once.sublist hsub }
      owners := hi.owners
      told := hi.told.congr fun m => by
        have hmem := hperm.mem_iff (a := m)
        rw [mem_cons] at hmem
        rw [delivered_relocate, delivered_iff σ c, DeliveredElse]
        show m ∈ ids σ (.buffer c) ∨ m ∈ ((σ.chan c).recvq.eraseIdx i).filterMap Slot.got ∨ _ ↔
          _ ∨ m ∈ (σ.chan c).recvq.filterMap Slot.got ∨ _
        rw [← hmem]
        obtain ⟨-, hr, rfl⟩ | ⟨-, rfl, rfl⟩ := hb
        · rw [hr, mem_append, mem_singleton]
          show _ ∨ _ ∨ _ ∨ (m ∈ ids σ .received ∨ _) ∨ m ∈ ids σ .discarded ↔ _
          exact iff_of_eq (by ac_rfl)
        · rw [mem_append, mem_singleton]
          show _ ∨ _ ∨ _ ∨ m ∈ ids σ .received ∨ (m ∈ ids σ .discarded ∨ _) ↔ _
          exact iff_of_eq (by ac_rfl) }

/-- An unfilled slot is published on an arm its owner has recorded. -/
theorem Inv.addSlot (hi : Inv σ) (hl : σ.hold c = none) (he : EntryAt (σ.op p) c arm false) :
    Inv (σ.put c ((σ.chan c).slot p arm) none) := by
  have hgot : ((σ.chan c).slot p arm).recvq.filterMap Slot.got = ids σ (.slots c) := by
    show ((σ.chan c).recvq ++ [Slot.mk p arm none]).filterMap Slot.got = _
    rw [filterMap_append, filterMap_cons_none rfl, filterMap_nil, append_nil]
    rfl
  have hids : ∀ pl, (ids (σ.put c ((σ.chan c).slot p arm) none) pl).Subperm (ids σ pl) :=
    subperm_put σ c _ _ _ (Subperm.refl _)
      (subperm_map _ (offers_subperm σ c rfl (Sublist.refl _)))
      (hgot ▸ Subperm.refl _) nil_subperm fun _ _ => Subperm.refl _
  have hmem : ∀ e ∈ ((σ.chan c).slot p arm).recvq, e ∈ (σ.chan c).recvq ∨ e = ⟨p, arm, none⟩ := by
    intro e hm
    rw [← mem_singleton, ← mem_append]
    exact hm
  have hc := hi.entries c
  rw [hl] at hc
  refine ⟨hi.uniq.mono hids, fun m hm => ⟨fun pl hin => (hi.fresh m hm).1 pl
    ((hids pl).subset hin), (hi.fresh m hm).2⟩, hi.entries_put { hc with
      slot := fun e hm => ?_, filled := fun e hm hg => ?_, once := ?_ }, hi.owners,
    hi.told.congr fun m => delivered_put σ c _ none m .rfl (by rw [hgot])⟩
  · cases hmem e hm with
    | inl h => exact hc.slot e h
    | inr h => rw [h]; exact he
  · cases hmem e hm with
    | inl h => exact hc.filled e h hg
    | inr h => rw [h] at hg; cases hg
  refine pairwise_append.mpr ⟨hc.once, pairwise_singleton _ _, fun a _ b hb => ?_⟩
  intro _ hg
  rw [mem_singleton.mp hb] at hg
  cases hg

/-- What the owner of `p` tells the senders of its offers when it settles having
    met the state `st`. -/
def settleReport (σ : Sys C P M R) (p : P) (st : PState) (m : M) : Option Report :=
  match σ.origin m with
  | some (q, arm) => if q = p then some (.of st arm) else σ.report m
  | none => σ.report m

theorem settleReport_none (h : σ.origin m = none) : settleReport σ p st m = σ.report m := by
  unfold settleReport
  rw [h]

theorem settleReport_some {q} (h : σ.origin m = some (q, arm)) :
    settleReport σ p st m = if q = p then some (.of st arm) else σ.report m := by
  unfold settleReport
  rw [h]

/-- A report without an offer, or on an offer of another party, is not touched. -/
theorem settleReport_cases (σ : Sys C P M R) (p st m) :
    (settleReport σ p st m = σ.report m ∧ ∀ a, σ.origin m ≠ some (p, a)) ∨
      ∃ a, σ.origin m = some (p, a) ∧ settleReport σ p st m = some (.of st a) := by
  cases h : σ.origin m with
  | none => exact .inl ⟨settleReport_none h, nofun⟩
  | some k =>
    obtain ⟨q, arm⟩ := k
    by_cases hq : q = p
    · refine .inr ⟨arm, by rw [hq], ?_⟩
      rw [settleReport_some h, if_pos hq]
    refine .inl ⟨?_, fun a ha => hq ?_⟩
    · rw [settleReport_some h, if_neg hq]
    · injection ha with ha
      exact congrArg Prod.fst ha

theorem Report.of_eq_sent : Report.of st arm = .sent ↔ st = .done arm := by
  cases st with
  | done a =>
    show (if arm = a then Report.sent else .cancelled) = .sent ↔ _
    by_cases h : arm = a
    · rw [if_pos h]; exact iff_of_true rfl (by rw [h])
    · rw [if_neg h]; exact iff_of_false nofun fun he => h (by injection he with he; exact he.symm)
  | queued | cancelled | closed => exact iff_of_false nofun nofun

/-- The owner of a decided `Pending` tells its senders. -/
theorem Inv.tellAll (hi : Inv σ) (hp : σ.pend p ≠ .queued) :
    Inv { σ with report := settleReport σ p (σ.pend p) } where
  uniq := hi.uniq
  fresh := fun m hm => ⟨(hi.fresh m hm).1, (hi.fresh m hm).2.1,
    (settleReport_none (hi.fresh m hm).2.1).trans (hi.fresh m hm).2.2⟩
  entries := fun c =>
    { hi.entries c with
      giving := fun i m offer hh => by
        obtain ⟨ho, hr, hph⟩ := (hi.entries c).giving i m offer hh
        exact ⟨ho, (settleReport_none ho).trans hr, hph⟩ }
  owners := hi.owners
  told := by
    refine { hi.told with sent := fun m h => ?_, failed := fun m r h hr => ?_,
                          settled := fun m q a r ho h => ?_ }
    · obtain ⟨hs, -⟩ | ⟨a, ho, hs⟩ := settleReport_cases σ p (σ.pend p) m
      · exact hi.told.sent m (hs.symm.trans h)
      · have hof := some_inj.mp (hs.symm.trans h)
        exact (hi.told.done m p a ho).mpr (Report.of_eq_sent.mp hof)
    · obtain ⟨hs, -⟩ | ⟨a, ho, hs⟩ := settleReport_cases σ p (σ.pend p) m
      · exact hi.told.failed m r (hs.symm.trans h) hr
      · have hof := some_inj.mp (hs.symm.trans h)
        exact fun hd => hr (hof ▸ Report.of_eq_sent.mpr ((hi.told.done m p a ho).mp hd))
    obtain ⟨hs, -⟩ | ⟨a', ho', hs⟩ := settleReport_cases σ p (σ.pend p) m
    · exact hi.told.settled m q a r ho (hs.symm.trans h)
    · cases ho.symm.trans ho'
      exact ⟨hp, (some_inj.mp (hs.symm.trans h)).symm⟩

end ChezziLang.Vm.Channel
