/-
  Safety of the collector's coordinator, for any number of threads and every
  interleaving of `Vm/GcCoord.lean`.

  The invariant has four parts: `Counted` (the attached count is the number of tokens),
  `Stopped` (the stopped count and the roots are those of the threads parked in the
  current stop), `Tickets` (the published roots are those of the live tickets) and
  `Phases` (who leads a stop, and that the world stands still while a collector runs).
  A stop is numbered by the epoch in which it runs.

  Proved:
    * `Inv.step`, `reachable_inv`: every step keeps the invariant;
    * `step_ne_panic`: no section panics;
    * `stop_the_world`: the property of the whole system.
-/
import ChezziLang.Vm.GcCoord

namespace ChezziLang.Vm.GcCoord

open Lib.Roster Function List Option World

variable {T R : Type} [DecidableEq T] {w w' : World T R} {t : T}

/-! ## The invariant -/

/-- The count is the number of tokens. -/
def Counted (n : Nat) (f : T → Thread R) : Prop :=
  ∃ l, Lists l (fun t => (f t).Holds) ∧ n = l.length

/-- The count and the roots are those of the threads parked in the current stop. -/
def Stopped (st : State R) (f : T → Thread R) : Prop :=
  ∃ l, Lists l (fun t => (f t).ParkedIn st.gcEpoch) ∧ st.stopped = l.length ∧
    st.stoppedRoots = if st.phase = .collecting then [] else l.flatMap fun t => (f t).handed

/-- The published roots are those of the live tickets. -/
structure Tickets (entries : List (Nat × List R)) (next : Nat) (f : T → Thread R) : Prop where
  nodup : (entries.map Prod.fst).Nodup
  mem_iff : ∀ id roots, (id, roots) ∈ entries ↔ ∃ t epoch, f t = .detached id epoch roots
  inj : ∀ {t u id e e' roots roots'}, f t = .detached id e roots → f u = .detached id e' roots' →
    t = u
  lt : ∀ {t id e roots}, f t = .detached id e roots → id < next

/-- Who leads a stop, and who is parked in it. -/
structure Phases (phase : Phase) (epoch : Nat) (f : T → Thread R) : Prop where
  requesting : ∀ {t own}, f t = .requesting own → phase = .requested
  collecting : ∀ {t roots}, f t = .collecting roots → phase = .collecting
  leader : ∀ {t u}, (f t).Leads → (f u).Leads → t = u
  idle : phase = .idle → ∀ t, ¬ (f t).ParkedIn epoch
  past : ∀ {t e handed}, f t = .parked e handed → e ≤ epoch
  world : phase = .collecting →
    ∃ t, (∃ roots, f t = .collecting roots) ∧ ∀ u, (f u).Holds → u ≠ t → (f u).ParkedIn epoch

structure Inv (w : World T R) : Prop where
  counted : Counted w.coord.attached w.thread
  stopped : Stopped w.coord w.thread
  tickets : Tickets w.coord.detachedRoots w.coord.nextTicket w.thread
  phases : Phases w.coord.phase w.coord.gcEpoch w.thread
  flag : w.coord.stw = decide (w.coord.phase ≠ .idle)

omit [DecidableEq T] in
theorem inv_init : Inv (init : World T R) where
  counted := ⟨[], Lists.nil fun _ h => h, rfl⟩
  stopped := ⟨[], Lists.nil fun _ h => (nomatch h), rfl, rfl⟩
  tickets := ⟨nodup_nil, fun id roots => by simp [init], nofun, nofun⟩
  phases := ⟨nofun, nofun, fun h => h.elim, fun _ _ h => (nomatch h), nofun, nofun⟩
  flag := rfl

/-! ## One thread changes -/

section
variable {f : T → Thread R} {t : T} {old th : Thread R} {n epoch : Nat}

/-- A property that the thread keeps, gains or does not have after its change. -/
theorem update_keeps {p : Thread R → Prop} (h : p th ↔ p (f t)) (u) :
    p (update f t th u) ↔ p (f u) := by
  by_cases hu : u = t
  · subst hu
    simp [h]
  · simp [hu]

theorem update_gains {p : Thread R → Prop} (h : p th) (u) :
    p (update f t th u) ↔ p (f u) ∨ u = t := by
  by_cases hu : u = t
  · simp [hu, h]
  · simp [hu]

theorem update_loses {p : Thread R → Prop} (h : ¬ p th) (u) :
    p (update f t th u) ↔ p (f u) ∧ u ≠ t := by
  by_cases hu : u = t
  · simp [hu, h]
  · simp [hu]

/-- A state other than the new one was there before. -/
theorem eq_of_update {s : Thread R} {u} (hu : update f t th u = s) (h : th ≠ s) : f u = s ∧ u ≠ t :=
  (update_loses (p := (· = s)) h u).mp hu

theorem Counted.keep (h : Counted n f) (ht : f t = old) (hth : th.Holds ↔ old.Holds) :
    Counted n (update f t th) := by
  subst ht
  obtain ⟨l, hl, hn⟩ := h
  exact ⟨l, hl.congr (update_keeps hth), hn⟩

theorem Counted.join (h : Counted n f) (ht : f t = old) (hold : ¬ old.Holds) (hnew : th.Holds) :
    Counted (n + 1) (update f t th) := by
  subst ht
  obtain ⟨l, hl, hn⟩ := h
  exact ⟨l ++ [t], hl.join hold (update_gains hnew), by rw [hn, length_append]; rfl⟩

theorem Counted.leave (h : Counted n f) (ht : f t = old) (hold : old.Holds) (hnew : ¬ th.Holds) :
    Counted (n - 1) (update f t th) := by
  subst ht
  obtain ⟨l, hl, hn⟩ := h
  refine ⟨l.erase t, hl.leave (update_loses hnew), ?_⟩
  rw [hn, length_erase_of_mem ((hl.mem_iff t).mpr hold)]

omit [DecidableEq T] in
theorem Counted.pos (h : Counted n f) (ht : f t = old) (hold : old.Holds) : n ≠ 0 := by
  subst ht
  obtain ⟨l, hl, rfl⟩ := h
  exact Nat.ne_of_gt (length_pos_of_mem ((hl.mem_iff t).mpr hold))

/-- A thread that is not on the roster changes. -/
theorem handed_update {l : List T} (h : t ∉ l) :
    l.flatMap (fun u => (update f t th u).handed) = l.flatMap fun u => (f u).handed := by
  apply flatMap_congr
  intro u hu
  have hut : u ≠ t := by
    rintro rfl
    exact h hu
  rw [update_of_ne hut]

/-- The threads parked in the stop stay as they are. -/
theorem Stopped.keep {st st' : State R} (h : Stopped st f) (ht : f t = old)
    (hold : ¬ old.ParkedIn st.gcEpoch) (hnew : ¬ th.ParkedIn st.gcEpoch) (hepoch : st'.gcEpoch = st.gcEpoch)
    (hstopped : st'.stopped = st.stopped) (hroots : st'.stoppedRoots = st.stoppedRoots)
    (hphase : st'.phase = .collecting ↔ st.phase = .collecting) :
    Stopped st' (update f t th) := by
  subst ht
  obtain ⟨l, hl, hlen, hsr⟩ := h
  refine ⟨l, ?_, hstopped.trans hlen, ?_⟩
  · rw [hepoch]
    exact hl.congr (update_keeps (p := (·.ParkedIn st.gcEpoch)) (iff_of_false hnew hold))
  · rw [hroots, hsr, handed_update fun hmem => hold ((hl.mem_iff t).mp hmem)]
    simp only [hphase]

/-- A thread parks in the stop. -/
theorem Stopped.park {st : State R} (h : Stopped st f) (hold : ¬ (f t).ParkedIn st.gcEpoch)
    (hphase : st.phase ≠ .collecting) (roots) :
    Stopped (st.park roots) (update f t (.parked st.gcEpoch roots)) := by
  obtain ⟨l, hl, hlen, hsr⟩ := h
  refine ⟨l ++ [t], hl.join hold (update_gains (p := (·.ParkedIn st.gcEpoch)) rfl), ?_, ?_⟩
  · rw [length_append, ← hlen]
    rfl
  rw [if_neg hphase] at hsr
  rw [if_neg (show (st.park roots).phase ≠ .collecting from hphase), flatMap_append,
    handed_update fun hmem => hold ((hl.mem_iff t).mp hmem), ← hsr, flatMap_singleton,
    update_self]
  rfl

/-- Tickets are not touched. -/
theorem Tickets.keep {entries next} (h : Tickets entries next f) (ht : f t = old)
    (hold : ∀ id e r, old ≠ .detached id e r) (hnew : ∀ id e r, th ≠ .detached id e r) :
    Tickets entries next (update f t th) := by
  subst ht
  have hiff : ∀ u id e r, update f t th u = .detached id e r ↔ f u = .detached id e r :=
    fun u id e r =>
      update_keeps (p := (· = .detached id e r)) (iff_of_false (hnew id e r) (hold id e r)) u
  refine ⟨h.nodup, fun id roots => ?_, fun ht hu => ?_, fun ht => ?_⟩
  · simp only [hiff]
    exact h.mem_iff id roots
  · exact h.inj ((hiff _ _ _ _).mp ht) ((hiff _ _ _ _).mp hu)
  · exact h.lt ((hiff _ _ _ _).mp ht)

/-- A new ticket. -/
theorem Tickets.publish {entries next} (h : Tickets entries next f) (ht : f t = old)
    (hold : ∀ id e r, old ≠ .detached id e r) (epoch roots) :
    Tickets (entries ++ [(next, roots)]) (next + 1)
      (update f t (.detached next epoch roots)) := by
  subst ht
  have hiff : ∀ u id e r, update f t (.detached next epoch roots) u = .detached id e r ↔
      (u = t ∧ id = next ∧ e = epoch ∧ r = roots) ∨ f u = .detached id e r := by
    intro u id e r
    by_cases hu : u = t
    · subst hu
      simp only [update_self, Thread.detached.injEq, hold, true_and, or_false]
      constructor
      · rintro ⟨rfl, rfl, rfl⟩
        exact ⟨rfl, rfl, rfl⟩
      · rintro ⟨rfl, rfl, rfl⟩
        exact ⟨rfl, rfl, rfl⟩
    · simp [hu]
  refine ⟨?_, fun id r => ?_, fun {a b id e e' r r'} ha hb => ?_, fun {a id e r} ha => ?_⟩
  · rw [map_append, map_singleton, nodup_append_comm, singleton_append, nodup_cons]
    refine ⟨fun hmem => ?_, h.nodup⟩
    obtain ⟨⟨id, r⟩, hid, hnext⟩ := mem_map.mp hmem
    obtain ⟨u, e, hu⟩ := (h.mem_iff id r).mp hid
    have := h.lt hu
    omega
  · rw [mem_append, mem_singleton, h.mem_iff, Prod.mk.injEq]
    simp only [hiff]
    constructor
    · rintro (⟨u, e, hu⟩ | ⟨rfl, rfl⟩)
      · exact ⟨u, e, .inr hu⟩
      · exact ⟨t, epoch, .inl ⟨rfl, rfl, rfl, rfl⟩⟩
    · rintro ⟨u, e, ⟨-, rfl, -, rfl⟩ | hu⟩
      · exact .inr ⟨rfl, rfl⟩
      · exact .inl ⟨u, e, hu⟩
  · obtain ⟨rfl, rfl, -⟩ | ha' := (hiff _ _ _ _).mp ha
    · obtain ⟨rfl, -⟩ | hb' := (hiff _ _ _ _).mp hb
      · rfl
      · exact absurd (h.lt hb') (Nat.lt_irrefl _)
    · obtain ⟨-, rfl, -⟩ | hb' := (hiff _ _ _ _).mp hb
      · exact absurd (h.lt ha') (Nat.lt_irrefl _)
      · exact h.inj ha' hb'
  · obtain ⟨-, rfl, -⟩ | ha' := (hiff _ _ _ _).mp ha
    · exact Nat.lt_succ_self _
    · exact Nat.lt_succ_of_lt (h.lt ha')

/-- **A live ticket's roots are found**, and exactly that entry goes. -/
theorem Tickets.withdraw {st : State R} (h : Tickets st.detachedRoots st.nextTicket f) {id}
    {roots : List R} (hold : f t = .detached id epoch roots) (th)
    (hnew : ∀ id e r, th ≠ .detached id e r) :
    ∃ entries, st.withdraw id = .ok { st with detachedRoots := entries } ∧
      Tickets entries st.nextTicket (update f t th) := by
  have hmem : (id, roots) ∈ st.detachedRoots := (h.mem_iff id roots).mpr ⟨t, epoch, hold⟩
  unfold State.withdraw
  cases hfind : st.detachedRoots.findIdx? (fun e => e.1 == id) with
  | none =>
    rw [findIdx?_eq_none_iff] at hfind
    have := hfind _ hmem
    simp at this
  | some i =>
    obtain ⟨hi, hid, -⟩ := findIdx?_eq_some_iff_getElem.mp hfind
    refine ⟨_, rfl, ?_⟩
    have hperm := swapRemove_perm (getElem?_eq_getElem hi)
    have hnodup := (hperm.map Prod.fst).nodup_iff.mpr h.nodup
    rw [map_cons, nodup_cons, beq_iff_eq.mp hid] at hnodup
    -- What is left is every other ticket's entry.
    have hleft : ∀ id' r, (id', r) ∈ swapRemove st.detachedRoots i ↔
        (id', r) ∈ st.detachedRoots ∧ id' ≠ id := by
      intro id' r
      rw [← hperm.mem_iff, mem_cons]
      constructor
      · intro hr
        refine ⟨.inr hr, ?_⟩
        rintro rfl
        exact hnodup.1 (mem_map_of_mem hr)
      · rintro ⟨heq | hr, hne⟩
        · exact absurd ((congrArg Prod.fst heq).trans (beq_iff_eq.mp hid)) hne
        · exact hr
    have hiff : ∀ u id' e r, update f t th u = .detached id' e r ↔
        f u = .detached id' e r ∧ u ≠ t :=
      fun u id' e r => update_loses (p := (· = .detached id' e r)) (hnew id' e r) u
    refine ⟨hnodup.2, fun id' r => ?_, fun ha hb => ?_, fun ha => ?_⟩
    · rw [hleft, h.mem_iff]
      simp only [hiff]
      constructor
      · rintro ⟨⟨u, e, hu⟩, hne⟩
        refine ⟨u, e, hu, ?_⟩
        rintro rfl
        rw [hold] at hu
        cases hu
        exact hne rfl
      · rintro ⟨u, e, hu, hne⟩
        refine ⟨⟨u, e, hu⟩, ?_⟩
        rintro rfl
        exact hne (h.inj hu hold)
    · exact h.inj ((hiff _ _ _ _).mp ha).1 ((hiff _ _ _ _).mp hb).1
    · exact h.lt ((hiff _ _ _ _).mp ha).1

/-! ### Phases -/

omit [DecidableEq T] in
/-- A thread that runs stops every collector from starting. -/
theorem Phases.not_collecting {phase} (h : Phases phase epoch f) (ht : f t = old)
    (hholds : old.Holds) (hlead : ¬ old.Leads) (hpark : ¬ old.ParkedIn epoch) :
    phase ≠ .collecting := by
  subst ht
  intro hphase
  obtain ⟨u, ⟨roots, hu⟩, hworld⟩ := h.world hphase
  by_cases htu : t = u
  · rw [htu, hu] at hlead
    exact hlead trivial
  · exact hpark (hworld t hholds htu)

/-- A thread that neither leads nor is parked changes to another such state. -/
theorem Phases.keep {phase} (h : Phases phase epoch f) (ht : f t = old) (hold : ¬ old.Leads)
    (hnew : ¬ th.Leads) (hpark : ∀ e handed, th ≠ .parked e handed) (hcollect : phase = .collecting → ¬ th.Holds) :
    Phases phase epoch (update f t th) := by
  subst ht
  refine ⟨?_, ?_, ?_, ?_, ?_, ?_⟩
  · intro u own hu
    exact h.requesting (eq_of_update hu (by rintro rfl; exact hnew trivial)).1
  · intro u roots hu
    exact h.collecting (eq_of_update hu (by rintro rfl; exact hnew trivial)).1
  · intro u v hu hv
    exact h.leader ((update_loses hnew u).mp hu).1 ((update_loses hnew v).mp hv).1
  · intro hphase u hu
    exact h.idle hphase u ((update_loses (p := (·.ParkedIn epoch)) (hpark _ _) u).mp hu).1
  · intro u e handed hu
    exact h.past (eq_of_update hu (hpark e handed)).1
  · intro hphase
    obtain ⟨l, ⟨roots, hl⟩, hworld⟩ := h.world hphase
    have hlt : l ≠ t := by
      rintro rfl
      rw [hl] at hold
      exact hold trivial
    refine ⟨l, ⟨roots, by rw [update_of_ne hlt, hl]⟩, fun u hu hul => ?_⟩
    obtain ⟨hu, hut⟩ := (update_loses (hcollect hphase) u).mp hu
    rw [update_of_ne hut]
    exact hworld u hu hul

/-- A thread parks in a stop that waits for it. -/
theorem Phases.park (h : Phases .requested epoch f) (roots) :
    Phases .requested epoch (update f t (.parked epoch roots)) := by
  refine ⟨fun _ => rfl, ?_, ?_, nofun, ?_, nofun⟩
  · intro u r hu
    exact h.collecting (eq_of_update hu nofun).1
  · intro u v hu hv
    exact h.leader ((update_loses nofun u).mp hu).1 ((update_loses nofun v).mp hv).1
  intro u e handed hu
  by_cases he : e = epoch
  · exact Nat.le_of_eq he
  · exact h.past (eq_of_update hu fun hp => he (by cases hp; rfl)).1

omit [DecidableEq T] in
/-- Nobody leads between two stops. -/
theorem Phases.idle_not_leads (h : Phases .idle epoch f) (u) : ¬ (f u).Leads := by
  intro hlead
  cases hu : f u with
  | requesting own => cases h.requesting hu
  | collecting roots => cases h.collecting hu
  | _ => rw [hu] at hlead; exact hlead

/-- A thread requests a stop. -/
theorem Phases.request (h : Phases .idle epoch f) (own) :
    Phases .requested epoch (update f t (.requesting own)) := by
  have hleads : ∀ u, (update f t (Thread.requesting own) u).Leads → u = t := by
    intro u hu
    exact ((update_gains trivial u).mp hu).resolve_left (h.idle_not_leads u)
  refine ⟨fun _ => rfl, ?_, ?_, nofun, ?_, nofun⟩
  · intro u r hu
    cases h.collecting (eq_of_update hu nofun).1
  · intro u v hu hv
    rw [hleads u hu, hleads v hv]
  · intro u e handed hu
    exact h.past (eq_of_update hu nofun).1

/-- The requester starts its collector when every other token is parked. -/
theorem Phases.beginCollect (h : Phases .requested epoch f) {own} (hold : f t = .requesting own)
    (hall : ∀ u, (f u).Holds → u ≠ t → (f u).ParkedIn epoch) (roots) :
    Phases .collecting epoch (update f t (.collecting roots)) := by
  have hlead : (f t).Leads := by rw [hold]; trivial
  have hleads : ∀ u, (update f t (Thread.collecting roots) u).Leads → u = t := by
    intro u hu
    exact ((update_gains trivial u).mp hu).elim (fun hu => h.leader hu hlead) id
  refine ⟨?_, fun _ => rfl, ?_, nofun, ?_, fun _ => ⟨t, ⟨roots, ?_⟩, ?_⟩⟩
  · intro u o hu
    obtain ⟨hu, hut⟩ := eq_of_update hu nofun
    exact absurd (h.leader (by rw [hu]; trivial) hlead) hut
  · intro u v hu hv
    rw [hleads u hu, hleads v hv]
  · intro u e handed hu
    exact h.past (eq_of_update hu nofun).1
  · rw [update_self]
  · intro u hu hut
    rw [update_of_ne hut] at hu ⊢
    exact hall u hu hut

/-- The stop ends. -/
theorem Phases.release (h : Phases .collecting epoch f) {roots} (hold : f t = .collecting roots) :
    Phases .idle (epoch + 1) (update f t .attached) := by
  have hlead : (f t).Leads := by rw [hold]; trivial
  have hleads : ∀ u, ¬ (update f t Thread.attached u).Leads := by
    intro u hu
    obtain ⟨hu, hut⟩ := (update_loses nofun u).mp hu
    exact hut (h.leader hu hlead)
  have hpast : ∀ {u e handed}, update f t Thread.attached u = .parked e handed →
      e ≤ epoch := fun hu => h.past (eq_of_update hu nofun).1
  refine ⟨?_, ?_, ?_, ?_, ?_, nofun⟩
  · intro u own hu
    exact absurd (by rw [hu]; trivial) (hleads u)
  · intro u r hu
    exact absurd (by rw [hu]; trivial) (hleads u)
  · intro u v hu
    exact absurd hu (hleads u)
  · intro _ u hu
    exact absurd (hpast hu) (by omega)
  · intro u e handed hu
    exact Nat.le_succ_of_le (hpast hu)

end

/-! ## Every step keeps the invariant -/

omit [DecidableEq T] in
/-- The requester's wait ended: every other token is parked in this stop. -/
theorem Inv.all_parked (h : Inv w) {own} (hth : w.thread t = .requesting own)
    (hall : w.coord.attached ≤ w.coord.stopped + 1) (u) (hu : (w.thread u).Holds) (hut : u ≠ t) :
    (w.thread u).ParkedIn w.coord.gcEpoch := by
  obtain ⟨l, hl, hlen⟩ := h.counted
  obtain ⟨m, hm, hmlen, -⟩ := h.stopped
  have hnot : ¬ (w.thread t).ParkedIn w.coord.gcEpoch := by
    rw [hth]
    nofun
  have hjoin : Lists (m ++ [t]) fun v => (w.thread v).ParkedIn w.coord.gcEpoch ∨ v = t :=
    hm.join hnot fun _ => .rfl
  have hcover := hjoin.covers hl
    (by
      rintro v (hv | rfl)
      · rw [hv]
        trivial
      · rw [hth]
        trivial)
    (by
      rw [length_append, length_singleton]
      omega)
    hu
  exact hcover.resolve_right hut

/-- A thread outside the stop changes, and with it only the count and the tickets. -/
theorem Inv.outside (h : Inv w) {old th n entries next} (ht : w.thread t = old)
    (hold : ¬ old.Leads) (hpark : ¬ old.ParkedIn w.coord.gcEpoch) (hnew : ¬ th.Leads)
    (hnew' : ∀ e handed, th ≠ .parked e handed) (hcollect : w.coord.phase = .collecting → ¬ th.Holds)
    (hcounted : Counted n (update w.thread t th))
    (htickets : Tickets entries next (update w.thread t th)) :
    Inv (w.put t { w.coord with attached := n, detachedRoots := entries, nextTicket := next } th) :=
  ⟨hcounted, h.stopped.keep ht hpark (hnew' _ _) rfl rfl rfl .rfl, htickets,
    h.phases.keep ht hold hnew hnew' hcollect, h.flag⟩

/-- **One section of one thread keeps the invariant.** -/
theorem Inv.step (h : Inv w) (hmove : Moves w t w') : Inv w' := by
  cases hmove with
  | attach hth hidle =>
    exact h.outside hth nofun nofun nofun nofun (by rw [hidle]; nofun)
      (h.counted.join hth nofun trivial) (h.tickets.keep hth nofun nofun)
  | poll roots hth =>
    have hrun := h.phases.not_collecting hth trivial nofun nofun
    exact h.outside hth nofun nofun nofun nofun (absurd · hrun) (h.counted.keep hth .rfl)
      (h.tickets.keep hth nofun nofun)
  | stale roots hth hidle =>
    exact h.outside hth nofun nofun nofun nofun (by rw [hidle]; nofun)
      (h.counted.keep hth .rfl) (h.tickets.keep hth nofun nofun)
  | park roots hth hstop =>
    obtain ⟨old, hth, hholds, hlead, hpark, hticket⟩ : ∃ old, w.thread t = old ∧ old.Holds ∧
        ¬ old.Leads ∧ ¬ old.ParkedIn w.coord.gcEpoch ∧ ∀ id e r, old ≠ .detached id e r := by
      rcases hth with hth | hth <;> exact ⟨_, hth, trivial, nofun, nofun, nofun⟩
    have hrun := h.phases.not_collecting hth hholds hlead hpark
    have hphase : w.coord.phase = .requested := by
      cases hp : w.coord.phase with
      | idle => exact absurd hp hstop
      | requested => rfl
      | collecting => exact absurd hp hrun
    have hphases := h.phases
    refine ⟨h.counted.keep hth (iff_of_true trivial hholds), h.stopped.park (hth ▸ hpark) hrun roots,
      h.tickets.keep hth hticket nofun, ?_, h.flag⟩
    change Phases w.coord.phase w.coord.gcEpoch _
    rw [hphase] at hphases ⊢
    exact hphases.park roots
  | resume epoch handed hth hmoved =>
    have hpark : ¬ (Thread.parked epoch handed).ParkedIn w.coord.gcEpoch := by
      intro hp
      cases hp
      exact hmoved rfl
    have hrun := h.phases.not_collecting hth trivial nofun hpark
    exact h.outside hth nofun hpark nofun nofun (absurd · hrun) (h.counted.keep hth .rfl)
      (h.tickets.keep hth nofun nofun)
  | detach roots hth hpos =>
    exact h.outside hth nofun nofun nofun nofun (fun _ => nofun)
      (h.counted.leave hth trivial nofun) (h.tickets.publish hth nofun _ _)
  | drop hth hpos =>
    exact h.outside hth nofun nofun nofun nofun (fun _ => nofun)
      (h.counted.leave hth trivial nofun) (h.tickets.keep hth nofun nofun)
  | request own hth hidle =>
    have hphases := h.phases
    rw [hidle] at hphases
    exact ⟨h.counted.keep hth .rfl,
      h.stopped.keep hth nofun nofun rfl rfl rfl (iff_of_false nofun (by rw [hidle]; nofun)),
      h.tickets.keep hth nofun nofun, hphases.request own, rfl⟩
  | beginCollect own hth hall =>
    have hphases := h.phases
    have hphase := hphases.requesting hth
    have hparked := h.all_parked hth hall
    rw [hphase] at hphases
    obtain ⟨l, hl, hlen, -⟩ := h.stopped
    refine ⟨h.counted.keep hth .rfl, ⟨l, hl.congr ?_, hlen, rfl⟩,
      h.tickets.keep hth nofun nofun, hphases.beginCollect hth hparked _, ?_⟩
    · exact update_keeps (p := (·.ParkedIn w.coord.gcEpoch))
        (iff_of_false nofun (by rw [hth]; nofun))
    · change w.coord.stw = _
      rw [h.flag, hphase]
      rfl
  | release roots hth hempty =>
    have hphases := h.phases
    rw [hphases.collecting hth] at hphases
    have hnext := hphases.release hth
    exact ⟨h.counted.keep hth .rfl, ⟨[], Lists.nil (hnext.idle rfl), rfl, hempty⟩,
      h.tickets.keep hth nofun nofun, hnext, rfl⟩
  | reattach ticket epoch published st hth hidle hst =>
    obtain ⟨entries, hw, htickets⟩ := h.tickets.withdraw hth .attached nofun
    rw [hw] at hst
    cases hst
    exact h.outside hth nofun nofun nofun nofun (by rw [hidle]; nofun)
      (h.counted.join hth nofun trivial) htickets
  | dropTicket ticket epoch published st hth hst =>
    obtain ⟨entries, hw, htickets⟩ := h.tickets.withdraw hth .out nofun
    rw [hw] at hst
    cases hst
    exact h.outside hth nofun nofun nofun nofun (fun _ => nofun) (h.counted.keep hth .rfl)
      htickets

theorem reachable_inv (h : Reachable w) : Inv w := by
  induction h with
  | refl => exact inv_init
  | tail _ hnext ih =>
    obtain ⟨t, a, hstep⟩ := hnext
    exact ih.step (moves_of_step hstep)

/-! ## Whole runs -/

omit [DecidableEq T] in
theorem State.withdraw_ok {st st' : State R} {id} (h : st.withdraw id = .ok st') :
    ∃ entries, st' = { st with detachedRoots := entries } := by
  unfold State.withdraw at h
  split at h
  · cases h
  · cases h
    exact ⟨_, rfl⟩

/-- The stop number only moves when a collector ends. -/
theorem World.Moves.epoch (hmove : Moves w t w') : w'.coord.gcEpoch = w.coord.gcEpoch ∨
      (∃ roots, w.thread t = .collecting roots) ∧ w'.coord.gcEpoch = w.coord.gcEpoch + 1 := by
  cases hmove with
  | release roots hth => exact .inr ⟨⟨roots, hth⟩, rfl⟩
  | reattach _ _ _ _ _ _ hst | dropTicket _ _ _ _ _ hst =>
    obtain ⟨_, rfl⟩ := State.withdraw_ok hst
    exact .inl rfl
  | _ => exact .inl rfl

/-- From the start of the collector of stop `n` on, that stop runs or is over. -/
def From (n : Nat) (w : World T R) : Prop :=
  (w.coord.phase = .collecting ∧ w.coord.gcEpoch = n) ∨ n < w.coord.gcEpoch

theorem From.step {n : Nat} (hn : From n w) (hmove : Moves w t w') : From n w' := by
  have hepoch := hmove.epoch
  rcases hn with ⟨hphase, hn⟩ | hn
  · rcases hepoch with heq | ⟨-, hsucc⟩
    · refine .inl ⟨?_, heq.trans hn⟩
      cases hmove with
      | request own hth hidle => rw [hidle] at hphase; cases hphase
      | beginCollect own hth hall => rfl
      | release roots hth => exact absurd heq (Nat.succ_ne_self _)
      | reattach ticket epoch published st hth hidle hst => rw [hidle] at hphase; cases hphase
      | dropTicket ticket epoch published st hth hst =>
        obtain ⟨_, rfl⟩ := State.withdraw_ok hst
        exact hphase
      | _ => exact hphase
    · exact .inr (by omega)
  · exact .inr (by omega)

theorem From.run {n} (hn : From n w) (h : Inv w) (hrun : Run w w') : From n w' ∧ Inv w' := by
  induction hrun with
  | refl => exact ⟨hn, h⟩
  | tail _ hnext ih =>
    obtain ⟨t, a, hstep⟩ := hnext
    have hmove := moves_of_step hstep
    exact ⟨ih.1.step hmove, ih.2.step hmove⟩

/-- **No section panics**: the attached count does not underflow, a live ticket's roots are
    found, and the roots of a stop are drained when it ends. -/
theorem step_ne_panic (h : Inv w) (t a p) : w.step t a ≠ some (.error p) := by
  intro hstep
  unfold step at hstep
  split at hstep
  · unfold State.attach State.waitIdle at hstep
    split at hstep <;> cases hstep
  · cases hstep
  · split at hstep <;> cases hstep
  · split at hstep <;> cases hstep
  · next roots hth =>
    have hpos := h.counted.pos hth trivial
    unfold State.detach State.leave at hstep
    dsimp only at hstep
    rw [if_neg hpos] at hstep
    cases hstep
  · next hth =>
    have hpos := h.counted.pos hth trivial
    unfold State.leave at hstep
    rw [if_neg hpos] at hstep
    cases hstep
  · split at hstep <;> cases hstep
  · unfold State.beginCollect at hstep
    split at hstep <;> cases hstep
  · next roots hth =>
    obtain ⟨l, -, -, hroots⟩ := h.stopped
    rw [if_pos (h.phases.collecting hth)] at hroots
    unfold State.release at hstep
    rw [if_neg (not_not.mpr hroots)] at hstep
    cases hstep
  · next ticket epoch published hth =>
    obtain ⟨entries, hw, -⟩ := h.tickets.withdraw hth .attached nofun
    unfold State.reattach State.waitIdle at hstep
    split at hstep
    · simp only [map_some, hw, Except.map] at hstep
      cases hstep
    · cases hstep
  · next ticket epoch published hth =>
    obtain ⟨entries, hw, -⟩ := h.tickets.withdraw hth .out nofun
    rw [hw] at hstep
    cases hstep
  · cases hstep

/-! ## The property of the system -/

/-- The entries are the live tickets with the roots published under them, each once. -/
structure LiveTickets (w : World T R) (entries : List (Nat × List R)) : Prop where
  once : (entries.map Prod.fst).Nodup
  live : ∀ id roots, (id, roots) ∈ entries ↔ ∃ t epoch, w.thread t = .detached id epoch roots
  holder : ∀ {t u id e e' roots roots'}, w.thread t = .detached id e roots →
    w.thread u = .detached id e' roots' → t = u

/-- What holds in every world.  A stop is numbered by the epoch in which it runs. -/
structure Safe (w : World T R) : Prop where
  /-- The attached count does not underflow and a live ticket's roots are found. -/
  noPanic : ∀ t a p, w.step t a ≠ some (.error p)
  /-- While a collector runs, every other token is parked in its stop. -/
  standstill : ∀ t roots, w.thread t = .collecting roots →
    ∀ u, (w.thread u).Holds → u ≠ t → (w.thread u).ParkedIn w.coord.gcEpoch
  /-- While a collector runs, no thread becomes attached. -/
  noAttach : ∀ t roots, w.thread t = .collecting roots →
    ∀ w', w.Next w' → ∀ u, (w'.thread u).Holds → (w.thread u).Holds
  /-- Collectors do not overlap. -/
  oneCollector : ∀ t u roots roots', w.thread t = .collecting roots →
    w.thread u = .collecting roots' → t = u
  /-- A collector gets the requester's roots, those handed in for this stop, and those of
      the live tickets. -/
  exactRoots : ∀ t a w' roots, w.step t a = some (.ok w') → w'.thread t = .collecting roots →
    ∃ own parked tickets, w.thread t = .requesting own ∧
      Lists parked (fun u => (w.thread u).ParkedIn w.coord.gcEpoch) ∧ LiveTickets w tickets ∧
      roots = own ++ parked.flatMap (fun u => (w.thread u).handed) ++ tickets.flatMap Prod.snd
  /-- Two collectors of one run have different numbers, so what was handed in for one stop
      is not used in another. -/
  newStop : ∀ t w1 w2 u w3, w.step t .beginCollect = some (.ok w1) → w1.Run w2 →
    w2.step u .beginCollect = some (.ok w3) → w.coord.gcEpoch < w2.coord.gcEpoch
  /-- A thread counts as stopped only in the stop it parked in. -/
  countsParked : ∃ parked, Lists parked (fun u => (w.thread u).ParkedIn w.coord.gcEpoch) ∧
    w.coord.stopped = parked.length
  /-- A parked thread resumes only after the collection of its stop ended. -/
  resumesAfter : ∀ t epoch handed w', w.thread t = .parked epoch handed → w.Next w' →
    w'.thread t ≠ .parked epoch handed → epoch < w.coord.gcEpoch
  /-- The number moves only when the collector of the stop ends. -/
  endsStop : ∀ w', w.Next w' → w'.coord.gcEpoch = w.coord.gcEpoch ∨
    (∃ t roots, w.thread t = .collecting roots) ∧ w'.coord.gcEpoch = w.coord.gcEpoch + 1

omit [DecidableEq T] in
theorem Inv.standstill (h : Inv w) {roots} (hth : w.thread t = .collecting roots) (u)
    (hu : (w.thread u).Holds) (hut : u ≠ t) : (w.thread u).ParkedIn w.coord.gcEpoch := by
  obtain ⟨l, ⟨r, hl⟩, hworld⟩ := h.phases.world (h.phases.collecting hth)
  have hlt : l = t := h.phases.leader (by rw [hl]; trivial) (by rw [hth]; trivial)
  subst hlt
  exact hworld u hu hut

/-- A thread gets a token only between two stops. -/
theorem World.Moves.idle_of_holds (hmove : Moves w t w') {u} (hu : (w'.thread u).Holds)
    (hnot : ¬ (w.thread u).Holds) : w.coord.phase = .idle := by
  have hself : u = t := by
    by_contra hut
    rw [hmove.other hut] at hu
    exact hnot hu
  subst hself
  cases hmove with
  | attach hth hidle => exact hidle
  | reattach ticket epoch published st hth hidle hst => exact hidle
  | park roots hth hstop =>
    rcases hth with hth | hth <;> rw [hth] at hnot <;> exact absurd trivial hnot
  | detach roots hth hpos | drop hth hpos | dropTicket ticket epoch published st hth hst =>
    rw [put_self] at hu; exact hu.elim
  | poll roots hth => rw [hth] at hnot; exact absurd trivial hnot
  | stale roots hth hidle => exact hidle
  | resume epoch handed hth hmoved => rw [hth] at hnot; exact absurd trivial hnot
  | request own hth hidle => exact hidle
  | beginCollect own hth hall => rw [hth] at hnot; exact absurd trivial hnot
  | release roots hth hempty => rw [hth] at hnot; exact absurd trivial hnot

/-- What a step that starts a collector found. -/
theorem World.Moves.begins (hmove : Moves w t w') {roots}
    (hth' : w'.thread t = .collecting roots) :
    ∃ own, w.thread t = .requesting own ∧ w'.coord.phase = .collecting ∧
      w'.coord.gcEpoch = w.coord.gcEpoch ∧
      roots = own ++ w.coord.stoppedRoots ++ w.coord.detachedRoots.flatMap Prod.snd := by
  cases hmove with
  | beginCollect own hth hall =>
    rw [put_self] at hth'
    cases hth'
    exact ⟨own, hth, rfl, rfl, rfl⟩
  | _ =>
    rw [put_self] at hth'
    cases hth'

/-- A parked thread that goes on saw the epoch move. -/
theorem World.Moves.resumes {u} (hmove : Moves w t w') {epoch handed}
    (hth : w.thread u = .parked epoch handed) (hgone : w'.thread u ≠ .parked epoch handed) :
    w.coord.gcEpoch ≠ epoch := by
  have hself : u = t := by
    by_contra hut
    rw [hmove.other hut] at hgone
    exact hgone hth
  subst hself
  cases hmove with
  | resume e h hold hmoved =>
    rw [hold] at hth
    cases hth
    exact hmoved
  | park roots hold hstop => rcases hold with hold | hold <;> rw [hold] at hth <;> cases hth
  | _ => simp_all

/-- A step that starts a collector leaves the stop running, under its number. -/
theorem begin_from {w1} (h : w.step t .beginCollect = some (.ok w1)) :
    From w.coord.gcEpoch w1 ∧ ∃ own, w.thread t = .requesting own := by
  have hcollects : ∃ roots, w1.thread t = .collecting roots := by
    unfold step at h
    cases hth : w.thread t with
    | requesting own =>
      rw [hth] at h
      dsimp only at h
      cases hb : w.coord.beginCollect own with
      | none => rw [hb] at h; cases h
      | some r =>
        rw [hb] at h
        cases h
        exact ⟨r.1, put_self w t _ _⟩
    | _ => rw [hth] at h; cases h
  obtain ⟨roots, hroots⟩ := hcollects
  obtain ⟨own, hth, hphase, hepoch, -⟩ := (moves_of_step h).begins hroots
  exact ⟨.inl ⟨hphase, hepoch⟩, own, hth⟩

/-- **Stop the world**: every reachable world is safe. -/
theorem stop_the_world {w : World T R} (h : World.Reachable w) : Safe w := by
  have hinv := reachable_inv h
  refine ⟨step_ne_panic hinv, fun t roots hth => hinv.standstill hth, ?_, ?_, ?_, ?_, ?_, ?_, ?_⟩
  · intro t roots hth w' hnext u hu
    obtain ⟨s, a, hstep⟩ := hnext
    by_contra hnot
    have hidle := (moves_of_step hstep).idle_of_holds hu hnot
    rw [hinv.phases.collecting hth] at hidle
    cases hidle
  · intro t u roots roots' ht hu
    exact hinv.phases.leader (by rw [ht]; trivial) (by rw [hu]; trivial)
  · intro t a w' roots hstep hth'
    obtain ⟨own, hth, -, -, hroots⟩ := (moves_of_step hstep).begins hth'
    obtain ⟨parked, hparked, -, hsr⟩ := hinv.stopped
    rw [if_neg (by rw [hinv.phases.requesting hth]; nofun)] at hsr
    refine ⟨own, parked, w.coord.detachedRoots, hth, hparked, ?_, by rw [hroots, hsr]⟩
    exact ⟨hinv.tickets.nodup, hinv.tickets.mem_iff, hinv.tickets.inj⟩
  · intro t w1 w2 u w3 hbegin hrun hbegin'
    obtain ⟨hfrom, -⟩ := begin_from hbegin
    obtain ⟨hfrom2, hinv2⟩ := hfrom.run (hinv.step (moves_of_step hbegin)) hrun
    obtain ⟨-, own, hth⟩ := begin_from hbegin'
    rcases hfrom2 with ⟨hphase, -⟩ | hlt
    · rw [hinv2.phases.requesting hth] at hphase
      cases hphase
    · exact hlt
  · obtain ⟨parked, hparked, hlen, -⟩ := hinv.stopped
    exact ⟨parked, hparked, hlen⟩
  · intro t epoch handed w' hth hnext hgone
    obtain ⟨s, a, hstep⟩ := hnext
    have hne := (moves_of_step hstep).resumes hth hgone
    have hle := hinv.phases.past hth
    omega
  · intro w' hnext
    obtain ⟨s, a, hstep⟩ := hnext
    rcases (moves_of_step hstep).epoch with heq | ⟨⟨roots, hth⟩, hsucc⟩
    · exact .inl heq
    · exact .inr ⟨⟨s, roots, hth⟩, hsucc⟩

/-- Three threads: one requests, one polls, one is detached. -/
def threeThreads : List (Nat × Act Nat) :=
  [(0, .attach), (1, .attach), (2, .attach), (2, .detach [9]), (0, .request [7]), (1, .poll [8]),
    (1, .stopHere)]

theorem stop_the_world_three :
    ∃ w w' : World Nat Nat, World.exec .init threeThreads = some w ∧
      w.step 0 .beginCollect = some (.ok w') ∧ w'.thread 0 = .collecting [7, 8, 9] ∧
      Safe w ∧ Safe w' := by
  have hrun {w : World Nat Nat} (hw : exec .init threeThreads = some w) : w.Reachable :=
    run_of_exec hw
  exact ⟨_, _, rfl, rfl, rfl, stop_the_world (hrun rfl),
    stop_the_world ((hrun rfl).tail ⟨0, .beginCollect, rfl⟩)⟩

end ChezziLang.Vm.GcCoord
