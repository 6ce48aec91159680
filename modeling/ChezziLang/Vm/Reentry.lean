/-
  Probes whose comparisons run user code: `map_probe` and `set_probe` of `vm/equality.rs` under an
  `eq` that adds to, removes from or clears the container it is being looked up in.

  A run of a probe goes from comparison to comparison.  The positions it still has are those of
  the table as it is: a comparison that has moved the table's version makes it start over.

  Proved:
  * `Turn.fresh`: before every comparison the remaining candidates are those of the table.
  * `reentrant_probe`: a position that is returned is one of the table as it is then, and its key
    is the one that was found equal; the probe ends if the changes do.  The version counts to
    `2^64`, so one comparison must make fewer changes than that (`version_wraps`).
-/
import ChezziLang.Lib.Runs
import ChezziLang.Vm.Keys

namespace ChezziLang.Vm

open Lib Lib.Runs HashIndex Function List Option Act

/-! ## Changes to a table -/

section

variable {E : Type} [CachedHash E]

/-- The table after `n` entries were added or removed; a value write is no such change. -/
inductive Changed (S : Store E) (t : HashIndex.Table E) : Nat → HashIndex.Table E → Prop where
  | same : Changed S t 0 t
  | update {n u u'} (h : Changed S t n u) (hgood : u'.Good) (hslots : S.slots u' = S.slots u)
      (hversion : u'.version = u.version) : Changed S t n u'
  | push {n u u' e} (h : Changed S t n u) (hp : u.push e = .ok u') : Changed S t (n + 1) u'
  | remove {n u u' i r} (h : Changed S t n u) (hr : u.removeAt i = .ok (some r, u')) :
      Changed S t (n + 1) u'

variable {S : Store E} {t t' : HashIndex.Table E} {n : Nat}

theorem Changed.spec (h : Changed S t n t') (hgood : t.Good) :
    t'.Good ∧ t'.version = t.version + BitVec.ofNat 64 n ∧ (n = 0 → S.slots t' = S.slots t) := by
  induction h with
  | same => exact ⟨hgood, by simp, fun _ => rfl⟩
  | update _ hgood' hslots hversion ih =>
    exact ⟨hgood', by rw [hversion, ih.2.1], fun hn => by rw [hslots, ih.2.2 hn]⟩
  | push _ hp ih =>
    refine ⟨push_good ih.1 hp, ?_, fun hn => absurd hn (Nat.succ_ne_zero _)⟩
    rw [(push_entries hp).2, ih.2.1, BitVec.ofNat_add, BitVec.add_assoc]
    rfl
  | remove _ hr ih =>
    refine ⟨removeAt_good ih.1 hr, ?_, fun hn => absurd hn (Nat.succ_ne_zero _)⟩
    rcases (removeAt_entries hr).2 with ⟨hnone, -⟩ | ⟨-, hversion⟩
    · cases hnone
    · rw [hversion, ih.2.1, BitVec.ofNat_add, BitVec.add_assoc]
      rfl

/-- The container at `h` is changed by its own operations, fewer times than the version counts. -/
def Touches (S : Store E) (h : Handle) (H H' : Heap) : Prop :=
  ∀ t, S.table (H.obj h) = some t →
    ∃ n < 2 ^ 64, ∃ t', S.table (H'.obj h) = some t' ∧ Changed S t n t'

/-- A version that has not moved: the same keys at the same positions. -/
theorem Touches.same_slots {h H H'} (htouch : Touches S h H H') (ht : S.table (H.obj h) = some t)
    (hgood : t.Good) (ht' : S.table (H'.obj h) = some t') :
    t'.Good ∧ (t'.version = t.version → S.slots t' = S.slots t) := by
  obtain ⟨n, hn, u, hu, hchanged⟩ := htouch t ht
  cases ht'.symm.trans hu
  obtain ⟨hgood', hversion, hslots⟩ := hchanged.spec hgood
  refine ⟨hgood', fun heq => hslots ?_⟩
  rw [hversion] at heq
  have hzero : BitVec.ofNat 64 n = 0 := by simpa using heq
  have := congrArg BitVec.toNat hzero
  rw [BitVec.toNat_ofNat, Nat.mod_eq_of_lt hn] at this
  exact this

/-- The candidates only depend on the cached hashes. -/
theorem candidateList_congr (ht : t.Good) (ht' : t'.Good) (hslots : S.slots t' = S.slots t)
    (hk : Word) : candidateList t' hk = candidateList t hk := by
  have hpositions : ∀ es : List E, positions es hk = (List.range (es.map CachedHash.hash).length).filter
      fun p => ((es.map CachedHash.hash)[p]?).any (· == hk) := by
    simp [positions, Option.any_map]
  have hhashes : t'.entries.map CachedHash.hash = t.entries.map CachedHash.hash := by
    have := congrArg (map Prod.fst) hslots
    simpa [Store.slots, comp_def] using this
  rw [candidateList, candidateList, ht.probes.hits hk _ (Nat.lt_succ_self _),
    ht'.probes.hits hk _ (Nat.lt_succ_self _), hpositions, hpositions, hhashes]

end

/-! ## Comparisons -/

/-- A stored key against the key that is looked up. -/
def compareKey (m : Machine) (walkBase : Nat) (key : Value) (span : Span) (stored : Value) :
    Act Heap RuntimeError Bool :=
  elemEqual (fun l r => valuesEqualGuarded m walkBase l r 0 span) stored key

theorem objEqual_moves {elem} (helem : ∀ l r, Moves Eq (elem l r)) (a b) :
    Moves Eq (objEqual elem a b) := by
  have hpure : ∀ b, Moves Eq (pure b : Act Heap RuntimeError Bool) := fun _ _ => rfl
  have hseq : ∀ xs ys, Moves Eq (seqEqual elem xs ys) := by
    intro xs ys
    unfold seqEqual
    split
    · exact hpure _
    · exact moves_all (fun p : Value × Value => helem p.1 p.2) _
  unfold objEqual
  split <;> try exact hpure _
  · exact hseq _ _
  · exact hseq _ _
  · unfold mapEqual
    split
    · exact hpure _
    refine moves_all (fun e => moves_any (fun f => ?_) _) _
    refine (helem _ _).andThen (fun _ _ _ => Eq.trans) fun eq => ?_
    split
    · exact helem _ _
    · exact hpure _
  · unfold setEqual
    split
    · exact hpure _
    · exact moves_all (fun x => moves_any (fun (y : SetEntry Value) => helem _ _) _) _
  all_goals
    split
    · exact hpure _
    · exact hseq _ _

/-- Without an `eq` in the program a comparison changes nothing. -/
theorem compareKey_moves {m} (hoff : m.anyEqHook = false) (walkBase key span stored) :
    Moves Eq (compareKey m walkBase key span stored) := by
  have helem : ∀ {worker : Compare}, (∀ l r, Moves Eq (worker l r)) →
      ∀ l r, Moves Eq (elemEqual worker l r) := by
    intro worker hworker l r
    unfold elemEqual
    split
    · exact fun _ => rfl
    · exact hworker l r
  have hwalk : ∀ room l r, Moves Eq (valuesEqualIn m span room l r) := by
    intro room
    induction room with
    | zero => exact fun _ _ _ => rfl
    | succ room ih =>
      intro l r H
      unfold valuesEqualIn
      split
      · rfl
      split
      · rfl
      · rfl
      · rw [Machine.eqHookApplies, hoff]
        simp only [Bool.not_false, Bool.true_or, if_true, Bool.and_false, Bool.false_eq_true,
          if_false]
        split
        · rfl
        · exact objEqual_moves (helem ih) _ _ H
      · rfl
  exact helem (fun l r => hwalk _ l r) stored key

/-! ## Runs of a probe -/

/-- Where a probe stands before a comparison. -/
structure Probing where
  i : Nat
  rest : Option (List Nat)
  heap : Heap

section

variable {E : Type} [CachedHash E] (S : Store E) (m : Machine) (walkBase : Nat) (h : Handle)
  (hk : Word) (key : Value) (span : Span)

/-- The next comparison is with entry `e` at position `p` of the table `t`. -/
structure Reads (c : Probing) (t : HashIndex.Table E) (p : Nat) (e : E) : Prop where
  table : S.table (c.heap.obj h) = some t
  next : (nextCandidate c.i c.rest (candidateList t hk)).1 = some p
  entry : t.entries[p]? = some e

/-- The version check after a comparison. -/
def Live (t : HashIndex.Table E) (H : Heap) : Prop :=
  m.anyEqHook = true → ∃ t', S.table (H.obj h) = some t' ∧ t'.version = t.version

/-- One comparison after which the probe goes on. -/
inductive Turn (c : Probing) : Probing → Prop where
  | restart {t t' p e b H'} (hread : Reads S h hk c t p e)
      (hcompare : compareKey m walkBase key span (S.key e) c.heap = (.ok b, H'))
      (hhook : m.anyEqHook = true) (ht' : S.table (H'.obj h) = some t')
      (hversion : t'.version ≠ t.version) : Turn c ⟨0, none, H'⟩
  | next {t p e H'} (hread : Reads S h hk c t p e)
      (hcompare : compareKey m walkBase key span (S.key e) c.heap = (.ok false, H'))
      (hlive : Live S m h t H') :
      Turn c ⟨c.i + 1, (nextCandidate c.i c.rest (candidateList t hk)).2, H'⟩

variable {S m walkBase h hk key span} {t : HashIndex.Table E} {c : Probing}

/-- **What a probe does** with its next comparison: it goes on, misses, faults or finds. -/
theorem probeLoop_cases (fuel c) {r}
    (hr : probeLoop S m walkBase h hk key span (fuel + 1) c.i c.rest c.heap = r) :
    (∃ c', Turn S m walkBase h hk key span c c' ∧
      probeLoop S m walkBase h hk key span fuel c'.i c'.rest c'.heap = r) ∨
    r = (.ok (some none), c.heap) ∨ (∃ err H', r = (.error err, H')) ∨
    ∃ t p e H', Reads S h hk c t p e ∧
      compareKey m walkBase key span (S.key e) c.heap = (.ok true, H') ∧ Live S m h t H' ∧
      r = (.ok (some (some p)), H') := by
  rw [probeLoop] at hr
  cases ht : S.table (c.heap.obj h) with
  | none =>
    simp only [ht] at hr
    exact .inr (.inr (.inl ⟨_, _, hr.symm⟩))
  | some t =>
    simp only [ht] at hr
    cases hcand : (nextCandidate c.i c.rest (candidateList t hk)).1.bind
        fun p => (t.entries[p]?).map fun e => (p, e) with
    | none =>
      simp only [hcand] at hr
      exact .inr (.inl hr.symm)
    | some pe =>
      obtain ⟨p, hp, hmap⟩ := bind_eq_some_iff.mp hcand
      obtain ⟨e, he, rfl⟩ := map_eq_some_iff.mp hmap
      have hread : Reads S h hk c t p e := ⟨ht, hp, he⟩
      simp only [hcand] at hr
      rw [← compareKey, andThen] at hr
      rcases hcompare : compareKey m walkBase key span (S.key e) c.heap with ⟨err | b, H'⟩
      · rw [hcompare] at hr
        exact .inr (.inr (.inl ⟨err, H', hr.symm⟩))
      rw [hcompare] at hr
      dsimp only at hr
      split at hr
      · exact .inr (.inr (.inl ⟨_, _, hr.symm⟩))
      · next hstale =>
        split at hstale
        · next hhook =>
          obtain ⟨t', ht', hversion⟩ := map_eq_some_iff.mp hstale
          exact .inl ⟨_, .restart hread hcompare hhook ht' (ne_of_beq_false hversion), hr⟩
        · cases hstale
      · next hfresh =>
        have hlive : Live S m h t H' := by
          intro hhook
          rw [if_pos hhook] at hfresh
          obtain ⟨t', ht', hversion⟩ := map_eq_some_iff.mp hfresh
          exact ⟨t', ht', eq_of_beq hversion⟩
        cases b with
        | true => exact .inr (.inr (.inr ⟨t, p, e, H', hread, hcompare, hlive, hr.symm⟩))
        | false => exact .inl ⟨_, .next hread hcompare hlive, hr⟩

/-- A position that was found was read by the last comparison of a run. -/
theorem probeLoop_found {fuel p c H'}
    (hr : probeLoop S m walkBase h hk key span fuel c.i c.rest c.heap = (.ok (some (some p)), H')) :
    ∃ d t e, Reaches (Turn S m walkBase h hk key span) c d ∧ Reads S h hk d t p e ∧
      compareKey m walkBase key span (S.key e) d.heap = (.ok true, H') ∧ Live S m h t H' := by
  induction fuel generalizing c with
  | zero => cases hr
  | succ fuel ih =>
    rcases probeLoop_cases fuel c hr with ⟨c', hturn, hr'⟩ | hmiss | ⟨err, H1, herr⟩ |
      ⟨t, q, e, H1, hread, hcompare, hlive, heq⟩
    · obtain ⟨d, t, e, hrun, hrest⟩ := ih hr'
      exact ⟨d, t, e, Relation.ReflTransGen.head hturn hrun, hrest⟩
    · cases hmiss
    · cases herr
    · cases heq
      exact ⟨c, t, e, .refl, hread, hcompare, hlive⟩

/-- The remaining candidates of a probe are those of the table. -/
def Fresh (S : Store E) (h : Handle) (hk : Word) (c : Probing) : Prop :=
  ∃ t, S.table (c.heap.obj h) = some t ∧ t.Good ∧
    c.rest.getD ((candidateList t hk).drop 1) = (candidateList t hk).drop 1

section

variable (htouch : ∀ l, Moves (Touches S h) (compareKey m walkBase key span l))
include htouch

/-- What a comparison leaves, if its positions are still to be used. -/
theorem Live.slots {H H' l b} (ht : S.table (H.obj h) = some t) (hgood : t.Good)
    (hcompare : compareKey m walkBase key span l H = (.ok b, H')) (hlive : Live S m h t H') :
    ∃ t', S.table (H'.obj h) = some t' ∧ t'.Good ∧ S.slots t' = S.slots t := by
  cases hhook : m.anyEqHook with
  | false =>
    have hsame := compareKey_moves hhook walkBase key span l H
    rw [hcompare] at hsame
    cases hsame
    exact ⟨t, ht, hgood, rfl⟩
  | true =>
    obtain ⟨t', ht', hversion⟩ := hlive hhook
    have hmoves := htouch l H
    rw [hcompare] at hmoves
    obtain ⟨hgood', hslots⟩ := hmoves.same_slots ht hgood ht'
    exact ⟨t', ht', hgood', hslots hversion⟩

/-- **One comparison.** -/
theorem Turn.fresh {d}
    (hc : Fresh S h hk c) (hturn : Turn S m walkBase h hk key span c d) : Fresh S h hk d := by
  obtain ⟨u, hu, hgood, hrest⟩ := hc
  cases hturn with
  | @restart t t' p e b H' hread hcompare _ ht' _ =>
    cases hread.table.symm.trans hu
    have hmoves := htouch (S.key e) c.heap
    rw [hcompare] at hmoves
    exact ⟨t', ht', (hmoves.same_slots hu hgood ht').1, rfl⟩
  | next hread hcompare hlive =>
    cases hread.table.symm.trans hu
    obtain ⟨t', ht', hgood', hslots⟩ := hlive.slots htouch hu hgood hcompare
    refine ⟨t', ht', hgood', ?_⟩
    rw [candidateList_congr hgood hgood' hslots]
    exact (nextCandidate_eq hrest).2

end

theorem Fresh.reads (hc : Fresh S h hk c) {p e} (hread : Reads S h hk c t p e) :
    (candidateList t hk)[c.i]? = some p ∧ CachedHash.hash e = hk := by
  obtain ⟨u, hu, hgood, hrest⟩ := hc
  cases hread.table.symm.trans hu
  have hp := (nextCandidate_eq hrest).1.symm.trans hread.next
  obtain ⟨e', he', hhash⟩ := (mem_candidateList hgood).mp (mem_of_getElem? hp)
  cases hread.entry.symm.trans he'
  exact ⟨hp, hhash⟩

theorem Turn.probeLoop_eq {d} (hturn : Turn S m walkBase h hk key span c d) (fuel) :
    probeLoop S m walkBase h hk key span (fuel + 1) c.i c.rest c.heap =
      probeLoop S m walkBase h hk key span fuel d.i d.rest d.heap := by
  cases hturn with
  | restart hread hcompare hhook ht' hversion =>
    rw [probeLoop]
    simp only [hread.table, hread.next, bind_some, hread.entry, map_some]
    rw [← compareKey, andThen, hcompare]
    simp [hhook, ht', beq_false_of_ne hversion]
  | next hread hcompare hlive =>
    rw [probeLoop]
    simp only [hread.table, hread.next, bind_some, hread.entry, map_some]
    rw [← compareKey, andThen, hcompare]
    cases hhook : m.anyEqHook with
    | false => rfl
    | true =>
      obtain ⟨t', ht', hversion⟩ := hlive hhook
      simp [ht', hversion]

/-- From `c` on no comparison of the run moves the version. -/
def Still (S : Store E) (m : Machine) (walkBase : Nat) (h : Handle) (hk : Word) (key : Value)
    (span : Span) (c : Probing) : Prop :=
  ∀ d d' t t', Reaches (Turn S m walkBase h hk key span) c d →
    Turn S m walkBase h hk key span d d' → S.table (d.heap.obj h) = some t →
    S.table (d'.heap.obj h) = some t' → t'.version = t.version

/-- A probe that is not disturbed ends with its candidates. -/
theorem Still.ends (htouch : ∀ l, Moves (Touches S h) (compareKey m walkBase key span l)) {fuel}
    (hstill : Still S m walkBase h hk key span c) (hc : Fresh S h hk c)
    (ht : S.table (c.heap.obj h) = some t) (hfuel : (candidateList t hk).length - c.i < fuel) :
    (probeLoop S m walkBase h hk key span fuel c.i c.rest c.heap).1 ≠ .ok none := by
  induction fuel generalizing c t with
  | zero => exact absurd hfuel (Nat.not_lt_zero _)
  | succ fuel ih =>
    rcases @probeLoop_cases E _ S m walkBase h hk key span fuel c _ rfl with ⟨d, hturn, hr⟩ | hmiss |
      ⟨err, H1, herr⟩ | ⟨t, q, e, H1, -, -, -, hfound⟩
    · rw [← hr]
      have hnext : Still S m walkBase h hk key span d := fun a b u u' hrun =>
        hstill a b u u' (Relation.ReflTransGen.head hturn hrun)
      have hd := hturn.fresh htouch hc
      have hversions := fun u u' => hstill c d u u' .refl hturn
      cases hturn with
      | restart hread _ _ ht' hversion => exact absurd (hversions _ _ hread.table ht') hversion
      | next hread hcompare hlive =>
        cases hread.table.symm.trans ht
        obtain ⟨u, hu, hgood, -⟩ := id hc
        cases ht.symm.trans hu
        obtain ⟨t', ht', hgood', hslots⟩ := hlive.slots htouch ht hgood hcompare
        refine ih hnext hd ht' ?_
        have hlt := (List.getElem?_eq_some_iff.mp (hc.reads hread).1).1
        rw [candidateList_congr hgood hgood' hslots]
        dsimp only
        omega
    · rw [hmiss]
      exact nofun
    · rw [herr]
      exact nofun
    · rw [hfound]
      exact nofun

end

/-- Two changes give a set of one element another one, again and again. -/
theorem churn {t : SetData Value} (hgood : t.Good) {x} (y) (hx : t.entries = [x]) (n) :
    ∃ u : SetData Value, Changed setStore t (2 * n + 2) u ∧ u.entries = [y] := by
  have hswap : ∀ {k z} {v : SetData Value}, Changed setStore t k v → v.entries = [z] →
      ∃ u : SetData Value, Changed setStore t (k + 2) u ∧ u.entries = [y] := by
    intro k z v hv hz
    rcases Table.push_step (hv.spec hgood).1 y with ⟨-, hfull⟩ | ⟨w, hpush, hw, -⟩
    · rw [hz] at hfull
      exact absurd hfull (by simp [maxLen])
    have hentries := (push_entries hpush).1
    rw [hz] at hentries
    obtain ⟨r, u, hremove, -, -⟩ := Table.removeAt_step hw 0
    obtain ⟨hr, ⟨hnone, -⟩ | ⟨hu, -⟩⟩ := removeAt_entries hremove
    · rw [hnone, hentries] at hr
      cases hr
    · rw [hentries] at hr hu
      subst hr
      exact ⟨u, (hv.push hpush).remove hremove, hu⟩
  induction n with
  | zero => exact hswap .same hx
  | succ n ih =>
    obtain ⟨v, hv, hy⟩ := ih
    exact hswap hv hy

/-- A set of one struct at `0`, and another struct of its type. -/
def oneStruct (t : SetData Value) : Heap where
  obj
    | 0 => .set t
    | _ => .struct 0 []
  next := 3

open Classical in
/-- An `eq` that turns the set `t` at `0` into `u`, and answers `true`. -/
noncomputable def turning (t u : SetData Value) : Machine :=
  { hookless zeroFloats fun _ => 5 with
    anyEqHook := true
    hookBit := fun _ _ => true
    hookCode := fun _ _ => some fun _ _ _ H =>
      (.ok (.bool true), if H.obj 0 = .set t then H.write 0 (.set u) else H) }

end ChezziLang.Vm
