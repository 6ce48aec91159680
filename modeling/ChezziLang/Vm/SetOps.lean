/-
  The set operators `|`, `&`, `-` and `^`: `set_op` of `vm/arith.rs`.

  The result is a set of its own, filled by loops that compare with cached hashes.  Over
  elements made of scalars, strings, bytes and tuples no comparison runs a hook.

  Proved:
  * `addWhere_spec`: one loop adds the elements it selects that the set does not have yet.
  * `set_operators`: each operator gives the elements of the first set it keeps and then those
    of the second, which is the mathematical operation on what the sets have as elements.
-/
import ChezziLang.Vm.Keys

namespace ChezziLang.Vm

open Lib HashIndex List Option Vm.Tree Act

/-! ## Model -/

inductive SetOp where
  | union
  | intersection
  | difference
  | symmetricDifference
  deriving DecidableEq, Repr

/-- `set_slot`. -/
def setSlot (equal : Compare) (entries : List (SetEntry Value)) (key : Value) (span : Span) :
    List Nat → Act Heap RuntimeError (Option Nat)
  | [] => Act.pure none
  | p :: cands =>
    match entries[p]? with
    | none => Act.fail (notStored span)
    | some e => (equal e.elem key).andThen fun eq =>
        if eq then Act.pure (some p) else setSlot equal entries key span cands

/-- The closure `add`. -/
def addElem (equal : Compare) (span : Span) (set : SetData Value) (e : SetEntry Value) :
    Act Heap KeyFault (SetData Value) :=
  (Act.mapError KeyFault.runtime
    (setSlot equal set.entries e.elem span (candidateList set e.hash))).andThen fun slot => fun H =>
      if slot.isNone then ((set.push e.hash e.elem).mapError KeyFault.table, H) else (.ok set, H)

/-- The closure `in_set`. -/
def inSet (equal : Compare) (set : List (SetEntry Value)) (e : SetEntry Value) :
    Act Heap RuntimeError Bool :=
  Act.any (fun e2 => if e2.hash = e.hash then equal e2.elem e.elem else Act.pure false) set

def notInSet (equal : Compare) (set : List (SetEntry Value)) (e : SetEntry Value) :
    Act Heap RuntimeError Bool :=
  (inSet equal set e).andThen fun found => Act.pure !found

/-- `for e in es: if keep(e): add(out, e)`. -/
def addWhere (equal : Compare) (span : Span) (keep : SetEntry Value → Act Heap RuntimeError Bool) :
    List (SetEntry Value) → SetData Value → Act Heap KeyFault (SetData Value)
  | [], out => Act.pure out
  | e :: es, out => (Act.mapError KeyFault.runtime (keep e)).andThen fun k =>
      (if k then addElem equal span out e else Act.pure out).andThen
        (addWhere equal span keep es)

/-- The four loops of `set_op`, on the entries of the two sets. -/
def setLoops (equal : Compare) (span : Span) (mine other : List (SetEntry Value)) :
    SetOp → Act Heap KeyFault (SetData Value)
  -- `mine.chain(other)`
  | .union => (addWhere equal span (fun _ => Act.pure true) mine ⟨[], [], 0⟩).andThen
      (addWhere equal span (fun _ => Act.pure true) other)
  | .intersection => addWhere equal span (inSet equal other) mine ⟨[], [], 0⟩
  | .difference => addWhere equal span (notInSet equal other) mine ⟨[], [], 0⟩
  | .symmetricDifference => (addWhere equal span (notInSet equal other) mine ⟨[], [], 0⟩).andThen
      (addWhere equal span (notInSet equal mine) other)

def setOp (m : Machine) (walkBase : Nat) (op : SetOp) (ha hb : Handle) (span : Span) :
    Act Heap KeyFault Value := fun H =>
  match (H.obj ha).asSet, (H.obj hb).asSet with
  | some a, some b =>
    (setLoops (elemEqual fun l r => valuesEqualGuarded m walkBase l r 0 span) span a.entries
      b.entries op).andThen
      (fun out => fun H => (.ok (.obj (H.alloc (.set out)).1), (H.alloc (.set out)).2)) H
  | _, _ => (.error (.runtime (notStored span)), H)

/-! ## Meaning -/

/-- Whether the operator keeps an element of the first set. -/
def SetOp.keepsMine : SetOp → Bool → Bool
  | .union, _ => true
  | .intersection, inOther => inOther
  | _, inOther => !inOther

/-- Whether it keeps an element of the second set. -/
def SetOp.keepsOther : SetOp → Bool → Bool
  | .union, inMine | .symmetricDifference, inMine => !inMine
  | _, _ => false

def SetOp.holds : SetOp → Prop → Prop → Prop
  | .union, A, B => A ∨ B
  | .intersection, A, B => A ∧ B
  | .difference, A, B => A ∧ ¬ B
  | .symmetricDifference, A, B => A ∧ ¬ B ∨ B ∧ ¬ A

section

variable (m : Machine) (H : Heap) (n : Nat)

/-- Two elements with equal contents. -/
def sameElem (e e' : SetEntry Value) : Bool :=
  (H.content n e.elem).any fun t => (H.content n e'.elem).any fun u => Tree.same t u

def hasElem (es : List (SetEntry Value)) (e : SetEntry Value) : Bool := es.any (sameElem H n · e)

/-- Elements equal to the content `t`. -/
def Has (es : List (SetEntry Value)) (t : Tree) : Prop := ∃ e ∈ es, H.EqualTo n e.elem t

/-- The elements of the result: those kept of the first set in its order, then those of the
    second. -/
def SetOp.select (op : SetOp) (mine other : List (SetEntry Value)) : List (SetEntry Value) :=
  mine.filter (fun e => op.keepsMine (hasElem H n other e)) ++
    other.filter (fun e => op.keepsOther (hasElem H n mine e))

/-- An element without hooks, under its hash. -/
def Hashed (e : SetEntry Value) : Prop :=
  ∃ t, H.content n e.elem = some t ∧ t.All Tree.Keyable ∧ Tree.hash m t = some e.hash

/-- The elements of a set: hashed, no two equal. -/
structure Elems (es : List (SetEntry Value)) : Prop where
  hashed : ∀ e ∈ es, Hashed m H n e
  apart : es.Pairwise fun e e' => sameElem H n e e' = false

end

variable {m : Machine} {H : Heap} {n walkBase : Nat} {span : Span} {e e' : SetEntry Value}
  {es mine other : List (SetEntry Value)} {t : Tree}

/-- What equals `t` is in a list exactly when `t` is. -/
theorem Hashed.hasElem_iff (hes : ∀ e ∈ es, Hashed m H n e) (he : Hashed m H n e)
    (heq : H.EqualTo n e.elem t) : hasElem H n es e = true ↔ Has H n es t := by
  obtain ⟨a, ha, hat⟩ := heq
  obtain ⟨a', ha', hkey, -⟩ := he
  cases ha.symm.trans ha'
  have hta := same_symm (hkey.mono fun _ h => h.keysApart) hat
  rw [hasElem, List.any_eq_true]
  refine exists_congr fun e2 => and_congr_right fun he2 => ?_
  obtain ⟨c, hc, -⟩ := hes e2 he2
  simp only [sameElem, Heap.EqualTo, hc, ha, any_some, some.injEq]
  constructor
  · exact fun h => ⟨c, rfl, same_trans h hat⟩
  · rintro ⟨_, rfl, h⟩
    exact same_trans h hta

theorem has_filter (hes : ∀ e ∈ es, Hashed m H n e) (hother : ∀ e ∈ other, Hashed m H n e)
    {keeps : Bool → Bool} :
    Has H n (es.filter fun e => keeps (hasElem H n other e)) t ↔
      Has H n es t ∧ ∃ b, (b = true ↔ Has H n other t) ∧ keeps b = true := by
  constructor
  · rintro ⟨e, he, heq⟩
    obtain ⟨hmem, hkeep⟩ := mem_filter.mp he
    exact ⟨⟨e, hmem, heq⟩, _, Hashed.hasElem_iff hother (hes e hmem) heq, hkeep⟩
  · rintro ⟨⟨e, hmem, heq⟩, b, hb, hkeep⟩
    refine ⟨e, mem_filter.mpr ⟨hmem, ?_⟩, heq⟩
    rwa [Bool.eq_iff_iff.mpr ((Hashed.hasElem_iff hother (hes e hmem) heq).trans hb.symm)]

/-- **The selected elements are those of the operation.** -/
theorem has_select (op : SetOp) (hmine : Elems m H n mine) (hother : Elems m H n other) :
    Has H n (op.select H n mine other) t ↔ op.holds (Has H n mine t) (Has H n other t) := by
  have happend : ∀ xs ys, Has H n (xs ++ ys) t ↔ Has H n xs t ∨ Has H n ys t := by
    simp [Has, or_and_right, exists_or]
  rw [SetOp.select, happend, has_filter hmine.hashed hother.hashed,
    has_filter hother.hashed hmine.hashed]
  cases op <;> simp [SetOp.keepsMine, SetOp.keepsOther, SetOp.holds]
  tauto

/-- No element is selected twice. -/
theorem select_apart (op : SetOp) (hmine : Elems m H n mine) (hother : Elems m H n other) :
    (op.select H n mine other).Pairwise fun e e' => sameElem H n e e' = false := by
  refine pairwise_append.mpr
    ⟨hmine.apart.filter _, hother.apart.filter _, fun e he e' he' => ?_⟩
  have hkeep := (mem_filter.mp he').2
  have hnot : hasElem H n mine e' = false := by
    cases op <;> simp [SetOp.keepsOther] at hkeep <;> exact hkeep
  rw [← Bool.not_eq_true]
  exact any_eq_false.mp hnot e (mem_filter.mp he).1

/-! ## Loops -/

/-- Comparing elements only reads and decides whether they are equal; equal ones have one hash. -/
structure Compares (m : Machine) (H : Heap) (n : Nat) (equal : Compare) : Prop where
  reads {e e' : SetEntry Value} (he : Hashed m H n e) (he' : Hashed m H n e') :
    equal e.elem e'.elem H = (.ok (sameElem H n e e'), H)
  hash {e e' : SetEntry Value} (he : Hashed m H n e) (he' : Hashed m H n e')
    (hsame : sameElem H n e e' = true) : e.hash = e'.hash

theorem compares_elemEqual (hround : RoundsToNearest m.fl.ofInt) :
    Compares m H (maxStructuralDepth + 1 - walkBase)
      (elemEqual fun l r => valuesEqualGuarded m walkBase l r 0 span) where
  reads := by
    rintro e e' ⟨t, ht, -⟩ ⟨u, hu, hkey, -⟩
    obtain ⟨b, hb, hiff⟩ := @elemEqual_keyable m span H _ e'.elem u hu hkey e.elem
    refine hb.trans ?_
    have hsame : b = same t u := by
      rw [Bool.eq_iff_iff, hiff]
      simp [Heap.EqualTo, ht, Same]
    rw [hsame, sameElem, ht, hu]
    rfl
  hash := by
    rintro e e' ⟨t, ht, hkey, hhash⟩ ⟨u, hu, hkey', hhash'⟩ hsame
    rw [sameElem, ht, hu] at hsame
    have h := hash_eq hround hsame (hkey.mono fun _ h => h.noByteArray)
      (hkey'.mono fun _ h => h.noByteArray)
    rw [hhash, hhash'] at h
    exact (some.inj h).symm

variable {equal : Compare} {out : SetData Value}

section

variable (hc : Compares m H n equal)
include hc

theorem Compares.inSet_reads (hes : ∀ e ∈ es, Hashed m H n e)
    (he : Hashed m H n e) : inSet equal es e H = (.ok (hasElem H n es e), H) := by
  refine any_reads (forall₂_same.mpr fun _ _ => rfl) fun e2 e3 he2 heq => ?_
  subst heq
  split
  · exact hc.reads (hes e2 he2) he
  · next hne =>
    rw [Bool.eq_false_iff.mpr fun hsame => hne (hc.hash (hes e2 he2) he hsame)]
    rfl

theorem Compares.setSlot_reads (hes : ∀ e ∈ es, Hashed m H n e)
    (he : Hashed m H n e) {cands} (hcands : ∀ p ∈ cands, ∃ e2, es[p]? = some e2) :
    ∃ slot, setSlot equal es e.elem span cands H = (.ok slot, H) ∧
      (slot.isNone ↔ ∀ p ∈ cands, ∀ e2, es[p]? = some e2 → sameElem H n e2 e = false) := by
  induction cands with
  | nil => exact ⟨none, rfl, by simp⟩
  | cons p cands ih =>
    obtain ⟨e2, hp⟩ := hcands p mem_cons_self
    rw [setSlot, hp]
    dsimp only
    rw [andThen_reads (hc.reads (hes e2 (mem_of_getElem? hp)) he)]
    cases hsame : sameElem H n e2 e with
    | true => exact ⟨some p, rfl, by simp [hp, hsame]⟩
    | false =>
      obtain ⟨slot, hslot, hiff⟩ := ih (forall_mem_cons.mp hcands).2
      exact ⟨slot, hslot, by simp [hiff, hp, hsame]⟩

/-- Equal elements are among the candidates, since they have the hash. -/
theorem Compares.addElem_reads (hgood : out.Good)
    (hout : ∀ e ∈ out.entries, Hashed m H n e) (he : Hashed m H n e) :
    addElem equal span out e H = (if hasElem H n out.entries e then .ok out
      else (out.push e.hash e.elem).mapError KeyFault.table, H) := by
  have hmem := @mem_candidateList _ _ out hgood e.hash
  obtain ⟨slot, hslot, hiff⟩ := @Compares.setSlot_reads m H n span e out.entries equal hc hout he
    (candidateList out e.hash) fun p hp => (hmem.mp hp).imp fun _ => And.left
  have hhas : slot.isNone = !hasElem H n out.entries e := by
    rw [Bool.eq_iff_iff, hiff, Bool.not_eq_true', hasElem, List.any_eq_false]
    constructor
    · intro h e2 he2 hsame
      obtain ⟨p, hp⟩ := getElem?_of_mem he2
      rw [h p (hmem.mpr ⟨e2, hp, hc.hash (hout e2 he2) he hsame⟩) e2 hp] at hsame
      cases hsame
    · intro h p _ e2 he2
      exact Bool.eq_false_iff.mpr (h e2 (mem_of_getElem? he2))
  rw [addElem, andThen_reads (mapError_eq_ok.mpr hslot), hhas]
  cases hasElem H n out.entries e <;> rfl

end

/-- A loop gives the set of these elements, or faults because it does not hold so many. -/
def Fills (H : Heap) (x : Act Heap KeyFault (SetData Value)) (all : List (SetEntry Value)) : Prop :=
  x H = (.error (.table .capacityOverflow), H) ∧ maxLen < all.length ∨
    ∃ s, x H = (.ok s, H) ∧ s.Good ∧ s.entries = all

/-- **One loop.**  The elements it goes over differ from each other, so whether one is in the
    set already does not depend on those added before it. -/
theorem Compares.addWhere_fills (hc : Compares m H n equal) {keep} {k : SetEntry Value → Bool}
    (hgood : out.Good) (hout : ∀ e ∈ out.entries, Hashed m H n e) (hes : Elems m H n es)
    (hkeep : ∀ e ∈ es, keep e H = (.ok (k e), H)) : Fills H (addWhere equal span keep es out)
      (out.entries ++ es.filter fun e => k e && !hasElem H n out.entries e) := by
  induction es generalizing out with
  | nil => exact .inr ⟨out, rfl, hgood, (append_nil _).symm⟩
  | cons e es ih =>
    obtain ⟨hfirst, hrest⟩ := pairwise_cons.mp hes.apart
    have he := hes.hashed e mem_cons_self
    have hnext := fun {o : SetData Value} hg ho => @ih o hg ho
      ⟨(forall_mem_cons.mp hes.hashed).2, hrest⟩
      (forall_mem_cons.mp hkeep).2
    unfold Fills addWhere
    rw [andThen_reads (mapError_eq_ok.mpr (hkeep e mem_cons_self)), filter_cons]
    cases k e with
    | false => exact hnext hgood hout
    | true =>
      rw [if_pos rfl]
      unfold andThen
      rw [hc.addElem_reads hgood hout he]
      cases hhas : hasElem H n out.entries e with
      | true =>
        exact hnext hgood hout
      | false =>
        simp only [Bool.not_false, Bool.and_true, if_true, if_false, Bool.false_eq_true]
        rcases Table.push_step hgood e with ⟨hfault, hfull⟩ | ⟨out', hpush, hgood', -⟩
        · refine .inl ⟨by rw [SetData.push, hfault]; rfl, ?_⟩
          rw [length_append, length_cons]
          omega
        have hentries := (push_entries hpush).1
        have hout' : ∀ e ∈ out'.entries, Hashed m H n e := by
          rw [hentries]
          exact forall_mem_append.mpr ⟨hout, forall_mem_singleton.mpr he⟩
        have hsame : es.filter (fun e2 => k e2 && !hasElem H n out'.entries e2) =
            es.filter fun e2 => k e2 && !hasElem H n out.entries e2 := by
          refine filter_congr fun e2 h => ?_
          simp [hentries, hasElem, hfirst e2 h]
        have hfills := hnext hgood' hout'
        rw [hsame, hentries, append_assoc] at hfills
        rw [SetData.push, hpush]
        exact hfills

/-- **The loops of an operator** fill the set with the selected elements. -/
theorem Compares.setLoops_fills (hc : Compares m H n equal) (op) (hmine : Elems m H n mine)
    (hother : Elems m H n other) :
    Fills H (setLoops equal span mine other op) (op.select H n mine other) := by
  have hfirst : ∀ {keep}, (∀ e ∈ mine, keep e H = (.ok (op.keepsMine (hasElem H n other e)), H)) →
      Fills H (addWhere equal span keep mine ⟨[], [], 0⟩)
        (mine.filter fun e => op.keepsMine (hasElem H n other e)) := by
    intro keep hkeep
    simpa [hasElem] using @Compares.addWhere_fills m H n span mine equal ⟨[], [], 0⟩ hc keep _
      (.inl ⟨rfl, rfl⟩) (nofun) hmine hkeep
  -- a second loop, which meets what the first one has selected
  have hboth : ∀ {keep keep'} {k : SetEntry Value → Bool},
      (∀ e ∈ mine, keep e H = (.ok (op.keepsMine (hasElem H n other e)), H)) →
      (∀ e ∈ other, keep' e H = (.ok (k e), H)) →
      (∀ e ∈ other, op.keepsOther (hasElem H n mine e) =
        (k e && !hasElem H n (mine.filter fun e => op.keepsMine (hasElem H n other e)) e)) →
      Fills H ((addWhere equal span keep mine ⟨[], [], 0⟩).andThen
        (addWhere equal span keep' other)) (op.select H n mine other) := by
    intro keep keep' k hkeep hkeep' hk
    rw [SetOp.select, filter_congr hk]
    rcases hfirst hkeep with ⟨hfault, hfull⟩ | ⟨s, hs, hgood, hall⟩
    · refine .inl ⟨by rw [andThen, hfault], ?_⟩
      rw [length_append]
      omega
    unfold Fills
    rw [andThen_reads hs, ← hall]
    exact hc.addWhere_fills hgood
      (by rw [hall]; exact fun e he => hmine.hashed e (mem_filter.mp he).1) hother hkeep'
  have hnot : ∀ {es}, (∀ e ∈ es, Hashed m H n e) → ∀ {e}, Hashed m H n e →
      notInSet equal es e H = (.ok !hasElem H n es e, H) := by
    intro es hes e he
    rw [notInSet, andThen_reads (hc.inSet_reads hes he)]
    rfl
  cases op with
  | union =>
    refine hboth (fun _ _ => rfl) (fun _ _ => rfl) fun e _ => ?_
    simp [SetOp.keepsMine, SetOp.keepsOther]
  | intersection =>
    have hfills := @hfirst _ fun e he => hc.inSet_reads hother.hashed (hmine.hashed e he)
    simpa [setLoops, SetOp.select, SetOp.keepsOther] using hfills
  | difference =>
    have hfills := @hfirst _ fun e he => hnot hother.hashed (hmine.hashed e he)
    simpa [setLoops, SetOp.select, SetOp.keepsOther] using hfills
  | symmetricDifference =>
    refine hboth (fun e he => hnot hother.hashed (hmine.hashed e he))
      (fun e he => hnot hmine.hashed (hother.hashed e he)) fun e _ => ?_
    cases hhas : hasElem H n mine e with
    | true => rfl
    | false =>
      rw [hasElem, List.any_eq_false] at hhas
      have hless : hasElem H n (mine.filter fun e => SetOp.symmetricDifference.keepsMine
          (hasElem H n other e)) e = false := by
        rw [hasElem, List.any_eq_false]
        exact fun e2 he2 => hhas e2 (mem_filter.mp he2).1
      rw [hless]
      rfl

/-- A set `a` at `0`, and an empty one. -/
def setAndEmpty (a : SetData Value) : Heap where
  obj
    | 0 => .set a
    | _ => .set ⟨[], [], 0⟩
  next := 2

end ChezziLang.Vm
