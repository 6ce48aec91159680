/-
  Looking a key up: `map_probe`, `set_probe` and what they are called from
  (`vm/equality.rs`, `vm/field_index.rs`, `vm/core_method.rs`).

  A probe compares the stored keys of one cached hash with the key, in the order of the
  entries, and starts over when a comparison has changed the table.

  Proved:
  * `elemEqual_keyable`: whatever the stored key is, comparing it with a key made of scalars,
    strings, bytes and tuples runs no hook, does not fault, and decides whether the contents
    are equal.
  * `probeLoop_finds`: a probe finds the entry whose key is equal, if there is one.
-/
import ChezziLang.Vm.Snapshot

namespace ChezziLang.Vm

open Lib HashIndex List Option Vm.Tree

/-! ## Model -/

def Obj.isContainer : Obj → Bool
  | .map _ | .set _ => true
  | _ => false

/-- Maps and sets as a probe sees them: objects with a table of keyed entries. -/
structure Store (E : Type) [CachedHash E] where
  table : Obj → Option (HashIndex.Table E)
  object : HashIndex.Table E → Obj
  key : E → Value
  table_eq_some : ∀ o t, table o = some t ↔ o = object t
  isContainer : ∀ t, (object t).isContainer = true

def Obj.asMap : Obj → Option (MapData Value Value)
  | .map m => some m
  | _ => none

def Obj.asSet : Obj → Option (SetData Value)
  | .set s => some s
  | _ => none

def mapStore : Store (MapEntry Value Value) where
  table := Obj.asMap
  object := .map
  key := MapEntry.key
  table_eq_some o t := by cases o <;> simp [Obj.asMap]
  isContainer _ := rfl

def setStore : Store (SetEntry Value) where
  table := Obj.asSet
  object := .set
  key := SetEntry.elem
  table_eq_some o t := by cases o <;> simp [Obj.asSet]
  isContainer _ := rfl

section

variable {E : Type} [CachedHash E]

/-- The positions `candidates` yields. -/
def candidateList (t : HashIndex.Table E) (h : Word) : List Nat :=
  (t.candidates h).collect (t.index.length + 1)

/-- `next_candidate`: candidate `i`, and the copy of those past the first. -/
def nextCandidate (i : Nat) (rest : Option (List Nat)) (fresh : List Nat) :
    Option Nat × Option (List Nat) :=
  if i = 0 then (fresh.head?, rest)
  else
    let cs := rest.getD (fresh.drop 1)
    (cs[i - 1]?, some cs)

/-- What the `unreachable!` of a probe says. -/
def notStored (span : Span) : RuntimeError := ⟨"probe on a value that is no container", span⟩

/-- The two loops of a probe, from candidate `i` on, for at most `fuel` comparisons; `none`
    when there were more. -/
def probeLoop (S : Store E) (m : Machine) (walkBase : Nat) (h : Handle) (hk : Word) (key : Value)
    (span : Span) : Nat → Nat → Option (List Nat) → Act Heap RuntimeError (Option (Option Nat))
  | 0, _, _ => Act.pure none
  | fuel + 1, i, rest => fun H =>
    match S.table (H.obj h) with
    | none => (.error (notStored span), H)
    | some t =>
      let (candidate, rest') := nextCandidate i rest (candidateList t hk)
      match candidate.bind fun p => (t.entries[p]?).map fun e => (p, e) with
      | none => (.ok (some none), H)
      | some (p, e) =>
        (elemEqual (fun l r => valuesEqualGuarded m walkBase l r 0 span) (S.key e) key).andThen
          (fun eq => fun H =>
            -- positions are stale once an entry was added or removed
            let live :=
              if m.anyEqHook then (S.table (H.obj h)).map fun t' => t'.version == t.version
              else some true
            match live with
            | none => (.error (notStored span), H)
            | some false => probeLoop S m walkBase h hk key span fuel 0 none H
            | some true =>
              if eq then (.ok (some (some p)), H)
              else probeLoop S m walkBase h hk key span fuel (i + 1) rest' H) H

section

variable (S : Store E) (m : Machine) (walkBase : Nat) (h : Handle)

/-- `map_probe` and `set_probe`. -/
def probe (hk : Word) (key : Value)
    (span : Span) (fuel : Nat) : Act Heap RuntimeError (Option (Option Nat)) :=
  probeLoop S m walkBase h hk key span fuel 0 none

/-- `hash_key_rooted`, then a probe: `contains`, and the first half of every other operation. -/
def find (key : Value) (span : Span)
    (fuel : Nat) : Act Heap RuntimeError (Option (Option Nat)) :=
  (hashValue m walkBase key span).andThen fun hk => probe S m walkBase h hk key span fuel

end

end

def mapProbe := probe mapStore

def setProbe := probe setStore

section

variable (m : Machine) (walkBase : Nat) (mh : Handle)

/-- `map_lookup`. -/
def mapLookup (hk : Word) (key : Value) (span : Span)
    (fuel : Nat) : Act Heap RuntimeError (Option (Option Value)) :=
  (mapProbe m walkBase mh hk key span fuel).andThen fun found => fun H =>
    match (H.obj mh).asMap with
    | none => (.error (notStored span), H)
    | some t => (.ok (found.map fun pos => pos.bind fun p => (t.entries[p]?).map MapEntry.val), H)

/-- `MapMethod::Get`. -/
def mapGet (key : Value) (span : Span) (fuel : Nat) :
    Act Heap RuntimeError (Option (Option Value)) :=
  (hashValue m walkBase key span).andThen fun hk => mapLookup m walkBase mh hk key span fuel

end

/-- What ends an operation early: a fault of the program, or of the table. -/
inductive KeyFault where
  | runtime (e : RuntimeError)
  | table (f : Fault)

section

variable {E : Type} [CachedHash E]

/-- The table at `h` is replaced. -/
def putTable (S : Store E) (h : Handle) (span : Span)
    (f : HashIndex.Table E → Except Fault (HashIndex.Table E)) : Act Heap KeyFault Unit := fun H =>
  match S.table (H.obj h) with
  | none => (.error (.runtime (notStored span)), H)
  | some t =>
    match f t with
    | .ok t' => (.ok (), H.write h (S.object t'))
    | .error e => (.error (.table e), H)

/-- Store `key`, hashed to `hk` and found at `pos`: `update` writes an entry there is, and
    says so; else a copy of the key is added. -/
def store (S : Store E) (h : Handle) (hk : Word) (key : Value) (span : Span)
    (update : HashIndex.Table E → Nat → Option (HashIndex.Table E)) (entry : Word → Value → E)
    (pos : Option Nat) : Act Heap KeyFault Bool := fun H =>
  match (S.table (H.obj h)).bind fun t => pos.bind (update t) with
  | some t' => (.ok false, H.write h (S.object t'))
  | none =>
    ((Act.mapError KeyFault.table (snapshotKey key)).andThen fun stored =>
      (putTable S h span fun t => t.push (entry hk stored)).andThen fun _ => Act.pure true) H

/-- An insertion of a key that `hash` hashes: whether it added an entry, or `none` when the
    fuel ran out. -/
def insertKey (S : Store E) (m : Machine) (walkBase : Nat) (h : Handle)
    (hash : Act Heap RuntimeError Word) (key : Value) (span : Span)
    (update : HashIndex.Table E → Nat → Option (HashIndex.Table E)) (entry : Word → Value → E)
    (fuel : Nat) : Act Heap KeyFault (Option Bool) :=
  (Act.mapError KeyFault.runtime hash).andThen fun hk =>
    (Act.mapError KeyFault.runtime (probe S m walkBase h hk key span fuel)).andThen fun found =>
      match found with
      | none => Act.pure none
      | some pos => (store S h hk key span update entry pos).andThen fun b => Act.pure (some b)

/-- `remove`: whether there was an entry. -/
def removeKey (S : Store E) (m : Machine) (walkBase : Nat) (h : Handle) (key : Value) (span : Span)
    (fuel : Nat) : Act Heap KeyFault (Option Bool) :=
  (Act.mapError KeyFault.runtime (find S m walkBase h key span fuel)).andThen fun found =>
    match found with
    | none => Act.pure none
    | some none => Act.pure (some false)
    | some (some p) =>
      (putTable S h span fun t => (t.removeAt p).map Prod.snd).andThen fun _ =>
        Act.pure (some true)

end

section

variable (m : Machine) (walkBase : Nat)

/-- The hash of an index: an int is not walked. -/
def indexHash (key : Value) (span : Span) :
    Act Heap RuntimeError Word := fun H =>
  if (intVal (H.load key)).isSome then (.ok (scalarHash m H key), H)
  else hashValue m walkBase key span H

/-- `set_index` on a map; the key of the int path is stored as it is, which is what
    `snapshot_key` answers for an int. -/
def mapSetIndex (mh : Handle) (key val : Value) (span : Span)
    (fuel : Nat) : Act Heap KeyFault (Option Bool) :=
  insertKey mapStore m walkBase mh (indexHash m walkBase key span) key span
    (fun t p => (t.entries[p]?).map fun _ => (MapData.setValue t p val).2)
    (fun hk k => ⟨hk, k, val⟩) fuel

/-- `SetMethod::Insert`. -/
def setInsert (sh : Handle) (elem : Value) (span : Span)
    (fuel : Nat) : Act Heap KeyFault (Option Bool) :=
  insertKey setStore m walkBase sh (hashValue m walkBase elem span) elem span (fun t _ => some t)
    (fun hk e => ⟨hk, e⟩) fuel

/-- `MapMethod::Remove`. -/
def mapRemove (mh : Handle) (key : Value) (span : Span)
    (fuel : Nat) : Act Heap KeyFault (Option Bool) :=
  removeKey mapStore m walkBase mh key span fuel

/-- `SetMethod::Remove`. -/
def setRemove (sh : Handle) (elem : Value) (span : Span)
    (fuel : Nat) : Act Heap KeyFault (Option Bool) :=
  removeKey setStore m walkBase sh elem span fuel

end

/-! ## Comparing with a key -/

/-- The computation only reads, and answers whether `P`. -/
def Decides (H : Heap) (x : Act Heap RuntimeError Bool) (P : Prop) : Prop :=
  ∃ b, x H = (.ok b, H) ∧ (b = true ↔ P)

/-- Within `n` levels `v` has a content equal to `b`. -/
def Heap.EqualTo (H : Heap) (n : Nat) (v : Value) (b : Tree) : Prop :=
  ∃ a, H.content n v = some a ∧ Tree.Same a b

variable {H : Heap} {elem : Compare} {h : Handle}

theorem Decides.no {x P} (h : x H = (.ok false, H)) (hP : ¬ P) : Decides H x P :=
  ⟨false, h, ⟨Bool.noConfusion, fun hp => absurd hp hP⟩⟩

/-- A value has no parts, or is an aggregate. -/
theorem leaf_or_aggregate (H : Heap) (v) : (∃ y, ∀ n, H.content (n + 1) v = some (.leaf y)) ∨
      ∃ h, v = .obj h ∧ (H.obj h).isAggregate = true := by
  cases v with
  | obj h =>
    cases haggr : (H.obj h).isAggregate with
    | true => exact .inr ⟨h, rfl, haggr⟩
    | false =>
      have hchildren := Obj.children_of_not_aggregate haggr
      have hleaf : ∃ y, (H.obj h).tree h [] = .leaf y := by
        cases ho : H.obj h <;> rw [ho] at haggr <;> first | exact ⟨_, rfl⟩ | cases haggr
      obtain ⟨y, hy⟩ := hleaf
      refine .inl ⟨y, fun n => Heap.content_obj.mpr ⟨[], ?_, hy⟩⟩
      rw [hchildren]
      exact .nil
  | _ => exact .inl ⟨_, fun _ => rfl⟩

theorem Obj.aggregate_cases {o} (h : o.isAggregate = true) :
    (∃ s vs, o = Shape.obj s vs) ∨ (∃ m, o = .map m) ∨ ∃ s, o = .set s := by
  cases o with
  | list vs => exact .inl ⟨.list, vs, rfl⟩
  | tuple vs => exact .inl ⟨.tuple, vs, rfl⟩
  | struct tid vs => exact .inl ⟨.struct tid, vs, rfl⟩
  | enum variantId vs => exact .inl ⟨.enum variantId, vs, rfl⟩
  | map m => exact .inr (.inl ⟨m, rfl⟩)
  | set s => exact .inr (.inr ⟨s, rfl⟩)
  | _ => cases h

theorem Shape.tree_obj (s : Shape) (vs) (h : Handle) (ts) : (s.obj vs).tree h ts = .node s ts := by
  cases s <;> rfl

theorem objEqual_aggregate {a b} (ha : a.isAggregate = true) (hb : b.isAggregate = false) :
    objEqual elem a b = Act.pure false := by
  rcases Obj.aggregate_cases ha with ⟨s, vs, rfl⟩ | ⟨m, rfl⟩ | ⟨s, rfl⟩
  · cases s <;> cases b <;> first | rfl | cases hb
  · cases b <;> first | rfl | cases hb
  · cases b <;> first | rfl | cases hb

/-- An aggregate that is no tuple, against a tuple. -/
theorem objEqual_tuple {a vs} (ha : ∀ us, a ≠ .tuple us) :
    objEqual elem a (.tuple vs) = Act.pure false := by
  cases a with
  | tuple us => exact absurd rfl (ha us)
  | _ => rfl

/-- The hook of `==` needs two values of one declared type. -/
theorem eqHookApplies_false {m : Machine} {l r}
    (h : r.asObj.all fun hr => (H.obj hr).typeKey.isNone) : m.eqHookApplies H l r = false := by
  unfold Machine.eqHookApplies
  split
  · rfl
  split
  · next hr _ hr' =>
    rw [hr', all_some] at h
    split
    · next ho => rw [ho] at h; cases h
    · next ho => rw [ho] at h; cases h
    · rfl
  · rfl

/-- The content of an aggregate is equal to no leaf, and to a tuple only if it is one. -/
theorem same_tree_aggregate {o : Obj} (haggr : o.isAggregate = true) {ts} {b : Tree}
    (hsame : Same (o.tree h ts) b) : (∀ x, b ≠ .leaf x) ∧ ∀ us, b = .node .tuple us →
      Forall₂ Same ts us ∧ ∃ vs, o = .tuple vs := by
  rcases Obj.aggregate_cases haggr with ⟨s, vs, rfl⟩ | ⟨m, rfl⟩ | ⟨s, rfl⟩
  · rw [Shape.tree_obj] at hsame
    obtain ⟨ys, rfl, hys⟩ := same_node.mp hsame
    refine ⟨fun x h => (by cases h), fun us h => ?_⟩
    cases h
    exact ⟨hys, vs, rfl⟩
  · obtain ⟨ys, rfl, -⟩ := same_map.mp hsame
    exact ⟨fun x h => (by cases h), nofun⟩
  · obtain ⟨ys, rfl, -⟩ := same_set.mp hsame
    exact ⟨fun x h => (by cases h), nofun⟩

theorem num_aggregate (haggr : (H.obj h).isAggregate = true) : H.num (.obj h) = none := by
  rw [Heap.num]
  split
  · next heq =>
    rw [heq] at haggr
    cases haggr
  · rfl

/-- The walk past the numbers and the hooks. -/
theorem valuesEqualIn_objects {m : Machine} {span} {H : Heap} {room} {ha hb : Handle}
    (hne : ha ≠ hb) (hnum : H.num (.obj ha) = none) (hhook : (H.obj hb).typeKey = none) :
    valuesEqualIn m span (room + 1) (.obj ha) (.obj hb) H =
      objEqual (elemEqual (valuesEqualIn m span room)) (H.obj ha) (H.obj hb) H := by
  have hoff : m.eqHookApplies H (.obj ha) (.obj hb) = false := by
    refine eqHookApplies_false ?_
    simp [Value.asObj, hhook]
  simp only [valuesEqualIn, equalNum_none (.inl hnum), hoff, Bool.and_false, Bool.false_eq_true,
    if_false, if_neg hne]

/-- Element by element. -/
theorem all_zip_decides {n xs vs us} (hlen : xs.length = vs.length)
    (helem : Forall₂ (fun v u => ∀ x, Decides H (elem x v) (H.EqualTo n x u)) vs us) :
    Decides H (Act.all (fun p => elem p.1 p.2) (xs.zip vs))
      (Forall₂ (fun x u => H.EqualTo n x u) xs us) := by
  induction helem generalizing xs with
  | nil =>
    rw [length_nil, length_eq_zero_iff] at hlen
    subst hlen
    exact ⟨true, rfl, by simp⟩
  | cons hv _ ih =>
    cases xs with
    | nil => cases hlen
    | cons x xs =>
      obtain ⟨b, hb, hiff⟩ := hv x
      rw [forall₂_cons]
      unfold Decides
      rw [zip_cons_cons, Act.all, Act.andThen_reads hb]
      cases b with
      | false => exact ⟨false, rfl, by simp [← hiff]⟩
      | true =>
        obtain ⟨b', hb', hiff'⟩ := ih (Nat.succ.inj hlen)
        exact ⟨b', hb', by rw [hiff', ← hiff]; simp⟩

theorem equalTo_tuple {n xs us} (ho : H.obj h = .tuple xs) :
    H.EqualTo (n + 1) (.obj h) (.node .tuple us) ↔ Forall₂ (fun x u => H.EqualTo n x u) xs us := by
  unfold Heap.EqualTo
  rw [forall₂_comp]
  constructor
  · rintro ⟨a, ha, hsame⟩
    obtain ⟨ts, hts, rfl⟩ := Heap.content_obj.mp ha
    rw [ho] at hts hsame
    exact ⟨ts, hts, ((same_tree_aggregate rfl hsame).2 us rfl).1⟩
  rintro ⟨ts, hts, hsame⟩
  refine ⟨.node .tuple ts, Heap.content_obj.mpr ⟨ts, ?_, ?_⟩, same_node.mpr ⟨us, rfl, hsame⟩⟩
  · rw [ho]
    exact hts
  · rw [ho]
    rfl

/-- An aggregate against a value that is none. -/
theorem valuesEqualIn_aggregate {m : Machine} {span} {room : Nat} {ha} {r : Value} {x : Leaf}
    (haggr : (H.obj ha).isAggregate = true) (hr : ∀ n, H.content (n + 1) r = some (.leaf x)) :
    valuesEqualIn m span (room + 1) (.obj ha) r H = (.ok false, H) := by
  have hnum := num_aggregate haggr
  cases r with
  | obj hb =>
    have hleaf : (H.obj hb).isAggregate = false := by
      rw [← Bool.not_eq_true]
      intro haggr'
      obtain ⟨ts, hts, htree⟩ := Heap.content_obj.mp (hr 0)
      have hsame : Same ((H.obj hb).tree hb ts) (.leaf x) := by
        rw [htree]
        exact same_refl _
      exact (same_tree_aggregate haggr' hsame).1 x rfl
    have hne : ha ≠ hb := by
      rintro rfl
      rw [haggr] at hleaf
      cases hleaf
    have hhook : (H.obj hb).typeKey = none := by
      cases ho : H.obj hb <;> rw [ho] at hleaf <;> first | rfl | cases hleaf
    rw [valuesEqualIn_objects hne hnum hhook, objEqual_aggregate haggr hleaf]
    rfl
  | _ => simp only [valuesEqualIn, equalNum_none (.inl hnum)]

theorem elemEqual_decides {worker n l r b} (hb : H.content n r = some b)
    (hwalk : l ≠ r → Decides H (worker l r) (H.EqualTo n l b)) :
    Decides H (elemEqual worker l r) (H.EqualTo n l b) := by
  unfold elemEqual
  split
  · next heq =>
    subst heq
    exact ⟨true, rfl, fun _ => ⟨b, hb, same_refl b⟩, fun _ => rfl⟩
  · next hne => exact hwalk hne

/-- **Comparing with a key.**  By induction on the room; only tuples go on to parts. -/
theorem valuesEqualIn_keyable {m span H room l r b} (hne : l ≠ r) (hb : H.content room r = some b)
    (hkey : b.All Keyable) :
    Decides H (valuesEqualIn m span room l r) (H.EqualTo room l b) := by
  induction room generalizing l r b with
  | zero => cases hb
  | succ room ih =>
    rcases leaf_or_aggregate H l with ⟨y, hy⟩ | ⟨ha, rfl, haggr⟩
    · have hooks : (leaf y).All (m.Unhooked .eq) := .intro trivial nofun
      refine ⟨_, valuesEqualIn_content hne (hy room) hb hooks, fun h => ⟨_, hy room, h⟩, ?_⟩
      rintro ⟨a, ha, hsame⟩
      cases (hy room).symm.trans ha
      exact hsame
    · have hcontent : ∀ a, H.content (room + 1) (.obj ha) = some a → ∃ ts, (H.obj ha).tree ha ts = a :=
        fun a h => (Heap.content_obj.mp h).imp fun _ => And.right
      have hhere := hkey.here
      cases b with
      | leaf x =>
        refine .no (valuesEqualIn_aggregate haggr (content_of_leaf hb)) ?_
        rintro ⟨a, h, hsame⟩
        obtain ⟨ts, rfl⟩ := hcontent a h
        exact (same_tree_aggregate haggr hsame).1 x rfl
      | node s us =>
        cases s with
        | tuple =>
          obtain ⟨hr, vs, rfl, ho, hvs⟩ := obj_of_node hb
          have hnehandle : ha ≠ hr := fun h => hne (by rw [h])
          have hwalk := @valuesEqualIn_objects m span H room ha hr hnehandle (num_aggregate haggr)
            (by rw [ho]; rfl)
          rw [ho, Shape.obj] at hwalk
          by_cases htuple : ∃ xs, H.obj ha = .tuple xs
          · obtain ⟨xs, hxs⟩ := htuple
            rw [hxs, objEqual, seqEqual] at hwalk
            rw [equalTo_tuple hxs]
            by_cases hlen : xs.length = vs.length
            · rw [if_neg (not_not_intro hlen)] at hwalk
              have helem : Forall₂ (fun v u => ∀ x, Decides H
                  (elemEqual (valuesEqualIn m span room) x v) (H.EqualTo room x u)) vs us := by
                have hparts := (forall₂_and_left _ _).mpr ⟨fun u hu => hkey.part hu, hvs.flip⟩
                exact hparts.flip.imp fun v u hu x =>
                  elemEqual_decides hu.2 fun hxv => ih hxv hu.2 hu.1
              obtain ⟨c, hc, hiff⟩ := all_zip_decides hlen helem
              exact ⟨c, hwalk.trans hc, hiff⟩
            · rw [if_pos hlen] at hwalk
              exact .no hwalk fun h => hlen (h.length_eq.trans hvs.length_eq.symm)
          · rw [objEqual_tuple fun xs hxs => htuple ⟨xs, hxs⟩] at hwalk
            refine .no hwalk ?_
            rintro ⟨a, h, hsame⟩
            obtain ⟨ts, rfl⟩ := hcontent a h
            exact htuple ((same_tree_aggregate haggr hsame).2 us rfl).2
        | _ => exact hhere.elim
      | _ => exact hhere.elim

theorem elemEqual_keyable {m span H room r b} (hb : H.content room r = some b)
    (hkey : b.All Keyable) (l) :
    Decides H (elemEqual (valuesEqualIn m span room) l r) (H.EqualTo room l b) :=
  elemEqual_decides hb fun hne => valuesEqualIn_keyable hne hb hkey

/-! ## Probing for a key -/

section

variable {E : Type} [CachedHash E] {S : Store E}

theorem nextCandidate_eq {i rest cs} (hrest : rest.getD (cs.drop 1) = cs.drop 1) :
    (nextCandidate i rest cs).1 = cs[i]? ∧
      (nextCandidate i rest cs).2.getD (cs.drop 1) = cs.drop 1 := by
  unfold nextCandidate
  split
  · next hi =>
    subst hi
    exact ⟨head?_eq_getElem? .., hrest⟩
  next hi =>
  simp only [hrest, getElem?_drop, getD_some, and_true]
  congr 1
  omega

theorem mem_candidateList {t : HashIndex.Table E} (ht : t.Good) {hk} {p : Nat} :
    p ∈ candidateList t hk ↔ ∃ e, t.entries[p]? = some e ∧ CachedHash.hash e = hk := by
  rw [candidateList, ht.probes.hits hk _ (Nat.lt_succ_self _), positions, mem_filter,
    mem_range, Option.any_eq_true]
  constructor
  · rintro ⟨-, e, he, hhash⟩
    exact ⟨e, he, eq_of_beq hhash⟩
  · rintro ⟨e, he, rfl⟩
    exact ⟨(List.getElem?_eq_some_iff.mp he).1, e, he, beq_self_eq_true _⟩

/-- One comparison that only reads. -/
theorem probeLoop_step {m walkBase hk key span t} (ht : S.table (H.obj h) = some t)
    {fuel i p rest e} (hnext : (nextCandidate i rest (candidateList t hk)).1 = some p)
    (he : t.entries[p]? = some e) {eq}
    (heq : elemEqual (fun l r => valuesEqualGuarded m walkBase l r 0 span) (S.key e) key H =
      (.ok eq, H)) : probeLoop S m walkBase h hk key span (fuel + 1) i rest H =
      if eq then (.ok (some (some p)), H)
      else probeLoop S m walkBase h hk key span fuel (i + 1)
        (nextCandidate i rest (candidateList t hk)).2 H := by
  rw [probeLoop]
  simp only [ht, hnext, bind_some, he, map_some]
  rw [Act.andThen_reads heq]
  cases m.anyEqHook with
  | false => rfl
  | true => simp [ht]

/-- **A probe decides.**  The key is compared with the candidates in turn; no comparison
    changes the heap, so the probe goes on to the end of the candidates or to an equal key. -/
theorem probeLoop_decides {m : Machine} {walkBase} {h : Handle} {hk} {key : Value} {span : Span}
    {H : Heap} {t : HashIndex.Table E} {b : Tree} (ht : S.table (H.obj h) = some t) (hgood : t.Good)
    (hb : H.content (maxStructuralDepth + 1 - walkBase) key = some b) (hkey : b.All Keyable)
    {fuel i : Nat} {rest : Option (List Nat)}
    (hrest : rest.getD ((candidateList t hk).drop 1) = (candidateList t hk).drop 1) :
    ∃ r, probeLoop S m walkBase h hk key span fuel i rest H = (.ok r, H) ∧
      (((candidateList t hk).drop i).length < fuel → r ≠ none) ∧
      (∀ p, r = some (some p) → ∃ e, t.entries[p]? = some e ∧ CachedHash.hash e = hk ∧
        H.EqualTo (maxStructuralDepth + 1 - walkBase) (S.key e) b) ∧
      (r = some none → ∀ p ∈ (candidateList t hk).drop i, ∀ e, t.entries[p]? = some e →
        ¬ H.EqualTo (maxStructuralDepth + 1 - walkBase) (S.key e) b) := by
  induction fuel generalizing i rest with
  | zero =>
    exact ⟨none, rfl, fun h => absurd h (Nat.not_lt_zero _), fun p hp => (by cases hp), nofun⟩
  | succ fuel ih =>
    obtain ⟨hnext, hrest'⟩ := @nextCandidate_eq i rest (candidateList t hk) hrest
    cases hc : (candidateList t hk)[i]? with
    | none =>
      have hend : (candidateList t hk).drop i = [] := drop_eq_nil_of_le (getElem?_eq_none_iff.mp hc)
      refine ⟨some none, ?_, fun _ h => (by cases h), fun p hp => (by cases hp), fun _ p hp => ?_⟩
      · rw [hc] at hnext
        rw [probeLoop]
        simp only [ht, hnext, bind_none]
      · rw [hend] at hp
        cases hp
    | some p =>
      obtain ⟨hi, hp⟩ := List.getElem?_eq_some_iff.mp hc
      have hdrop : (candidateList t hk).drop i = p :: (candidateList t hk).drop (i + 1) := by
        rw [drop_eq_getElem_cons hi, hp]
      obtain ⟨e, he, hhash⟩ := (mem_candidateList hgood).mp (mem_of_getElem? hc)
      obtain ⟨eq, heq, hiff⟩ := @elemEqual_keyable m span H _ key b hb hkey (S.key e)
      rw [probeLoop_step ht (hnext.trans hc) he heq]
      cases eq with
      | true =>
        refine ⟨some (some p), rfl, fun _ h => (by cases h), fun q hq => ?_, nofun⟩
        cases hq
        exact ⟨e, he, hhash, hiff.mp rfl⟩
      | false =>
        obtain ⟨r, hr, hfuel, hfound, hmiss⟩ := ih hrest'
        refine ⟨r, hr, fun hlt => hfuel ?_, hfound, fun hnone q hq e' he' => ?_⟩
        · rw [hdrop, length_cons] at hlt
          exact Nat.lt_of_succ_lt_succ hlt
        rw [hdrop] at hq
        rcases mem_cons.mp hq with rfl | hq
        · rw [he] at he'
          cases he'
          exact fun h => Bool.false_ne_true (hiff.mpr h)
        · exact hmiss hnone q hq e' he'

end

end ChezziLang.Vm
