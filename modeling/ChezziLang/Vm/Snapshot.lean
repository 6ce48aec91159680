/-
  The copy of a key that a map or a set stores: `snapshot_key`, `store_key_by_reference`,
  `cyclic_walk` and `snapshot_value` of `vm/hash.rs`.

  A struct, enum or tuple key is copied through every aggregate below it, each aggregate once;
  a key that is cyclic or nests past the limit is stored as it is.  Both walks follow the same
  order, the first to decide and the second to copy.

  Proved:
  * `cyclicWalk_content`: an acyclic key within the limit is copied.
  * `snapshotValue_copies`: the copy has the content of the key and shares with it only
    objects no program writes.
  * `snapshotKey_isolates`: whatever the program then writes outside the copy, the stored key
    keeps the content the key had, and its hash.
-/
import ChezziLang.Vm.Hash
import ChezziLang.Vm.MapIndex

namespace ChezziLang.Vm

open Lib HashIndex Function List Option Vm.Tree Act Heap

/-! ## Model -/

/-- The kinds the walks descend into. -/
def Obj.isAggregate : Obj → Bool
  | .list _ | .tuple _ | .map _ | .set _ | .struct _ _ | .enum _ _ => true
  | _ => false

/-- The kinds a copy keeps by reference. -/
def Obj.isKept (o : Obj) : Bool :=
  match o with
  | .byteArray _ => false
  | o => !o.isAggregate

/-- The loop of `cyclic_walk` over the children: whether one answers yes, and the handles
    cleared. -/
def anyCyclic (f : Value → List Handle → Bool × List Handle) :
    List Value → List Handle → Bool × List Handle
  | [], done => (false, done)
  | c :: cs, done =>
    match f c done with
    | (true, done) => (true, done)
    | (false, done) => anyCyclic f cs done

/-- `cyclic_walk`, by the levels left: whether the value must be stored by reference, and the
    handles cleared so far. -/
def cyclicWalk (H : Heap) : Nat → Value → List Handle → List Handle → Bool × List Handle
  | 0, v, _, done => (v.asObj.isSome, done)
  | room + 1, v, onPath, done =>
    match v.asObj with
    | none => (false, done)
    | some h =>
      if h ∈ onPath then (true, done)
      else if h ∈ done then (false, done)
      else if (H.obj h).isAggregate then
        match anyCyclic (fun c => cyclicWalk H room c (h :: onPath)) (H.obj h).children done with
        | (true, done) => (true, done)
        | (false, done) => (false, h :: done)
      else (false, h :: done)

/-- `store_key_by_reference`. -/
def storeKeyByReference (H : Heap) (v : Value) : Bool :=
  (cyclicWalk H (maxStructuralDepth + 1) v [] []).1

/-- What `snapshot_value` works on: the heap, and the copies made so far. -/
structure Copying where
  heap : Heap
  visited : List (Handle × Handle)

/-- What stands at the copy's handle until its parts are copied. -/
def Obj.placeholder : Obj → Obj
  | .map _ => .map ⟨[], [], 0⟩
  | .set _ => .set ⟨[], [], 0⟩
  | o => o

/-- The object with its parts replaced; a map and a set are indexed anew, by the cached
    hashes. -/
def Obj.rebuild : Obj → List Value → Except Fault Obj
  | .list _, vs => .ok (.list vs)
  | .tuple _, vs => .ok (.tuple vs)
  | .struct tid _, vs => .ok (.struct tid vs)
  | .enum variantId _, vs => .ok (.enum variantId vs)
  | .map m, vs =>
    (Table.fromEntries (m.entries.zipWith (fun e p => ⟨e.hash, p.1, p.2⟩) (pairs vs))).map .map
  | .set s, vs => (Table.fromEntries (s.entries.zipWith (fun e v => ⟨e.hash, v⟩) vs)).map .set
  | o, _ => .ok o

/-- The copy at `nh` gets its parts. -/
def fill (nh : Handle) (o : Obj) (copied : List Value) : Act Copying Fault Value := fun s =>
  match o.rebuild copied with
  | .ok o' => (.ok (.obj nh), { s with heap := s.heap.write nh o' })
  | .error e => (.error e, s)

/-- `snapshot_value`, by the levels left. -/
def snapshotValue : Nat → Value → Act Copying Fault Value
  | 0, v => Act.pure v
  | room + 1, v => fun s =>
    match v.asObj with
    | none => (.ok v, s)
    | some h =>
      match s.visited.lookup h with
      | some c => (.ok (.obj c), s)
      | none =>
        match s.heap.obj h with
        | .byteArray b =>
          let (nh, H) := s.heap.alloc (.byteArray b)
          (.ok (.obj nh), { s with heap := H })
        | o =>
          if o.isAggregate then
            let (nh, H) := s.heap.alloc o.placeholder
            (Act.each (snapshotValue room) o.children).andThen (fill nh o)
              ⟨H, (h, nh) :: s.visited⟩
          else (.ok v, s)

/-- `snapshot_key`. -/
def snapshotKey (key : Value) : Act Heap Fault Value := fun H =>
  match key with
  | .obj h =>
    match H.obj h with
    | .struct _ _ | .enum _ _ | .tuple _ =>
      if storeKeyByReference H key then (.ok key, H)
      else
        let (r, s) := snapshotValue (maxStructuralDepth + 1) key ⟨H, []⟩
        (r, s.heap)
    | _ => (.ok key, H)
  | _ => (.ok key, H)

/-! ## Which keys are copied -/

theorem anyCyclic_false {f cs} (h : ∀ c ∈ cs, ∀ done, (f c done).1 = false) (done) :
    (anyCyclic f cs done).1 = false := by
  induction cs generalizing done with
  | nil => rfl
  | cons c cs ih =>
    have hc := h c mem_cons_self done
    rw [anyCyclic]
    rcases hf : f c done with ⟨_ | _, done'⟩
    · exact ih (forall_mem_cons.mp h).2 done'
    · rw [hf] at hc
      cases hc

variable {H : Heap} {room : Nat} {v : Value} {onPath : List Handle}

/-- **An acyclic value within the levels left is not stored by reference.** What is on the path
    has a larger content than the value, so the value is not on it. -/
theorem cyclicWalk_content {t} (done) (ht : H.content room v = some t)
    (hpath : ∀ p ∈ onPath, ∃ n u, H.content n (.obj p) = some u ∧ sizeOf t < sizeOf u) :
    (cyclicWalk H room v onPath done).1 = false := by
  induction room generalizing v t onPath done with
  | zero => cases ht
  | succ room ih =>
    cases v with
    | obj h =>
      have hnot : h ∉ onPath := by
        intro hmem
        obtain ⟨n, u, hu, hlt⟩ := hpath h hmem
        rw [content_unique ht hu] at hlt
        exact absurd hlt (Nat.lt_irrefl _)
      rw [cyclicWalk]
      simp only [Value.asObj]
      rw [if_neg hnot]
      split
      · rfl
      split
      · have hloop := @anyCyclic_false (fun c => cyclicWalk H room c (h :: onPath))
          (H.obj h).children ?_ done
        · split
          · next heq => rw [heq] at hloop; cases hloop
          · rfl
        intro c hc done'
        obtain ⟨ts, hts, rfl⟩ := content_obj.mp ht
        obtain ⟨u, hu, hcu⟩ := forall₂_mem_left hts hc
        have hsize : sizeOf u < sizeOf ((H.obj h).tree h ts) :=
          sizeOf_lt_of_mem_kids (by rw [Obj.kids_tree hts]; exact hu)
        refine ih done' hcu fun p hp => ?_
        rcases mem_cons.mp hp with rfl | hp
        · exact ⟨_, _, ht, hsize⟩
        · obtain ⟨n, w, hw, hlt⟩ := hpath p hp
          exact ⟨n, w, hw, hsize.trans hlt⟩
      · rfl
    | _ => rfl

/-! ## What a copy is -/

/-- A value names an object below `n`, if any. -/
def Value.Below (n : Handle) (v : Value) : Prop := ∀ h, v = .obj h → h < n

/-- Handles name allocated objects, and every table is indexed. -/
structure Heap.Formed (H : Heap) : Prop where
  closed : ∀ h < H.next, ∀ c ∈ (H.obj h).children, c.Below H.next
  map : ∀ h m, H.obj h = .map m → m.Good
  set : ∀ h s, H.obj h = .set s → s.Good

/-- In `H` the value `c` is a finished copy of what `v` is in `H0`: it has the content of `v`,
    and reaches only objects made since that are not under construction, and kept ones. -/
structure Copied (H0 H : Heap) (building : List Handle) (v c : Value) : Prop where
  content : ∀ n t, H0.content n v = some t → H.content n c = some t
  apart : ∀ k, H.Reaches c k →
    (H0.next ≤ k ∧ k < H.next ∧ k ∉ building) ∨ (k < H0.next ∧ (H0.obj k).isKept = true)

variable {building done : List Handle} {H0 H' : Heap} {s : Copying} {h : Handle} {vs : List Value}
  {n : Nat}

/-- A finished copy stays one while only what is under construction is written. -/
theorem Copied.move {building' c} (h : Copied H0 H building v c)
    (hagree : ∀ k < H.next, k ∉ building → H'.obj k = H.obj k) (hnext : H.next ≤ H'.next)
    (hold : H0.next ≤ H.next) (hnew : ∀ k ∈ building, H0.next ≤ k)
    (hbuilding : ∀ k ∈ building', k < H.next → k ∈ building) : Copied H0 H' building' v c := by
  have hsame : ∀ k, H.Reaches c k → H'.obj k = H.obj k := by
    intro k hk
    rcases h.apart k hk with ⟨_, hlt, hnot⟩ | ⟨hlt, _⟩
    · exact hagree k hlt hnot
    · exact hagree k (hlt.trans_le hold) fun hmem => Nat.not_le.mpr hlt (hnew k hmem)
  refine ⟨fun n t ht => ?_, fun k hk => ?_⟩
  · rw [content_frame hsame]
    exact h.content n t ht
  · rcases h.apart k (reaches_frame hsame hk) with ⟨hge, hlt, hnot⟩ | hkept
    · exact .inl ⟨hge, hlt.trans_le hnext, fun hmem => hnot (hbuilding k hmem hlt)⟩
    · exact .inr hkept

theorem reaches_leaf {k} (hleaf : (H.obj h).children = []) (hk : H.Reaches (.obj h) k) : k = h := by
  cases hk with
  | here => rfl
  | child hc _ =>
    rw [hleaf] at hc
    cases hc

theorem Obj.children_of_not_aggregate {o : Obj} (h : o.isAggregate = false) : o.children = [] := by
  cases o <;> first | rfl | cases h

/-! ## One level -/

/-- The state of both walks: `onPath` has the objects being copied, `building` their copies;
    `done` what is cleared. -/
structure Copying.Inv (H0 : Heap) (onPath building done : List Handle) (s : Copying) : Prop where
  next_le : H0.next ≤ s.heap.next
  old : ∀ k < H0.next, s.heap.obj k = H0.obj k
  new : ∀ k ∈ building, H0.next ≤ k ∧ k < s.heap.next
  known : ∀ h c, s.visited.lookup h = some c →
    h ∈ onPath ∨ h ∈ done ∧ Copied H0 s.heap building (.obj h) (.obj c)
  seen : ∀ h ∈ done, (H0.obj h).isAggregate = true → (s.visited.lookup h).isSome

/-- A call writes nothing that was there, and keeps the copies known. -/
structure Copying.Extends (s s' : Copying) : Prop where
  next_le : s.heap.next ≤ s'.heap.next
  old : ∀ k < s.heap.next, s'.heap.obj k = s.heap.obj k
  known : ∀ h c, s.visited.lookup h = some c → s'.visited.lookup h = some c

theorem Copying.Extends.refl (s : Copying) : s.Extends s := ⟨le_rfl, fun _ _ => rfl, fun _ _ h => h⟩

theorem Copying.Extends.trans {s' s''} (h : s.Extends s') (h' : s'.Extends s'') :
    s.Extends s'' where
  next_le := h.next_le.trans h'.next_le
  old k hk := (h'.old k (hk.trans_le h.next_le)).trans (h.old k hk)
  known k c hc := h'.known k c (h.known k c hc)

/-- What copying `v` gives, when the first walk leaves `done` cleared. -/
def Copies (H0 : Heap) (onPath building done : List Handle) (s : Copying) (v : Value)
    (r : Except Fault Value × Copying) : Prop :=
  ∃ c, r.1 = .ok c ∧ r.2.Inv H0 onPath building done ∧ s.Extends r.2 ∧
    Copied H0 r.2.heap building v c

theorem Copied.extends {s' c} (h : Copied H0 s.heap building v c)
    (hs : s.Inv H0 onPath building done) (hext : s.Extends s') : Copied H0 s'.heap building v c :=
  h.move (fun k hk _ => hext.old k hk) hext.next_le hs.next_le (fun k hk => (hs.new k hk).1)
    fun _ hk _ => hk

/-- The loop over the children. -/
theorem each_copies {walk} (copy : Value → Act Copying Fault Value) {cs}
    (hstep : ∀ c ∈ cs, ∀ done done' s, s.Inv H0 onPath building done →
      walk c done = (false, done') → Copies H0 onPath building done' s c (copy c s)) {done'}
    (hs : s.Inv H0 onPath building done) (hwalk : anyCyclic walk cs done = (false, done')) :
    ∃ copied, (each copy cs s).1 = .ok copied ∧
      (each copy cs s).2.Inv H0 onPath building done' ∧ s.Extends (each copy cs s).2 ∧
      Forall₂ (Copied H0 (each copy cs s).2.heap building) cs copied := by
  induction cs generalizing done s with
  | nil =>
    cases hwalk
    exact ⟨[], rfl, hs, .refl s, .nil⟩
  | cons c cs ih =>
    rw [anyCyclic] at hwalk
    split at hwalk
    · cases hwalk
    next done1 hc =>
    obtain ⟨c', hok, hinv, hext, hcopied⟩ := hstep c mem_cons_self done done1 s hs hc
    obtain ⟨cs', hoks, hinvs, hexts, hcopieds⟩ :=
      ih (forall_mem_cons.mp hstep).2 hinv hwalk
    have hrun : each copy (c :: cs) s = (.ok (c' :: cs'), (each copy cs (copy c s).2).2) := by
      rw [each, andThen_ok hok, andThen_ok hoks]
      rfl
    rw [hrun]
    exact ⟨c' :: cs', rfl, hinvs, hext.trans hexts, .cons (hcopied.extends hinv hexts) hcopieds⟩

/-! ## Rebuilding an aggregate -/

theorem rebuild_total (hH : H.Formed) (h : Handle) (vs) : ∃ o, (H.obj h).rebuild vs = .ok o := by
  have hbuilds : ∀ {E : Type} [CachedHash E] (f : HashIndex.Table E → Obj) (es : List E),
      es.length ≤ maxLen → ∃ o, (Table.fromEntries es).map f = .ok o := by
    intro E _ f es hle
    rcases Table.fromEntries_spec es (by unfold maxLen at hle; omega) with ⟨_, hlt⟩ | ⟨t, ht, _⟩
    · omega
    · exact ⟨f t, by rw [ht]; rfl⟩
  cases ho : H.obj h with
  | map m =>
    have hle := (hH.map h m ho).length_le
    rw [length_map] at hle
    exact hbuilds _ _ (by rw [length_zipWith]; omega)
  | set s =>
    have hle := (hH.set h s ho).length_le
    rw [length_map] at hle
    exact hbuilds _ _ (by rw [length_zipWith]; omega)
  | _ => exact ⟨_, rfl⟩

theorem fromEntries_map {E} [CachedHash E] {es : List E} {f : HashIndex.Table E → Obj} {o}
    (h : (Table.fromEntries es).map f = .ok o) : ∃ t, o = f t ∧ t.entries = es := by
  unfold Table.fromEntries at h
  cases hi : SharedIndex.fromHashes (es.map CachedHash.hash) with
  | error e =>
    rw [hi] at h
    cases h
  | ok index =>
    rw [hi] at h
    cases h
    exact ⟨_, rfl, rfl⟩

theorem flatMap_zip_pairs (es : List (MapEntry Value Value))
    (hlen : vs.length = (es.flatMap fun e => [e.key, e.val]).length) :
    ((es.zipWith (fun e p => (⟨e.hash, p.1, p.2⟩ : MapEntry Value Value)) (pairs vs)).flatMap
      fun e => [e.key, e.val]) = vs := by
  induction es generalizing vs with
  | nil => rw [length_eq_zero_iff.mp hlen]; rfl
  | cons e es ih =>
    rcases vs with _ | ⟨k, _ | ⟨v, vs⟩⟩
    · simp at hlen
    · simp at hlen
    · rw [pairs, zipWith_cons_cons, flatMap_cons, ih (by simpa using hlen)]
      rfl

theorem map_zip_elems (es : List (SetEntry Value)) (hlen : vs.length = es.length) :
    ((es.zipWith (fun e v => (⟨e.hash, v⟩ : SetEntry Value)) vs).map SetEntry.elem) = vs := by
  induction es generalizing vs with
  | nil => rw [length_eq_zero_iff.mp hlen]; rfl
  | cons e es ih =>
    rcases vs with _ | ⟨v, vs⟩
    · simp at hlen
    · rw [zipWith_cons_cons, map_cons, ih (by simpa using hlen)]

/-- A rebuilt aggregate holds the values it was given, and differs in nothing else. -/
theorem rebuild_spec {o o' : Obj} (h : o.rebuild vs = .ok o') (haggr : o.isAggregate = true)
    (hlen : vs.length = o.children.length) :
    o'.children = vs ∧ ∀ h h' ts, o'.tree h' ts = o.tree h ts := by
  cases o with
  | map m =>
    obtain ⟨t, rfl, ht⟩ := fromEntries_map h
    refine ⟨?_, fun _ _ _ => rfl⟩
    rw [Obj.children, ht]
    exact flatMap_zip_pairs m.entries hlen
  | set s =>
    obtain ⟨t, rfl, ht⟩ := fromEntries_map h
    refine ⟨?_, fun _ _ _ => rfl⟩
    rw [Obj.children, ht]
    exact map_zip_elems s.entries (by simpa [Obj.children] using hlen)
  | list _ | tuple _ | struct _ _ | enum _ _ => cases h; exact ⟨rfl, fun _ _ _ => rfl⟩
  | _ => cases haggr

/-! ## The copy -/

theorem snapshotValue_aggregate (hlook : s.visited.lookup h = none)
    (haggr : (s.heap.obj h).isAggregate = true) :
    snapshotValue (room + 1) (.obj h) s =
      (each (snapshotValue room) (s.heap.obj h).children).andThen
        (fill s.heap.next (s.heap.obj h))
        ⟨(s.heap.alloc (s.heap.obj h).placeholder).2, (h, s.heap.next) :: s.visited⟩ := by
  rw [snapshotValue]
  simp only [Value.asObj, hlook]
  cases ho : s.heap.obj h <;> rw [ho] at haggr <;> first | rfl | cases haggr

namespace Copying.Inv

variable {H0 : Heap} {onPath building done : List Handle} {s s' : Copying}

section

variable (hs : s.Inv H0 onPath building done)
include hs

/-- Objects are added, and no copy is recorded. -/
theorem extend (hext : s.Extends s')
    (hvisited : s'.visited = s.visited) : s'.Inv H0 onPath building done where
  next_le := hs.next_le.trans hext.next_le
  old k hk := (hext.old k (hk.trans_le hs.next_le)).trans (hs.old k hk)
  new k hk := ⟨(hs.new k hk).1, Nat.lt_of_lt_of_le (hs.new k hk).2 hext.next_le⟩
  known h c hc := by
    rw [hvisited] at hc
    exact (hs.known h c hc).imp_right fun hd => ⟨hd.1, hd.2.extends hs hext⟩
  seen h hd haggr := by
    rw [hvisited]
    exact hs.seen h hd haggr

theorem clear {h} (hleaf : (H0.obj h).isAggregate = false) :
    s.Inv H0 onPath building (h :: done) where
  next_le := hs.next_le
  old := hs.old
  new := hs.new
  known k c hc := (hs.known k c hc).imp_right fun hd => ⟨mem_cons_of_mem h hd.1, hd.2⟩
  seen k hd haggr := by
    rcases mem_cons.mp hd with rfl | hd
    · rw [hleaf] at haggr
      cases haggr
    · exact hs.seen k hd haggr

/-- An aggregate is entered: its copy stands empty at the next handle. -/
theorem enter (o) (hlook : s.visited.lookup h = none) :
    s.Extends ⟨(s.heap.alloc o).2, (h, s.heap.next) :: s.visited⟩ ∧
    Copying.Inv H0 (h :: onPath) (s.heap.next :: building) done
      ⟨(s.heap.alloc o).2, (h, s.heap.next) :: s.visited⟩ := by
  have hcons : ∀ k c, ((h, s.heap.next) :: s.visited).lookup k = some c →
      k = h ∧ c = s.heap.next ∨ s.visited.lookup k = some c := by
    intro k c hc
    rw [lookup_cons] at hc
    split at hc
    · next heq => exact .inl ⟨beq_iff_eq.mp heq, (some.inj hc).symm⟩
    · exact .inr hc
  have hext : s.Extends ⟨(s.heap.alloc o).2, (h, s.heap.next) :: s.visited⟩ := by
    refine ⟨Nat.le_succ _, fun k hk => s.heap.alloc_of_lt o hk, fun k c hc => ?_⟩
    have hne : k ≠ h := by
      rintro rfl
      rw [hlook] at hc
      cases hc
    rw [lookup_cons, beq_false_of_ne hne]
    exact hc
  refine ⟨hext, ?_⟩
  constructor
  · exact hs.next_le.trans hext.next_le
  · exact fun k hk => (hext.old k (hk.trans_le hs.next_le)).trans (hs.old k hk)
  · exact forall_mem_cons.mpr ⟨⟨hs.next_le, Nat.lt_succ_self _⟩,
      fun k hk => (hs.new k hk).imp_right Nat.lt_succ_of_lt⟩
  · intro k c hc
    rcases hcons k c hc with ⟨rfl, -⟩ | hc
    · exact .inl mem_cons_self
    · refine (hs.known k c hc).imp (mem_cons_of_mem h) fun hd => ⟨hd.1, hd.2.move
        (fun j hj _ => hext.old j hj) hext.next_le hs.next_le (fun j hj => (hs.new j hj).1) ?_⟩
      exact fun j hj hlt => (mem_cons.mp hj).resolve_left hlt.ne
  · intro k hd haggr
    obtain ⟨c, hc⟩ := isSome_iff_exists.mp (hs.seen k hd haggr)
    exact isSome_iff_exists.mpr ⟨c, hext.known k c hc⟩

end

end Copying.Inv

/-- A value that is no object is its own copy. -/
theorem Copied.scalar {H v} (hv : v.asObj = none) : Copied H0 H building v v := by
  refine ⟨fun n t ht => ?_, fun k hk => ?_⟩
  · rw [content_frame (H := H0) (fun k hk => ?_)]
    · exact ht
    · cases hk <;> cases hv
  · cases hk <;> cases hv

/-- An object without parts, and one like it. -/
theorem Copied.leaf {c} (hobj : H.obj c = H0.obj h) (hleaf : (H0.obj h).children = [])
    (htree : (H0.obj h).tree c [] = (H0.obj h).tree h [])
    (hc : (H0.next ≤ c ∧ c < H.next ∧ c ∉ building) ∨ (c < H0.next ∧ (H0.obj c).isKept = true)) :
    Copied H0 H building (.obj h) (.obj c) := by
  refine ⟨fun n t ht => ?_, fun k hk => ?_⟩
  · obtain ⟨n, rfl⟩ := content_pos ht
    obtain ⟨ts, hts, rfl⟩ := content_obj.mp ht
    rw [hleaf, forall₂_nil_left_iff] at hts
    refine content_obj.mpr ⟨[], ?_, ?_⟩
    · rw [hobj, hleaf]
      exact .nil
    · rw [hobj, hts]
      exact htree
  · rw [reaches_leaf (by rw [hobj]; exact hleaf) hk]
    exact hc

/-- An object without parts is copied, or kept. -/
theorem snapshotValue_leaf (hs : s.Inv H0 onPath building done) (hh : h < H0.next)
    (hlook : s.visited.lookup h = none) (hleaf : (H0.obj h).isAggregate = false) (room : Nat) :
    Copies H0 onPath building done s (.obj h) (snapshotValue (room + 1) (.obj h) s) := by
  have hobj := hs.old h hh
  have hchildren := Obj.children_of_not_aggregate hleaf
  rw [snapshotValue]
  simp only [Value.asObj, hlook, hobj]
  split
  · next b hb =>
    have hext : s.Extends ⟨(s.heap.alloc (.byteArray b)).2, s.visited⟩ :=
      ⟨Nat.le_succ _, fun k hk => s.heap.alloc_of_lt _ hk, fun _ _ hc => hc⟩
    refine ⟨.obj s.heap.next, rfl, hs.extend hext rfl, hext, ?_⟩
    refine .leaf ?_ hchildren ?_ (.inl ⟨hs.next_le, Nat.lt_succ_self _, fun hmem => ?_⟩)
    · rw [hb]
      exact s.heap.alloc_self _
    · rw [hb]
      rfl
    · exact absurd (hs.new _ hmem).2 (Nat.lt_irrefl _)
  · next hnot =>
    rw [hleaf]
    have hkept : (H0.obj h).isKept = true := by
      cases ho : H0.obj h with
      | byteArray b => exact absurd ho (hnot b)
      | _ =>
        rw [ho] at hleaf
        first | rfl | cases hleaf
    exact ⟨.obj h, rfl, hs, .refl s, .leaf hobj hchildren rfl (.inr ⟨hh, hkept⟩)⟩

/-- The parts of an aggregate are copied: its copy gets them, and is finished. -/
theorem fill_copies (hH : H0.Formed) {s1 s2 : Copying} {copied} (hs : s.Inv H0 onPath building done)
    (hh : h < H0.next) (haggr : (H0.obj h).isAggregate = true) (hs1 : s.Extends s1)
    (hnext : s1.heap.next = s.heap.next + 1) (hrecorded : s1.visited.lookup h = some s.heap.next)
    (hs2 : s1.Extends s2) {done2 : List Handle}
    (hinv : s2.Inv H0 (h :: onPath) (s.heap.next :: building) done2)
    (hcopied : Forall₂ (Copied H0 s2.heap (s.heap.next :: building)) (H0.obj h).children copied) :
    Copies H0 onPath building (h :: done2) s (.obj h)
      (fill s.heap.next (H0.obj h) copied s2) := by
  obtain ⟨o', ho'⟩ := rebuild_total hH h copied
  obtain ⟨hchildren, htree⟩ := rebuild_spec ho' haggr hcopied.length_eq.symm
  have hlt : s.heap.next < s2.heap.next :=
    Nat.lt_of_lt_of_le (by rw [hnext]; exact Nat.lt_succ_self _) hs2.next_le
  have hfresh : s.heap.next ∉ building := fun hmem => Nat.lt_irrefl _ (hs.new _ hmem).2
  -- finished copies do not reach the object that is written
  have hmove : ∀ {v c}, Copied H0 s2.heap (s.heap.next :: building) v c →
      Copied H0 (s2.heap.write s.heap.next o') building v c := by
    intro v c hc
    refine hc.move (fun k _ hk => ?_) le_rfl hinv.next_le (fun k hk => (hinv.new k hk).1)
      fun k hk _ => .tail _ hk
    exact s2.heap.write_of_ne o' fun heq => hk (heq ▸ mem_cons_self)
  have hself : Copied H0 (s2.heap.write s.heap.next o') building (.obj h) (.obj s.heap.next) := by
    refine ⟨fun n t ht => ?_, fun k hk => ?_⟩
    · obtain ⟨n, rfl⟩ := content_pos ht
      obtain ⟨ts, hts, rfl⟩ := content_obj.mp ht
      refine content_obj.mpr ⟨ts, ?_, ?_⟩
      · rw [write_self, hchildren]
        exact forall₂_through hcopied hts fun hc ht => (hmove hc).content n _ ht
      · rw [write_self]
        exact htree h s.heap.next ts
    · cases hk with
      | here => exact .inl ⟨hs.next_le, hlt, hfresh⟩
      | child hc hk =>
        rw [write_self, hchildren] at hc
        obtain ⟨v, _, hv⟩ := forall₂_mem_right hcopied hc
        exact (hmove hv).apart k hk
  have hknown := hs2.known h _ hrecorded
  unfold fill
  rw [ho']
  refine ⟨.obj s.heap.next, rfl, ?_, ?_, hself⟩
  · constructor
    · exact hinv.next_le
    · intro k hk
      have hne : k ≠ s.heap.next := Nat.ne_of_lt (hk.trans_le hs.next_le)
      exact (s2.heap.write_of_ne o' hne).trans (hinv.old k hk)
    · exact (forall_mem_cons.mp hinv.new).2
    · intro k c hc
      rcases hinv.known k c hc with hpath | ⟨hdone, hcopy⟩
      · rcases mem_cons.mp hpath with rfl | hpath
        · rw [show s2.visited.lookup k = some c from hc] at hknown
          cases hknown
          exact .inr ⟨mem_cons_self, hself⟩
        · exact .inl hpath
      · exact .inr ⟨mem_cons_of_mem h hdone, hmove hcopy⟩
    · intro k hk hagg
      rcases mem_cons.mp hk with rfl | hk
      · exact isSome_iff_exists.mpr ⟨_, hknown⟩
      · exact hinv.seen k hk hagg
  · have hext := hs1.trans hs2
    refine ⟨hext.next_le, fun k hk => ?_, hext.known⟩
    exact (s2.heap.write_of_ne o' hk.ne).trans (hext.old k hk)

/-- **Both walks together**: what the first clears, the second copies. -/
theorem snapshotValue_copies (hH : H0.Formed) {done'} (hv : v.Below H0.next)
    (hs : s.Inv H0 onPath building done)
    (hwalk : cyclicWalk H0 room v onPath done = (false, done')) :
    Copies H0 onPath building done' s v (snapshotValue room v s) := by
  induction room generalizing v onPath building done done' s with
  | zero =>
    rw [cyclicWalk] at hwalk
    obtain ⟨hnone, rfl⟩ := Prod.mk.inj hwalk
    rw [isSome_eq_false_iff, isNone_iff_eq_none] at hnone
    exact ⟨v, rfl, hs, .refl s, .scalar hnone⟩
  | succ room ih =>
    cases v with
    | obj h =>
      have hh : h < H0.next := hv h rfl
      rw [cyclicWalk] at hwalk
      simp only [Value.asObj] at hwalk
      by_cases hpath : h ∈ onPath
      · rw [if_pos hpath] at hwalk
        cases hwalk
      rw [if_neg hpath] at hwalk
      by_cases hdone : h ∈ done
      · -- cleared before: its copy is recorded, unless it has no parts
        rw [if_pos hdone] at hwalk
        cases hwalk
        cases hlook : s.visited.lookup h with
        | some c =>
          have hcopy := ((hs.known h c hlook).resolve_left hpath).2
          rw [snapshotValue]
          simp only [Value.asObj, hlook]
          exact ⟨.obj c, rfl, hs, .refl s, hcopy⟩
        | none =>
          refine snapshotValue_leaf hs hh hlook ?_ room
          rw [← Bool.not_eq_true]
          intro haggr
          have hsome := hs.seen h hdone haggr
          rw [hlook] at hsome
          cases hsome
      rw [if_neg hdone] at hwalk
      have hlook : s.visited.lookup h = none := by
        refine eq_none_iff_forall_ne_some.mpr fun c hc => ?_
        exact (hs.known h c hc).elim hpath fun hd => hdone hd.1
      cases haggr : (H0.obj h).isAggregate with
      | false =>
        rw [haggr] at hwalk
        cases hwalk
        obtain ⟨c, hok, hinv, hext, hcopy⟩ := snapshotValue_leaf hs hh hlook haggr room
        exact ⟨c, hok, hinv.clear haggr, hext, hcopy⟩
      | true =>
        rw [haggr, if_pos rfl] at hwalk
        split at hwalk
        · cases hwalk
        next done2 hloop =>
        cases hwalk
        have hobj := hs.old h hh
        obtain ⟨hext, hinv⟩ := hs.enter (H0.obj h).placeholder hlook
        obtain ⟨copied, hok, hinv2, hext2, hcopied⟩ :=
          each_copies (snapshotValue room)
            (fun c hc _ _ s' hs' hw => ih (hH.closed h hh c hc) hs' hw) hinv hloop
        rw [snapshotValue_aggregate hlook (by rw [hobj]; exact haggr), hobj, andThen_ok hok]
        exact fill_copies hH hs hh haggr hext rfl lookup_cons_self hext2 hinv2 hcopied
    | _ =>
      cases hwalk
      exact ⟨_, rfl, hs, .refl s, .scalar rfl⟩

/-! ## The hash of equal contents -/

/-- A part whose `hash`, if it is a struct or an enum, only reads and answers by its content. -/
def Machine.PureHash (m : Machine) (t : Tree) : Prop :=
  match t with
  | .node (.struct _) _ | .node (.enum _) _ =>
    ∃ answer : Nat → Span → Except RuntimeError Word, ∀ (H : Heap) (v : Value) (n : Nat),
      H.content n v = some t → ∀ base span, m.declaredHash base v span H = (answer base span, H)
  | _ => True

/-- Two walks only read, and answer the same hash if they do. -/
def Agree (H H' : Heap) (x x' : Act Heap RuntimeError Word) : Prop :=
  ∃ r r', x H = (r, H) ∧ x' H' = (r', H') ∧ ∀ w, r = .ok w ↔ r' = .ok w

theorem Agree.errors {x x' e e'} (h : x H = (.error e, H)) (h' : x' H' = (.error e', H')) :
    Agree H H' x x' := by
  refine ⟨_, _, h, h', fun w => ⟨fun he => ?_, fun he => ?_⟩⟩
  · cases he
  · cases he

theorem hashItems_error {f c e} (h : f c H = (.error e, H)) (cs acc) :
    hashItems f (c :: cs) acc H = (.error e, H) := by
  rw [hashItems, andThen_error (by rw [h]), h]

theorem hashItems_agree {f items items'}
    (h : Forall₂ (fun c c' => Agree H H' (f c) (f c')) items items') (acc) :
    Agree H H' (hashItems f items acc) (hashItems f items' acc) := by
  induction h generalizing acc with
  | nil => exact ⟨.ok acc, .ok acc, rfl, rfl, fun _ => .rfl⟩
  | @cons c c' cs cs' hc _ ih =>
    obtain ⟨r, r', hr, hr', hiff⟩ := hc
    cases r with
    | ok w =>
      rw [(hiff w).mp rfl] at hr'
      obtain ⟨q, q', hq, hq', hagree⟩ := ih (combine acc w)
      exact ⟨q, q', (Act.andThen_reads hr).trans hq, (Act.andThen_reads hr').trans hq', hagree⟩
    | error e =>
      cases r' with
      | ok w' => cases (hiff w').mpr rfl
      | error e' => exact .errors (hashItems_error hr cs acc) (hashItems_error hr' cs' acc)

theorem content_of_leaf {a} (h : H.content n v = some (.leaf a)) (k) :
    H.content (k + 1) v = some (.leaf a) := by
  obtain ⟨n, rfl⟩ := content_pos h
  cases v with
  | obj j =>
    obtain ⟨ts, hts, hleaf⟩ := content_obj.mp h
    have hkids := Obj.kids_tree (h := j) hts
    rw [hleaf] at hkids
    subst hkids
    rw [show (leaf a).kids = [] from rfl, forall₂_nil_right_iff] at hts
    refine content_obj.mpr ⟨[], ?_, hleaf⟩
    rw [hts]
    exact .nil
  | _ => exact h

def Shape.obj : Shape → List Value → Obj
  | .list, vs => .list vs
  | .tuple, vs => .tuple vs
  | .struct tid, vs => .struct tid vs
  | .enum variantId, vs => .enum variantId vs

/-- A content with parts in order is that of an object of its kind. -/
theorem obj_of_node {s ts} (h : H.content (n + 1) v = some (.node s ts)) :
    ∃ k vs, v = .obj k ∧ H.obj k = s.obj vs ∧
      Forall₂ (fun c t => H.content n c = some t) vs ts := by
  cases v with
  | obj k =>
    obtain ⟨us, hus, htree⟩ := content_obj.mp h
    refine ⟨k, (H.obj k).children, rfl, ?_⟩
    cases ho : H.obj k <;> rw [ho] at htree hus <;> cases htree <;> exact ⟨rfl, hus⟩
  | _ => cases h

/-- The kinds that `hash_value` does not refuse. -/
def Obj.isKey : Obj → Bool
  | .str _ | .bytes _ | .bigInt _ _ | .struct _ _ | .enum _ _ | .tuple _ => true
  | _ => false

def Heap.isKey (H : Heap) (v : Value) : Bool :=
  match v.asObj with
  | none => true
  | some h => (H.obj h).isKey

theorem hashValueIn_refused {m span H v} (hkey : H.isKey v = false) (room) :
    ∃ e, hashValueIn m span room v H = (.error e, H) := by
  cases room with
  | zero => exact ⟨_, rfl⟩
  | succ room =>
    cases v with
    | obj h =>
      refine ⟨unhashable H (.obj h) span, ?_⟩
      simp only [hashValueIn]
      rw [isKey] at hkey
      simp only [Value.asObj] at hkey
      cases ho : H.obj h <;> rw [ho] at hkey <;> first | rfl | cases hkey
    | _ => cases hkey

theorem isKey_of_hash {m walkBase span w} (h : hashValue m walkBase v span H = (.ok w, H')) :
    H.isKey v = true := by
  by_contra hkey
  rw [Bool.not_eq_true] at hkey
  obtain ⟨e, he⟩ := @hashValueIn_refused m span H v hkey (maxStructuralDepth + 1 - walkBase)
  rw [hashValue, he] at h
  cases h

/-- A list, a map and a set are not hashed. -/
theorem isKey_of_content {t} (h : H.content n v = some t)
    (hnot : (∃ ts, t = .node .list ts) ∨ (∃ es, t = .map es) ∨ ∃ ts, t = .set ts) :
    H.isKey v = false := by
  obtain ⟨n, rfl⟩ := content_pos h
  cases v with
  | obj k =>
    obtain ⟨us, hus, rfl⟩ := content_obj.mp h
    rw [isKey]
    simp only [Value.asObj]
    cases ho : H.obj k <;> rw [ho] at hnot <;> first | rfl | simp [Obj.tree] at hnot
  | _ =>
    cases h
    simp at hnot

theorem refused_agree {m span v' t} (ht : H.content n v = some t) (ht' : H'.content n v' = some t)
    (hnot : (∃ ts, t = .node .list ts) ∨ (∃ es, t = .map es) ∨ ∃ ts, t = .set ts) :
    Agree H H' (hashValueIn m span room v) (hashValueIn m span room v') := by
  obtain ⟨e, he⟩ := @hashValueIn_refused m span H v (isKey_of_content ht hnot) room
  obtain ⟨e', he'⟩ := @hashValueIn_refused m span H' v' (isKey_of_content ht' hnot) room
  exact .errors he he'

/-- **Equal contents hash alike**, when their hooks are pure. -/
theorem hashValueIn_agree {m span H H' room n v v' t} (ht : H.content n v = some t)
    (ht' : H'.content n v' = some t) (hpure : t.All m.PureHash) :
    Agree H H' (hashValueIn m span room v) (hashValueIn m span room v') := by
  induction room generalizing n v v' t with
  | zero => exact .errors rfl rfl
  | succ room ih =>
    obtain ⟨n, rfl⟩ := content_pos ht
    cases t with
    | leaf a =>
      have hooks : (leaf a).All (m.Unhooked .hash) := .intro trivial nofun
      have hx := @hashValueIn_content m span H _ v _ (content_of_leaf ht room) hooks
      have hx' := @hashValueIn_content m span H' _ v' _ (content_of_leaf ht' room) hooks
      cases hw : hash m (.leaf a) with
      | some w =>
        rw [hw] at hx hx'
        exact ⟨.ok w, .ok w, hx, hx', fun _ => .rfl⟩
      | none =>
        rw [hw] at hx hx'
        obtain ⟨e, he⟩ := hx
        obtain ⟨e', he'⟩ := hx'
        exact .errors he he'
    | node s ts =>
      obtain ⟨k, vs, rfl, ho, hvs⟩ := obj_of_node ht
      obtain ⟨k', vs', rfl, ho', hvs'⟩ := obj_of_node ht'
      cases s with
      | list => exact refused_agree ht ht' (.inl ⟨ts, rfl⟩)
      | tuple =>
        have hitems : Forall₂ (fun c c' => Agree H H' (hashValueIn m span room c)
            (hashValueIn m span room c')) vs vs' := by
          have hparts := (forall₂_and_left _ _).mpr ⟨fun u hu => hpure.part hu, hvs.flip⟩
          exact forall₂_through hparts hvs'.flip fun hu hu' => ih hu.2 hu' hu.1
        have hlen : vs.length = vs'.length := hitems.length_eq
        have hagree := hashItems_agree hitems (tupleSeed vs.length)
        unfold Agree
        simp only [hashValueIn, ho, ho', Shape.obj]
        rw [← hlen]
        exact hagree
      | struct tid | enum variantId =>
        obtain ⟨answer, hanswer⟩ := hpure.here
        unfold Agree
        simp only [hashValueIn, ho, ho', Shape.obj]
        exact ⟨_, _, hanswer H _ _ ht _ _, hanswer H' _ _ ht' _ _, fun _ => .rfl⟩
    | map es => exact refused_agree ht ht' (.inr (.inl ⟨es, rfl⟩))
    | set ts => exact refused_agree ht ht' (.inr (.inr ⟨ts, rfl⟩))

/-! ## Later writes -/

/-- The heap after any run that adds objects and writes mutable ones, except those from `lo` up
    to `hi`. -/
inductive Heap.WritesOutside (lo hi : Handle) (H : Heap) : Heap → Prop where
  | refl : WritesOutside lo hi H H
  | write {H' : Heap} {h : Handle} {o : Obj} (hrun : WritesOutside lo hi H H')
      (hh : h < lo ∧ (H'.obj h).isKept = false ∨ hi ≤ h) : WritesOutside lo hi H (H'.write h o)
  | alloc {H' : Heap} {o : Obj} (hrun : WritesOutside lo hi H H') :
      WritesOutside lo hi H (H'.alloc o).2

/-- What such a run leaves as it was. -/
theorem Heap.WritesOutside.frame {lo hi} (h : H.WritesOutside lo hi H') (hhi : hi ≤ H.next)
    (hlo : lo ≤ hi) :
    H.next ≤ H'.next ∧ ∀ k, (lo ≤ k ∧ k < hi) ∨ (k < lo ∧ (H.obj k).isKept = true) →
      H'.obj k = H.obj k := by
  induction h with
  | refl => exact ⟨le_rfl, fun _ _ => rfl⟩
  | @write H' h o _ hh ih =>
    refine ⟨ih.1, fun k hk => (H'.write_of_ne o ?_).trans (ih.2 k hk)⟩
    rintro rfl
    have hsame := ih.2 k hk
    rcases hk with ⟨hge, hlt⟩ | ⟨hlt, hkept⟩ <;> rcases hh with ⟨hlt', hkept'⟩ | hge'
    · exact Nat.not_lt.mpr hge hlt'
    · exact Nat.not_lt.mpr hge' hlt
    · rw [hsame, hkept] at hkept'
      cases hkept'
    · exact Nat.not_lt.mpr (hlo.trans hge') hlt
  | @alloc H' o _ ih =>
    refine ⟨Nat.le_succ_of_le ih.1, fun k hk => (H'.alloc_of_lt o ?_).trans (ih.2 k hk)⟩
    exact Nat.lt_of_lt_of_le (hk.elim And.right fun hk => hk.1.trans_le hlo)
      (hhi.trans ih.1)

/-! ## Stored keys -/

theorem Copying.Inv.start (H) : Copying.Inv H [] [] [] ⟨H, []⟩ where
  next_le := le_rfl
  old _ _ := rfl
  new _ hk := by cases hk
  known _ _ hc := by cases hc
  seen _ hd _ := by cases hd

/-- A key that is not stored by reference is stored as a copy. -/
theorem snapshotKey_copied (hH : H.Formed) {key} (hkey : key.Below H.next)
    (hkind : H.isKey key = true) (hcopy : storeKeyByReference H key = false) :
    ∃ stored H', snapshotKey key H = (.ok stored, H') ∧ H.next ≤ H'.next ∧
      (∀ k < H.next, H'.obj k = H.obj k) ∧ Copied H H' [] key stored := by
  rcases hwalk : cyclicWalk H (maxStructuralDepth + 1) key [] [] with ⟨b, done⟩
  obtain rfl : b = false := by
    rw [storeKeyByReference, hwalk] at hcopy
    exact hcopy
  obtain ⟨c, hok, -, hext, hcopied⟩ := snapshotValue_copies hH hkey (.start H) hwalk
  cases key with
  | obj h =>
    have hh : h < H.next := hkey h rfl
    unfold snapshotKey
    simp only [hcopy, Bool.false_eq_true, if_false]
    rw [isKey] at hkind
    simp only [Value.asObj] at hkind
    cases ho : H.obj h with
    | struct tid fields | enum variantId payload | tuple items =>
      exact ⟨c, _, Prod.ext hok rfl, hext.next_le, hext.old, hcopied⟩
    | _ =>
      rw [ho] at hkind
      first
      | exact ⟨.obj h, H, rfl, le_rfl, fun _ _ => rfl,
          .leaf rfl (by rw [ho]; rfl) rfl (.inr ⟨hh, by rw [ho]; rfl⟩)⟩
      | cases hkind
  | _ => exact ⟨_, H, rfl, le_rfl, fun _ _ => rfl, .scalar rfl⟩

/-- **Stored keys are isolated.** A key within the depth limit is copied; and however the
    program then writes the objects there were, or later ones, the stored key keeps the content
    the key had when it was stored, and so its hash. -/
theorem snapshotKey_isolates (m : Machine) (H : Heap) (hH : H.Formed) (key : Value)
    (hkey : key.Below H.next) (hkind : H.isKey key = true) :
    ((H.content (maxStructuralDepth + 1) key).isSome → storeKeyByReference H key = false) ∧
    (storeKeyByReference H key = false →
      ∃ stored H', snapshotKey key H = (.ok stored, H') ∧ (∀ k < H.next, H'.obj k = H.obj k) ∧
        ∀ Hf, H'.WritesOutside H.next H'.next Hf → ∀ n t, H.content n key = some t →
          Hf.content n stored = some t ∧
          (t.All m.PureHash → ∀ walkBase span w, hashValue m walkBase key span H = (.ok w, H) →
            hashValue m walkBase stored span Hf = (.ok w, Hf))) := by
  constructor
  · intro hsome
    obtain ⟨t, ht⟩ := isSome_iff_exists.mp hsome
    exact cyclicWalk_content [] ht nofun
  intro hcopy
  obtain ⟨stored, H', hrun, hnext, hold, hcopied⟩ := snapshotKey_copied hH hkey hkind hcopy
  refine ⟨stored, H', hrun, hold, fun Hf hf n t ht => ?_⟩
  have hframe : ∀ k, H'.Reaches stored k → Hf.obj k = H'.obj k := by
    intro k hk
    refine (hf.frame le_rfl hnext).2 k ?_
    rcases hcopied.apart k hk with ⟨hge, hlt, -⟩ | ⟨hlt, hkept⟩
    · exact .inl ⟨hge, hlt⟩
    · exact .inr ⟨hlt, by rw [hold k hlt]; exact hkept⟩
  have hcontent : Hf.content n stored = some t := by
    rw [content_frame hframe]
    exact hcopied.content n t ht
  refine ⟨hcontent, fun hpure walkBase span w hw => ?_⟩
  obtain ⟨r, r', hr, hr', hiff⟩ := @hashValueIn_agree m span H Hf
    (maxStructuralDepth + 1 - walkBase) n key stored t ht hcontent hpure
  rw [hashValue, hr] at hw
  rw [hashValue, hr', (hiff w).mp (Prod.mk.inj hw).1]

/-! ## A key past the limit -/

/-- A `hash` that answers the first field. -/
def firstField : HookCode := fun _ args span H =>
  match args with
  | [.obj h] =>
    match H.obj h with
    | .struct _ (f :: _) => (.ok f, H)
    | _ => (.error ⟨"no field", span⟩, H)
  | _ => (.error ⟨"no receiver", span⟩, H)

def firstFieldHash : Machine :=
  { hookless zeroFloats fun _ => 5 with
    hookBit := fun hook key => decide (hook = .hash ∧ key = .struct 0)
    hookCode := fun _ _ => some firstField }

theorem inline_one : Inline 1 := by decide

def one : Value := .int 1 inline_one

def two : Value := .int 2 (by decide)

/-- A struct of `x` and a chain of `limit + 1` lists. -/
def deepKey (limit : Nat) (x : Value) : Heap where
  obj h :=
    if h = 0 then .struct 0 [x, .obj 1]
    else if h ≤ limit then .list [.obj (h + 1)]
    else .list []
  next := limit + 2

def nest : Nat → Tree
  | 0 => .node .list []
  | d + 1 => .node .list [nest d]

section

variable {limit : Nat} {x : Value} {h : Nat}

theorem deepKey_zero : (deepKey limit x).obj 0 = .struct 0 [x, .obj 1] := rfl

theorem deepKey_chain (hh : 0 < h) (hle : h ≤ limit) :
    (deepKey limit x).obj h = .list [.obj (h + 1)] := by
  simp only [deepKey, if_neg (Nat.pos_iff_ne_zero.mp hh), if_pos hle]

theorem deepKey_end (hlt : limit < h) : (deepKey limit x).obj h = .list [] := by
  have hpos : h ≠ 0 := Nat.pos_iff_ne_zero.mp (Nat.zero_lt_of_lt hlt)
  simp only [deepKey, if_neg hpos, if_neg (Nat.not_le.mpr hlt)]

theorem deepKey_content {d} (hh : 0 < h) (hd : h + d = limit + 1) :
    (deepKey limit x).content (d + 1) (.obj h) = some (nest d) := by
  induction d generalizing h with
  | zero =>
    have hobj := @deepKey_end limit x h (by omega)
    refine content_obj.mpr ⟨[], ?_, ?_⟩
    · rw [hobj]
      exact .nil
    · rw [hobj]
      rfl
  | succ d ih =>
    have hobj := @deepKey_chain limit x h hh (by omega)
    refine content_obj.mpr ⟨[nest d], ?_, ?_⟩
    · rw [hobj]
      exact .cons (ih (Nat.succ_pos h) (by omega)) .nil
    · rw [hobj]
      rfl

theorem deepKey_root {n hn} : (deepKey limit (.int n hn)).content (limit + 2) (.obj 0) =
      some (.node (.struct 0) [.leaf (.num (.int n)), nest limit]) := by
  refine content_obj.mpr ⟨[.leaf (.num (.int n)), nest limit], ?_, rfl⟩
  exact .cons rfl (.cons (deepKey_content Nat.one_pos (Nat.add_comm _ _)) .nil)

theorem deepKey_chain_cyclic {room} {onPath done : List Handle} (hh : 0 < h)
    (hroom : room + h ≤ limit + 1) (hpath : ∀ p ∈ onPath, p < h) (hdone : ∀ p ∈ done, p < h) :
    (cyclicWalk (deepKey limit x) room (.obj h) onPath done).1 = true := by
  induction room generalizing h onPath done with
  | zero => rfl
  | succ room ih =>
    have hchild := @ih (h + 1) (h :: onPath) done (Nat.succ_pos h) (by omega)
      (forall_mem_cons.mpr ⟨Nat.lt_succ_self h, fun p hp => Nat.lt_succ_of_lt (hpath p hp)⟩)
      (fun p hp => Nat.lt_succ_of_lt (hdone p hp))
    rw [cyclicWalk]
    simp only [Value.asObj]
    rw [if_neg fun hmem => Nat.lt_irrefl _ (hpath h hmem),
      if_neg fun hmem => Nat.lt_irrefl _ (hdone h hmem), deepKey_chain hh (by omega)]
    simp only [Obj.isAggregate, if_true, Obj.children, anyCyclic]
    rcases hw : cyclicWalk (deepKey limit x) room (.obj (h + 1)) (h :: onPath) done with ⟨_ | _, done'⟩
    · rw [hw] at hchild
      cases hchild
    · rfl

theorem deepKey_cyclic {n hn} (hlimit : 0 < limit) :
    (cyclicWalk (deepKey limit (.int n hn)) (limit + 1) (.obj 0) [] []).1 = true := by
  obtain ⟨room, rfl⟩ : ∃ room, limit = room + 1 := ⟨limit - 1, by omega⟩
  have hchild := @deepKey_chain_cyclic (room + 1) (.int n hn) 1 (room + 1) [0] [] Nat.one_pos
    le_rfl (by simp) (by simp)
  rw [cyclicWalk]
  simp only [Value.asObj, not_mem_nil, if_false, deepKey_zero, Obj.isAggregate, if_true,
    Obj.children, anyCyclic]
  rw [show cyclicWalk (deepKey (room + 1) (.int n hn)) (room + 1) (.int n hn) [0] [] = (false, [])
    from rfl]
  simp only
  rcases hw : cyclicWalk (deepKey (room + 1) (.int n hn)) (room + 1) (.obj 1) [0] [] with ⟨_ | _, done'⟩
  · rw [hw] at hchild
    cases hchild
  · rfl

theorem deepKey_write {y} :
    (deepKey limit x).write 0 (.struct 0 [y, .obj 1]) = deepKey limit y := by
  unfold write deepKey
  congr 1
  funext h
  by_cases hh : h = 0
  · subst hh
    exact update_self ..
  · rw [update_of_ne hh]
    simp only [if_neg hh]

end

theorem declaredHash_firstField {f fs n} (ho : H.obj h = .struct 0 (f :: fs))
    (hf : H.num f = some (.int n)) (base span) :
    firstFieldHash.declaredHash base (.obj h) span H = (.ok n.toBitVec, H) := by
  have hinvoke : firstFieldHash.invokeHook .hash base (.obj h) [] span H = (.ok (some f), H) := by
    simp [Machine.invokeHook, Machine.hookProto, Machine.hookOf, Value.asObj, ho, Obj.typeKey,
      firstFieldHash, firstField, Act.andThen, Act.pure]
  unfold Machine.declaredHash
  rw [Act.andThen_reads hinvoke]
  simp only [intVal_load hf]

theorem hashValue_firstField {f fs n} (ho : H.obj h = .struct 0 (f :: fs))
    (hf : H.num f = some (.int n)) (span) :
    hashValue firstFieldHash 0 (.obj h) span H = (.ok n.toBitVec, H) := by
  rw [hashValue, Nat.sub_zero, hashValueIn]
  simp only [ho]
  exact declaredHash_firstField ho hf _ span

theorem snapshotKey_by_reference {key} (h : storeKeyByReference H key = true) :
    snapshotKey key H = (.ok key, H) := by
  cases key with
  | obj k =>
    unfold snapshotKey
    simp only [h, if_true]
    cases H.obj k <;> rfl
  | _ => rfl

/-- A changed first field shows. -/
theorem not_same_struct {x y} (h : x ≠ y) (t) :
    ¬ Same (.node (.struct 0) [.leaf (.num (.int x)), t])
      (.node (.struct 0) [.leaf (.num (.int y)), t]) := by
  intro hsame
  obtain ⟨ys, heq, hys⟩ := same_node.mp hsame
  cases heq
  obtain ⟨b, hb, hnorm⟩ := same_leaf.mp (forall₂_cons.mp hys).1
  cases hb
  exact h (int_norm_inj.mp hnorm)

/-- A struct over a chain past the limit is stored as it is. -/
theorem snapshotKey_deepKey {limit} (hlimit : limit = maxStructuralDepth) {n hn} :
    snapshotKey (.obj 0) (deepKey limit (.int n hn)) =
      (.ok (.obj 0), deepKey limit (.int n hn)) := by
  refine snapshotKey_by_reference ?_
  rw [storeKeyByReference, ← hlimit]
  refine deepKey_cyclic ?_
  rw [hlimit]
  decide

/-- **A key past the depth limit is not isolated**: a write to its first field reaches the
    stored key, whose content and hash change. -/
theorem deep_key_is_shared :
    let H := deepKey maxStructuralDepth one
    let H' := H.write 0 (.struct 0 [two, .obj 1])
    hashValue firstFieldHash 0 (.obj 0) 0 H = (.ok 1, H) ∧
      snapshotKey (.obj 0) H = (.ok (.obj 0), H) ∧
      hashValue firstFieldHash 0 (.obj 0) 0 H' = (.ok 2, H') ∧
      ∃ n t t', H.content n (.obj 0) = some t ∧ H'.content n (.obj 0) = some t' ∧
        ¬ Tree.Same t t' := by
  generalize hlimit : maxStructuralDepth = limit
  refine ⟨hashValue_firstField (n := 1) deepKey_zero rfl 0, snapshotKey_deepKey hlimit.symm, ?_, ?_⟩
  · exact hashValue_firstField (n := 2) (write_self _ _ _) rfl 0
  · have hwritten := @deepKey_root limit 2 (by decide)
    rw [← deepKey_write (x := one)] at hwritten
    exact ⟨_, _, _, deepKey_root, hwritten, not_same_struct (by decide) _⟩

/-- A struct of `1` and an empty list. -/
def shallowKey : Heap where
  obj h := if h = 0 then .struct 0 [one, .obj 1] else .list []
  next := 2

theorem shallowKey_formed : shallowKey.Formed := by
  have hcases : ∀ h, shallowKey.obj h = .struct 0 [one, .obj 1] ∨ shallowKey.obj h = .list [] := by
    intro h
    by_cases hh : h = 0
    · exact .inl (if_pos hh)
    · exact .inr (if_neg hh)
  refine ⟨fun h _ c hc k hk => ?_, fun h m hm => ?_, fun h s hs => ?_⟩
  · subst hk
    rcases hcases h with ho | ho <;> rw [ho] at hc
    · simp [Obj.children, one] at hc
      subst hc
      decide
    · cases hc
  · rcases hcases h with ho | ho <;> rw [ho] at hm <;> cases hm
  · rcases hcases h with ho | ho <;> rw [ho] at hs <;> cases hs

theorem num_of_content {x} (h : H.content n v = some (.leaf (.num x))) : H.num v = some x := by
  obtain ⟨n, rfl⟩ := content_pos h
  cases v with
  | obj k =>
    obtain ⟨ts, -, htree⟩ := content_obj.mp h
    rw [num]
    cases ho : H.obj k <;> rw [ho] at htree <;> cases htree
    rfl
  | _ => cases h <;> rfl

theorem firstFieldHash_pure (n ts) :
    firstFieldHash.PureHash (.node (.struct 0) (.leaf (.num (.int n)) :: ts)) := by
  refine ⟨fun _ _ => .ok n.toBitVec, fun H v k hv base span => ?_⟩
  obtain ⟨k, rfl⟩ := content_pos hv
  obtain ⟨h, vs, rfl, ho, hvs⟩ := obj_of_node hv
  cases hvs with
  | cons hf _ => exact declaredHash_firstField ho (num_of_content hf) base span

theorem snapshotKey_isolates_struct :
    ∃ stored H', snapshotKey (.obj 0) shallowKey = (.ok stored, H') ∧
      let Hf := (H'.write 1 (.list [two])).write 0 (.struct 0 [two, .obj 1])
      hashValue firstFieldHash 0 stored 0 Hf = (.ok 1, Hf) := by
  have hcontent : shallowKey.content 3 (.obj 0) =
    some (.node (.struct 0) [.leaf (.num (.int 1)), .node .list []]) := rfl
  have hmain := snapshotKey_isolates firstFieldHash shallowKey shallowKey_formed (.obj 0)
    (fun h hh => by cases hh; decide) rfl
  have hlimit := content_mono (k := maxStructuralDepth + 1) hcontent (by decide)
  obtain ⟨stored, H', hrun, hold, hlater⟩ := hmain.2 (hmain.1 (isSome_iff_exists.mpr ⟨_, hlimit⟩))
  refine ⟨stored, H', hrun, ?_⟩
  have hpure : (node (.struct 0) [.leaf (.num (.int 1)), .node .list []]).All
      firstFieldHash.PureHash := by
    refine .intro (firstFieldHash_pure 1 _) fun c hc => ?_
    simp only [kids, mem_cons, not_mem_nil, or_false] at hc
    rcases hc with rfl | rfl
    · exact .intro trivial (forall_mem_nil _)
    · exact .intro trivial (forall_mem_nil _)
  refine (hlater _ (.write (.write .refl ?_) ?_) 3 _ hcontent).2 hpure 0 0 1
    (hashValue_firstField (n := 1) rfl rfl 0)
  · exact .inl ⟨by decide, by rw [hold 1 (by decide)]; rfl⟩
  · refine .inl ⟨by decide, ?_⟩
    rw [write_of_ne _ _ (by decide), hold 0 (by decide)]
    rfl

end ChezziLang.Vm
