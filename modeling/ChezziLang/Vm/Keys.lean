/-
  The keys of a map or a set over whole runs of a program.

  Strings, bytes, wide ints and tuples are never written, so a key made of them and of scalars
  keeps its content.  Everything else the program does is a run of steps: changes elsewhere,
  new values for old keys, removals, and additions of keys a probe did not find.

  Proved:
  * `KeysInv.run`: along every run the table is indexed, the cached hashes are the hashes of
    the stored keys, and no two stored keys are equal.
  * `insertKey_stores`, `removeKey_later`: storing and removing a key are such runs, and storing
    leaves an entry with an equal key.
  * `lookup_finds_stored`: from then on a lookup with the key, or with a value equal to it that
    holds no byte array, finds that entry and does not fault.
-/
import ChezziLang.Vm.Probe

namespace ChezziLang.Vm

open Lib HashIndex List Option Vm.Tree Act Heap

/-! ## What keys are made of -/

/-- The kinds with a content that no program writes. -/
def Obj.isFrozen : Obj → Bool
  | .str _ | .bytes _ | .bigInt _ _ | .tuple _ => true
  | _ => false

/-- What `hash_value` accepts: scalars, strings, bytes, tuples of such, and values of a
    declared type. -/
inductive KeyShape (H : Heap) : Value → Prop where
  | scalar {v : Value} (hv : v.asObj = none) : KeyShape H v
  | declared {h : Handle} (hh : h < H.next) (ho : (H.obj h).typeKey.isSome) : KeyShape H (.obj h)
  | frozen {h : Handle} (hh : h < H.next) (ho : (H.obj h).isFrozen = true)
      (hparts : ∀ c ∈ (H.obj h).children, KeyShape H c) : KeyShape H (.obj h)

/-- Frozen objects stay as they are, and declared types do not change. -/
structure Heap.Keeps (H H' : Heap) : Prop where
  next_le : H.next ≤ H'.next
  frozen : ∀ k < H.next, (H.obj k).isFrozen = true → H'.obj k = H.obj k
  declared : ∀ k < H.next, (H.obj k).typeKey.isSome → (H'.obj k).typeKey.isSome

theorem Heap.Keeps.refl (H : Heap) : H.Keeps H := ⟨le_rfl, fun _ _ _ => rfl, fun _ _ h => h⟩

variable {H H' : Heap} {walkBase n : Nat} {span : Span} {b a t : Tree} {h : Handle} {v : Value}

theorem Heap.Keeps.trans {H''} (h : H.Keeps H') (h' : H'.Keeps H'') : H.Keeps H'' where
  next_le := h.next_le.trans h'.next_le
  frozen k hk ho := by
    have hsame := h.frozen k hk ho
    rw [h'.frozen k (hk.trans_le h.next_le) (by rw [hsame]; exact ho), hsame]
  declared k hk ho :=
    h'.declared k (hk.trans_le h.next_le) (h.declared k hk ho)

theorem KeyShape.keeps (h : KeyShape H v) (hk : H.Keeps H') : KeyShape H' v := by
  induction h with
  | scalar hv => exact .scalar hv
  | declared hh ho => exact .declared (hh.trans_le hk.next_le) (hk.declared _ hh ho)
  | frozen hh ho _ ih =>
    have hsame := hk.frozen _ hh ho
    refine .frozen (hh.trans_le hk.next_le) (by rw [hsame]; exact ho) ?_
    rw [hsame]
    exact ih

/-- The content of a value of a declared type is no key's without hooks. -/
theorem not_keyable_declared (ho : (H.obj h).typeKey.isSome) (ha : H.content n (.obj h) = some a) :
    ¬ a.Keyable := by
  obtain ⟨n, rfl⟩ := content_pos ha
  obtain ⟨ts, -, rfl⟩ := content_obj.mp ha
  cases hobj : H.obj h <;> rw [hobj] at ho <;> first | exact id | cases ho

/-- **A key without hooks keeps its content.** -/
theorem KeyShape.content_iff (h : KeyShape H v) (hk : H.Keeps H') (hkey : a.All Keyable) :
    H'.content n v = some a ↔ H.content n v = some a := by
  induction h generalizing n a with
  | scalar hv =>
    rw [content_frame fun k hk => ?_]
    cases hk <;> cases hv
  | declared hh ho =>
    constructor
    · exact fun h => absurd hkey.here (not_keyable_declared (hk.declared _ hh ho) h)
    · exact fun h => absurd hkey.here (not_keyable_declared ho h)
  | @frozen h hh ho _ ih =>
    cases n with
    | zero => exact .rfl
    | succ n =>
      rw [content_obj, content_obj, hk.frozen h hh ho]
      constructor
      · rintro ⟨ts, hts, rfl⟩
        rw [all_iff, Obj.kids_tree hts] at hkey
        exact ⟨ts, forall₂_imp_mem hts fun c hc t ht => (ih c hc (hkey.2 t ht)).mp, rfl⟩
      · rintro ⟨ts, hts, rfl⟩
        rw [all_iff, Obj.kids_tree hts] at hkey
        exact ⟨ts, forall₂_imp_mem hts fun c hc t ht => (ih c hc (hkey.2 t ht)).mpr, rfl⟩

/-- A stored key equal to a key without hooks has none either. -/
theorem KeyShape.keyable (h : KeyShape H v) (ha : H.content n v = some a) (hsame : Same a b)
    (hb : b.All Keyable) :
    a.All Keyable := by
  induction h generalizing n a b with obtain ⟨n, rfl⟩ := content_pos ha
  | @scalar v hv =>
    cases v with
    | obj h => cases hv
    | _ =>
      cases ha
      exact .intro trivial nofun
  | @declared h hh ho =>
    obtain ⟨ts, -, rfl⟩ := content_obj.mp ha
    exfalso
    have hhere := hb.here
    cases hobj : H.obj h <;> rw [hobj] at ho hsame <;>
      first
      | cases ho; done
      | (obtain ⟨ys, rfl, -⟩ := same_node.mp hsame; exact hhere)
  | @frozen h hh ho _ ih =>
    obtain ⟨ts, hts, rfl⟩ := content_obj.mp ha
    rw [all_iff, Obj.kids_tree hts]
    cases hobj : H.obj h with
    | tuple items =>
      rw [hobj] at hsame
      obtain ⟨us, rfl, hus⟩ := same_node.mp hsame
      refine ⟨trivial, fun t ht => ?_⟩
      obtain ⟨c, hc, hct⟩ := forall₂_mem_right hts ht
      obtain ⟨u, hu, htu⟩ := forall₂_mem_left hus ht
      exact ih c hc hct htu (hb.part hu)
    | _ =>
      rw [hobj] at ho hts
      first
      | (refine ⟨trivial, fun t ht => ?_⟩
         rw [forall₂_nil_left_iff.mp hts] at ht
         cases ht)
      | cases ho

theorem Tree.Keyable.keysApart (h : t.Keyable) : t.KeysApart := by
  cases t with
  | leaf a | node s ts => trivial
  | _ => exact h.elim

/-! ## Runs -/

/-- Two keys without hooks that are equal. -/
def Clash (H : Heap) (v v' : Value) : Prop :=
  ∃ n a n' a', H.content n v = some a ∧ H.content n' v' = some a' ∧ a.All Tree.Keyable ∧
    a'.All Tree.Keyable ∧ Tree.Same a a'

theorem Clash.keeps {v'} (hk : H.Keeps H') (hv : KeyShape H v) (hv' : KeyShape H v')
    (h : Clash H' v v') : Clash H v v' := by
  obtain ⟨n, a, n', a', ha, ha', hkey, hkey', hsame⟩ := h
  exact ⟨n, a, n', a', (hv.content_iff hk hkey).mp ha, (hv'.content_iff hk hkey').mp ha', hkey,
    hkey', hsame⟩

variable {m : Machine} {w : Word}

section

variable {E : Type} [CachedHash E] {S : Store E}

/-- What a probe sees of the entries. -/
def Store.slots (S : Store E) (t : HashIndex.Table E) : List (Word × Value) :=
  t.entries.map fun e => (CachedHash.hash e, S.key e)

/-- The cached hash of a key without hooks is its hash. -/
def HashesTo (m : Machine) (H : Heap) (s : Word × Value) : Prop :=
  ∀ n a, H.content n s.2 = some a → a.All Tree.Keyable → Tree.hash m a = some s.1

/-- An entry a table may get: an accepted key under its hash, with no equal key under it. -/
structure Addable (m : Machine) (H : Heap) (slots : List (Word × Value)) (s : Word × Value) :
    Prop where
  shape : KeyShape H s.2
  hash : HashesTo m H s
  fresh : ∀ s' ∈ slots, s'.1 = s.1 → ¬ Clash H s'.2 s.2

/-- One step of a program, as the container at `h` sees it. -/
inductive Step (S : Store E) (m : Machine) (h : Handle) (H : Heap) : Heap → Prop where
  | elsewhere {H' : Heap} (hk : H.Keeps H') (hh : H'.obj h = H.obj h) : Step S m h H H'
  | update {t t' : HashIndex.Table E} (ht : S.table (H.obj h) = some t) (hgood : t'.Good)
      (hslots : S.slots t' = S.slots t) : Step S m h H (H.write h (S.object t'))
  | remove {t t' : HashIndex.Table E} {i : Nat} {r : Option E}
      (ht : S.table (H.obj h) = some t) (hr : t.removeAt i = .ok (r, t')) :
      Step S m h H (H.write h (S.object t'))
  | add {t t' : HashIndex.Table E} {e : E} (ht : S.table (H.obj h) = some t)
      (hp : t.push e = .ok t') (he : Addable m H (S.slots t) (CachedHash.hash e, S.key e)) :
      Step S m h H (H.write h (S.object t'))

/-- Any number of steps. -/
def Later (S : Store E) (m : Machine) (h : Handle) : Heap → Heap → Prop :=
  Relation.ReflTransGen (Step S m h)

/-- What the entries of a container satisfy. -/
structure SlotsInv (m : Machine) (H : Heap) (slots : List (Word × Value)) : Prop where
  shape : ∀ s ∈ slots, KeyShape H s.2
  hash : ∀ s ∈ slots, HashesTo m H s
  apart : slots.Pairwise fun s s' => ¬ Clash H s.2 s'.2

/-- The container at `h` is indexed, and its entries are in order. -/
structure KeysInv (S : Store E) (m : Machine) (h : Handle) (H : Heap) (t : HashIndex.Table E) :
    Prop where
  table : S.table (H.obj h) = some t
  good : t.Good
  slots : SlotsInv m H (S.slots t)

/-- A new container. -/
theorem KeysInv.empty {version} (ht : S.table (H.obj h) = some ⟨[], [], version⟩) :
    KeysInv S m h H ⟨[], [], version⟩ where
  table := ht
  good := .inl ⟨rfl, rfl⟩
  slots := ⟨fun _ hs => (by cases hs), fun _ hs => (by cases hs), .nil⟩

variable {slots : List (Word × Value)} {t t' : HashIndex.Table E} {r : Option E} {i : Nat}

theorem SlotsInv.keeps (h : SlotsInv m H slots) (hk : H.Keeps H') : SlotsInv m H' slots where
  shape s hs := (h.shape s hs).keeps hk
  hash s hs n a ha hkey := h.hash s hs n a (((h.shape s hs).content_iff hk hkey).mp ha) hkey
  apart := by
    refine h.apart.imp_of_mem fun hs hs' hnot hclash => ?_
    exact hnot (hclash.keeps hk (h.shape _ hs) (h.shape _ hs'))

theorem SlotsInv.sublist {slots'} (h : SlotsInv m H slots) (hsub : slots'.Sublist slots) :
    SlotsInv m H slots' where
  shape s hs := h.shape s (hsub.subset hs)
  hash s hs := h.hash s (hsub.subset hs)
  apart := h.apart.sublist hsub

/-- A new key is equal to no stored key: an equal one would have its hash. -/
theorem SlotsInv.add (hround : RoundsToNearest m.fl.ofInt) {s} (h : SlotsInv m H slots)
    (hs : Addable m H slots s) : SlotsInv m H (slots ++ [s]) := by
  refine ⟨forall_mem_append.mpr ⟨h.shape, forall_mem_singleton.mpr hs.shape⟩,
    forall_mem_append.mpr ⟨h.hash, forall_mem_singleton.mpr hs.hash⟩, ?_⟩
  rw [pairwise_append]
  refine ⟨h.apart, pairwise_singleton _ _, fun s' hs' x hx hclash => ?_⟩
  rw [mem_singleton.mp hx] at hclash
  refine hs.fresh s' hs' ?_ hclash
  obtain ⟨n, a, n', a', ha, ha', hkey, hkey', hsame⟩ := hclash
  have hhash := hash_eq hround hsame (hkey.mono fun _ h => h.noByteArray)
    (hkey'.mono fun _ h => h.noByteArray)
  rw [h.hash s' hs' n a ha hkey, hs.hash n' a' ha' hkey'] at hhash
  exact (some.inj hhash).symm

/-- A write to the container keeps what is frozen. -/
theorem keeps_write (ht : S.table (H.obj h) = some t) (o) : H.Keeps (H.write h o) := by
  have ho := (S.table_eq_some _ _).mp ht
  have hcontainer := S.isContainer t
  rw [← ho] at hcontainer
  have hne : ∀ k, (H.obj k).isFrozen = true ∨ (H.obj k).typeKey.isSome → k ≠ h := by
    rintro k hk rfl
    cases hobj : H.obj k <;> rw [hobj] at hcontainer hk <;>
      first | cases hcontainer; done | rcases hk with hk | hk <;> cases hk
  exact ⟨le_rfl, fun k _ hk => H.write_of_ne o (hne k (.inl hk)),
    fun k _ hk => by rw [H.write_of_ne o (hne k (.inr hk))]; exact hk⟩

theorem Step.keeps (hstep : Step S m h H H') : H.Keeps H' := by
  cases hstep with
  | elsewhere hk _ => exact hk
  | update ht _ _ | remove ht _ | add ht _ _ => exact keeps_write ht _

theorem Later.keeps (hrun : Later S m h H H') : H.Keeps H' := by
  induction hrun with
  | refl => exact .refl H
  | tail _ hstep ih => exact ih.trans hstep.keeps

theorem table_write : S.table ((H.write h (S.object t)).obj h) = some t := by
  rw [write_self]
  exact (S.table_eq_some _ _).mpr rfl

theorem push_entries {e} (h : t.push e = .ok t') :
    t'.entries = t.entries ++ [e] ∧ t'.version = t.version + 1 := by
  unfold HashIndex.Table.push at h
  cases hi : t.index.insert (t.entries ++ [e]) (CachedHash.hash e) t.entries.length with
  | error f =>
    simp only [hi] at h
    cases h
  | ok index =>
    simp only [hi] at h
    cases h
    exact ⟨rfl, rfl⟩

theorem push_good {e} (ht : t.Good) (h : t.push e = .ok t') : t'.Good := by
  rcases Table.push_step ht e with ⟨he, -⟩ | ⟨u, hu, hgood, -⟩
  · rw [h] at he
    cases he
  · rw [h] at hu
    cases hu
    exact hgood

theorem removeAt_entries (h : t.removeAt i = .ok (r, t')) : r = t.entries[i]? ∧ (r = none ∧ t' = t ∨
      t'.entries = t.entries.eraseIdx i ∧ t'.version = t.version + 1) := by
  unfold HashIndex.Table.removeAt at h
  cases he : t.entries[i]? with
  | none =>
    rw [he] at h
    cases h
    exact ⟨rfl, .inl ⟨rfl, rfl⟩⟩
  | some removed =>
    simp only [he] at h
    cases hi : SharedIndex.rebuild ((t.entries.eraseIdx i).map CachedHash.hash) with
    | error f =>
      rw [hi] at h
      cases h
    | ok index =>
      rw [hi] at h
      cases h
      exact ⟨rfl, .inr ⟨rfl, rfl⟩⟩

theorem removeAt_sublist (h : t.removeAt i = .ok (r, t')) : t'.entries.Sublist t.entries := by
  rcases (removeAt_entries h).2 with ⟨-, rfl⟩ | ⟨hentries, -⟩
  · exact Sublist.refl _
  · rw [hentries]
    exact eraseIdx_sublist ..

theorem removeAt_good (ht : t.Good) (h : t.removeAt i = .ok (r, t')) : t'.Good := by
  obtain ⟨r', u, hu, hgood, -⟩ := Table.removeAt_step ht i
  rw [h] at hu
  cases hu
  exact hgood

/-- **One step keeps the invariant.** -/
theorem KeysInv.step (hround : RoundsToNearest m.fl.ofInt) (hinv : KeysInv S m h H t)
    (hstep : Step S m h H H') :
    ∃ t', KeysInv S m h H' t' := by
  have hslots := hinv.slots.keeps hstep.keeps
  have hsame : ∀ {u}, S.table (H.obj h) = some u → u = t :=
    fun hu => some.inj (hu.symm.trans hinv.table)
  cases hstep with
  | elsewhere _ hh => exact ⟨t, by rw [hh]; exact hinv.table, hinv.good, hslots⟩
  | update ht hgood heq =>
    obtain rfl := hsame ht
    exact ⟨_, table_write, hgood, by rw [heq]; exact hslots⟩
  | remove ht hr =>
    obtain rfl := hsame ht
    exact ⟨_, table_write, removeAt_good hinv.good hr, hslots.sublist ((removeAt_sublist hr).map _)⟩
  | @add u u' e ht hp he =>
    obtain rfl := hsame ht
    have hadded := (hinv.slots.add hround he).keeps (keeps_write ht (S.object u'))
    refine ⟨_, table_write, push_good hinv.good hp, ?_⟩
    rw [Store.slots, (push_entries hp).1, map_append]
    exact hadded

/-- **Every run keeps the invariant.** -/
theorem KeysInv.run (hround : RoundsToNearest m.fl.ofInt) (hinv : KeysInv S m h H t)
    (hrun : Later S m h H H') :
    ∃ t', KeysInv S m h H' t' := by
  induction hrun with
  | refl => exact ⟨t, hinv⟩
  | tail _ hstep ih =>
    obtain ⟨u, hu⟩ := ih
    exact hu.step hround hstep

end

/-! ## Lookups -/

theorem Tree.Keyable.unhooked {hook} (h : t.Keyable) : m.Unhooked hook t := by
  cases t with
  | node s ts => cases s <;> trivial
  | _ => trivial

/-- Equal keys nest alike. -/
theorem content_of_same {room x y} (ha : H.content n x = some a) (hb : H.content room y = some b)
    (hsame : Same a b) (hkey : a.All Keyable) : H.content room x = some a := by
  induction room generalizing n x y a b with
  | zero => cases hb
  | succ room ih =>
    have hhere := hkey.here
    cases a with
    | leaf u => exact content_of_leaf ha room
    | node s ts =>
      obtain ⟨n, rfl⟩ := content_pos ha
      obtain ⟨us, rfl, hus⟩ := same_node.mp hsame
      obtain ⟨h, vs, rfl, ho, hvs⟩ := obj_of_node ha
      obtain ⟨h', vs', rfl, ho', hvs'⟩ := obj_of_node hb
      refine content_obj.mpr ⟨ts, ?_, by rw [ho]; exact Shape.tree_obj ..⟩
      have hchildren : (H.obj h).children = vs := by rw [ho]; cases s <;> rfl
      rw [hchildren]
      refine forall₂_imp_mem hvs fun c hc t ht hct => ?_
      obtain ⟨u, hu, htu⟩ := forall₂_mem_left hus ht
      obtain ⟨c', _, hcu⟩ := forall₂_mem_right hvs' hu
      exact ih hct hcu htu (hkey.part ht)
    | _ => exact hhere.elim

theorem Hashes.ok {x r} (h : Hashes H x r) (hx : x H = (.ok w, H')) : r = some w ∧ H' = H := by
  cases r with
  | some u =>
    have hu : x H = (.ok u, H) := h
    rw [hu] at hx
    cases hx
    exact ⟨rfl, rfl⟩
  | none =>
    obtain ⟨e, he⟩ := h
    rw [he] at hx
    cases hx

theorem hashItems_accepts {f} {R : Value → Tree → Prop} {Q} {vs : List Value} {ts}
    (hR : Forall₂ R vs ts) {acc : Word}
    (hf : ∀ c t, t ∈ ts → R c t → ∀ u H₁, f c H = (.ok u, H₁) → Q c t ∧ H₁ = H)
    (h : hashItems f vs acc H = (.ok w, H')) : Forall₂ Q vs ts := by
  induction hR generalizing acc with
  | nil => exact .nil
  | @cons c t vs ts hct _ ih =>
    rw [hashItems, andThen] at h
    rcases hc : f c H with ⟨_ | u, H₁⟩
    · simp only [hc] at h
      cases h
    · simp only [hc] at h
      obtain ⟨hq, rfl⟩ := hf c t mem_cons_self hct u H₁ hc
      exact .cons hq (ih (fun c' t' ht' => hf c' t' (mem_cons_of_mem t ht')) h)

/-- A value without hooks whose hash is accepted nests no deeper than the walk may go. -/
theorem hashValueIn_accepts {room} (h : hashValueIn m span room v H = (.ok w, H'))
    (ht : H.content n v = some t) (hooks : t.All (m.Unhooked .hash)) :
    H.content room v = some t := by
  induction room generalizing n v t w H' with
  | zero => cases h
  | succ room ih =>
    obtain ⟨n, rfl⟩ := content_pos ht
    have hrefused : H.isKey v = false → False := by
      intro hkey
      obtain ⟨e, he⟩ := @hashValueIn_refused m span H v hkey (room + 1)
      rw [h] at he
      cases he
    cases t with
    | leaf a => exact content_of_leaf ht room
    | node s ts =>
      have hhook := hookOf_of_unhooked ht hooks.here
      obtain ⟨k, vs, rfl, ho, hvs⟩ := obj_of_node ht
      cases s with
      | list => exact (hrefused (isKey_of_content ht (.inl ⟨ts, rfl⟩))).elim
      | tuple =>
        refine content_obj.mpr ⟨ts, ?_, by rw [ho]; rfl⟩
        simp only [hashValueIn, ho, Shape.obj] at h
        rw [ho]
        refine hashItems_accepts hvs (fun c u hu hc x H₁ hx => ?_) h
        have hcontent := ih hx hc (hooks.part hu)
        exact ⟨hcontent, (Hashes.ok (hashValueIn_content hcontent (hooks.part hu)) hx).2⟩
      | struct tid | enum variantId =>
        simp only [hashValueIn, ho, Shape.obj] at h
        rw [declaredHash_error hhook] at h
        cases h
    | map es => exact (hrefused (isKey_of_content ht (.inr (.inl ⟨es, rfl⟩)))).elim
    | set ts => exact (hrefused (isKey_of_content ht (.inr (.inr ⟨ts, rfl⟩)))).elim

/-- The hash of a key without hooks. -/
theorem hashValue_keyable (span) (hb : H.content (maxStructuralDepth + 1 - walkBase) v = some b)
    (hkey : b.All Keyable) :
    ∃ w, hashValue m walkBase v span H = (.ok w, H) ∧ hash m b = some w := by
  obtain ⟨w, hw⟩ := isSome_iff_exists.mp ((@hash_isSome m b).mpr hkey)
  have hwalk := @hashValueIn_content m span H _ v b hb (hkey.mono fun _ h => h.unhooked)
  rw [hw] at hwalk
  exact ⟨w, hwalk, hw⟩

variable {fuel : Nat}

section

variable {E : Type} [CachedHash E] {S : Store E} {m : Machine} {h : Handle} {H : Heap}
  {t : HashIndex.Table E} {p : Nat} {e : E} {key : Value}

theorem candidateList_length (ht : t.Good) (hk : Word) :
    (candidateList t hk).length ≤ t.entries.length := by
  rw [candidateList, ht.probes.hits hk _ (Nat.lt_succ_self _), positions]
  refine (length_filter_le _ _).trans ?_
  rw [length_range]

/-- Two entries with equal keys without hooks are one. -/
theorem KeysInv.unique (hinv : KeysInv S m h H t) {q e'} (he : t.entries[p]? = some e)
    (he' : t.entries[q]? = some e') (hclash : Clash H (S.key e) (S.key e'))
    (hclash' : Clash H (S.key e') (S.key e)) : p = q := by
  obtain ⟨hp, rfl⟩ := List.getElem?_eq_some_iff.mp he
  obtain ⟨hq, rfl⟩ := List.getElem?_eq_some_iff.mp he'
  have hpairs := pairwise_iff_getElem.mp hinv.slots.apart
  simp only [Store.slots, length_map, getElem_map] at hpairs
  rcases Nat.lt_trichotomy p q with hlt | heq | hlt
  · exact absurd hclash (hpairs p q hp hq hlt)
  · exact heq
  · exact absurd hclash' (hpairs q p hq hp hlt)

theorem KeysInv.mem_slots (he : t.entries[p]? = some e) :
    (CachedHash.hash e, S.key e) ∈ S.slots t :=
  mem_map.mpr ⟨e, mem_of_getElem? he, rfl⟩

/-- **A lookup finds the equal key**, within the depth it may walk. -/
theorem KeysInv.find (hround : RoundsToNearest m.fl.ofInt) (hinv : KeysInv S m h H t)
    (he : t.entries[p]? = some e) (ha : H.content n (S.key e) = some a) (hkey : a.All Keyable)
    (hb : H.content (maxStructuralDepth + 1 - walkBase) v = some b) (hkey' : b.All Keyable)
    (hsame : Same a b) (span) (hfuel : t.entries.length < fuel) :
    Vm.find S m walkBase h v span fuel H = (.ok (some (some p)), H) := by
  obtain ⟨w, hw, hhash⟩ := @hashValue_keyable H walkBase b v m span hb hkey'
  have hcached : CachedHash.hash e = w := by
    have h1 := hinv.slots.hash _ (mem_slots he) n a ha hkey
    have h2 := hash_eq hround hsame (hkey.mono fun _ h => h.noByteArray)
      (hkey'.mono fun _ h => h.noByteArray)
    rw [hhash, h1] at h2
    exact (some.inj h2).symm
  have hlen := candidateList_length hinv.good w
  obtain ⟨r, hr, hends, hfound, hmiss⟩ := @probeLoop_decides E _ S m walkBase h w v span H t b
    hinv.table hinv.good hb hkey' fuel 0 none rfl
  unfold Vm.find probe
  rw [andThen_reads hw, hr]
  have hequal : H.EqualTo (maxStructuralDepth + 1 - walkBase) (S.key e) b :=
    ⟨a, content_of_same ha hb hsame hkey, hsame⟩
  rcases r with _ | _ | q
  · exact absurd rfl (hends (by rw [drop_zero]; omega))
  · refine absurd hequal (hmiss rfl p ?_ e he)
    rw [drop_zero]
    exact (mem_candidateList hinv.good).mpr ⟨e, he, hcached⟩
  obtain ⟨e', he', -, a', ha', hsame'⟩ := hfound q rfl
  have hkey'' := (hinv.slots.shape _ (mem_slots he')).keyable ha' hsame' hkey'
  have hba := same_symm (hkey.mono fun _ h => h.keysApart) hsame
  have hba' := same_symm (hkey''.mono fun _ h => h.keysApart) hsame'
  rw [hinv.unique he he' ⟨_, _, _, _, ha, ha', hkey, hkey'', same_trans hsame hba'⟩
    ⟨_, _, _, _, ha', ha, hkey'', hkey, same_trans hsame' hba⟩]

/-! ## Storing -/

/-- A key without hooks is made of what is accepted, where its handles are allocated. -/
theorem keyShape_of_content (ha : H.content n v = some a) (hkey : a.All Keyable)
    (hbelow : ∀ k, H.Reaches v k → k < H.next) : KeyShape H v := by
  induction n generalizing v a with
  | zero => cases ha
  | succ n ih =>
    cases v with
    | obj k =>
      obtain ⟨ts, hts, rfl⟩ := content_obj.mp ha
      rw [all_iff, Obj.kids_tree hts] at hkey
      refine .frozen (hbelow k (.here k)) ?_ fun c hc => ?_
      · have hhere := hkey.1
        cases ho : H.obj k <;> rw [ho] at hhere <;> first | rfl | exact hhere.elim
      · obtain ⟨u, hu, hcu⟩ := forall₂_mem_left hts hc
        exact ih hcu (hkey.2 u hu) fun j hj => hbelow j (.child hc hj)
    | _ => exact .scalar rfl

/-- How a kind of container stores: what it does to an entry there is, and what it adds. -/
structure Storing (S : Store E) where
  update : HashIndex.Table E → Nat → Option (HashIndex.Table E)
  entry : Word → Value → E
  hash_entry : ∀ w k, CachedHash.hash (entry w k) = w
  key_entry : ∀ w k, S.key (entry w k) = k
  update_some : ∀ {t p e}, t.entries[p]? = some e → ∃ t', update t p = some t'
  update_slots : ∀ {t p t'}, update t p = some t' → S.slots t' = S.slots t
  update_good : ∀ {t p t'}, t.Good → update t p = some t' → t'.Good

/-- The outcome of storing a key with content `b`: an entry with an equal key `stored`. -/
def Stored (S : Store E) (m : Machine) (h : Handle) (H H' : Heap) (b : Tree) (stored : Value) :
    Prop :=
  Later S m h H H' ∧ ∃ t', KeysInv S m h H' t' ∧ (∃ w, (w, stored) ∈ S.slots t') ∧
    ∃ n a, H'.content n stored = some a ∧ a.All Tree.Keyable ∧ Tree.Same a b

/-- The key was there. -/
theorem stored_update (st : Storing S) (hinv : KeysInv S m h H t) (he : t.entries[p]? = some e)
    (ha : H.content n (S.key e) = some a) (hkey : a.All Keyable) (hsame : Same a b) {t'}
    (hup : st.update t p = some t') : Stored S m h H (H.write h (S.object t')) b (S.key e) := by
  have hstep : Step S m h H (H.write h (S.object t')) :=
    .update hinv.table (st.update_good hinv.good hup) (st.update_slots hup)
  have hmem : (CachedHash.hash e, S.key e) ∈ S.slots t := KeysInv.mem_slots he
  have hshape := hinv.slots.shape _ hmem
  refine ⟨.single hstep, t', ⟨table_write, st.update_good hinv.good hup, ?_⟩,
    ⟨CachedHash.hash e, ?_⟩, n, a, (hshape.content_iff hstep.keeps hkey).mpr ha, hkey, hsame⟩
  · rw [st.update_slots hup]
    exact hinv.slots.keeps hstep.keeps
  · rw [st.update_slots hup]
    exact hmem

/-- The key was not there: its copy is added. -/
theorem stored_add (hround : RoundsToNearest m.fl.ofInt) (st : Storing S) (hinv : KeysInv S m h H t)
    (hh : h < H.next) {stored} (hb : H.content n key = some b) (hkey : b.All Keyable)
    (hhash : hash m b = some w) (hnext : H.next ≤ H'.next)
    (hold : ∀ k < H.next, H'.obj k = H.obj k) (hcopied : Copied H H' [] key stored)
    (hmiss : ∀ e ∈ t.entries, CachedHash.hash e = w → ∀ k a, H.content k (S.key e) = some a →
      a.All Keyable → ¬ Same a b) {t'} (hpush : t.push (st.entry w stored) = .ok t') :
    Stored S m h H (H'.write h (S.object t')) b stored := by
  have hkeeps : H.Keeps H' :=
    ⟨hnext, fun k hk _ => hold k hk, fun k hk ho => by rw [hold k hk]; exact ho⟩
  have hcontent := hcopied.content n b hb
  have hshape : KeyShape H' stored := by
    refine keyShape_of_content hcontent hkey fun k hk => ?_
    rcases hcopied.apart k hk with ⟨_, hlt, _⟩ | ⟨hlt, _⟩
    · exact hlt
    · exact hlt.trans_le hnext
  have hinv' : KeysInv S m h H' t :=
    ⟨by rw [hold h hh]; exact hinv.table, hinv.good, hinv.slots.keeps hkeeps⟩
  have hadd : Addable m H' (S.slots t)
      (CachedHash.hash (st.entry w stored), S.key (st.entry w stored)) := by
    rw [st.hash_entry, st.key_entry]
    refine ⟨hshape, fun k a ha _ => ?_, fun s hs hw hclash => ?_⟩
    · rw [← content_unique hcontent ha]
      exact hhash
    obtain ⟨e, he, rfl⟩ := mem_map.mp hs
    obtain ⟨k, a, k', a', ha, ha', hka, -, hsame⟩ := hclash
    rw [← content_unique hcontent ha'] at hsame
    exact hmiss e he hw k a (((hinv.slots.shape _ hs).content_iff hkeeps hka).mp ha) hka hsame
  have hstep : Step S m h H' (H'.write h (S.object t')) := .add hinv'.table hpush hadd
  obtain ⟨u, hu⟩ := hinv'.step hround hstep
  have hut : u = t' := some.inj (hu.table.symm.trans table_write)
  subst hut
  refine ⟨.head (.elsewhere hkeeps (hold h hh)) (.single hstep), u, hu, ⟨w, ?_⟩, n, b,
    (hshape.content_iff hstep.keeps hkey).mpr hcontent, hkey, same_refl b⟩
  rw [Store.slots, (push_entries hpush).1, map_append, mem_append]
  right
  simp [st.hash_entry, st.key_entry]

theorem putTable_ok {f} (ht : S.table (H.obj h) = some t)
    (hrun : putTable S h span f H = (.ok (), H')) :
    ∃ t', f t = .ok t' ∧ H' = H.write h (S.object t') := by
  unfold putTable at hrun
  simp only [ht] at hrun
  cases hf : f t with
  | error e =>
    rw [hf] at hrun
    cases hrun
  | ok t' =>
    rw [hf] at hrun
    cases hrun
    exact ⟨t', rfl, rfl⟩

/-- **Storing an accepted key without hooks.** -/
theorem insertKey_stores (hround : RoundsToNearest m.fl.ofInt) (st : Storing S)
    (hinv : KeysInv S m h H t) (hH : H.Formed) (hh : h < H.next) (hbelow : key.Below H.next)
    (hb : H.content n key = some b) (hooks : b.All (m.Unhooked .hash)) {added}
    (hrun : insertKey S m walkBase h (hashValue m walkBase key span) key span st.update st.entry
      fuel H = (.ok (some added), H')) :
    H.content (maxStructuralDepth + 1 - walkBase) key = some b ∧ b.All Keyable ∧
      ∃ stored, Stored S m h H H' b stored := by
  obtain ⟨w, H₁, hhash, hrest⟩ := andThen_eq_ok hrun
  rw [mapError_eq_ok] at hhash
  -- the hash is accepted, so the key is made of scalars, strings, bytes and tuples
  have hroom := hashValueIn_accepts hhash hb hooks
  obtain ⟨hw, rfl⟩ := Hashes.ok (hashValueIn_content hroom hooks) hhash
  have hkey : b.All Keyable := hash_isSome.mp (by rw [hw]; rfl)
  refine ⟨hroom, hkey, ?_⟩
  obtain ⟨found, H₂, hprobe, hend⟩ := andThen_eq_ok hrest
  rw [mapError_eq_ok] at hprobe
  unfold probe at hprobe
  obtain ⟨r, hr, -, hfound, hmiss⟩ := @probeLoop_decides E _ S m walkBase h w key span H₁ t b
    hinv.table hinv.good hroom hkey fuel 0 none rfl
  rw [hr] at hprobe
  cases hprobe
  rcases found with _ | _ | p
  · cases hend
  · obtain ⟨added', H3, hstore, hdone⟩ := andThen_eq_ok hend
    cases hdone
    simp only [store, bind_none, bind_fun_none] at hstore
    obtain ⟨stored, H4, hsnap, hadd⟩ := andThen_eq_ok hstore
    rw [mapError_eq_ok] at hsnap
    obtain ⟨_, H5, hput, hdone⟩ := andThen_eq_ok hadd
    cases hdone
    have hcopy : storeKeyByReference H₁ key = false :=
      cyclicWalk_content [] (content_mono hroom (Nat.sub_le _ _)) nofun
    obtain ⟨stored', H6, hsnap', hnext, hold, hcopied⟩ :=
      snapshotKey_copied hH hbelow (isKey_of_hash hhash) hcopy
    rw [hsnap'] at hsnap
    cases hsnap
    obtain ⟨t', hpush, rfl⟩ := putTable_ok (by rw [hold h hh]; exact hinv.table) hput
    refine ⟨stored, stored_add hround st hinv hh hroom hkey hw hnext hold hcopied ?_ hpush⟩
    intro e he hew k a ha hka hsame
    obtain ⟨p, hp, rfl⟩ := getElem_of_mem he
    have hget : t.entries[p]? = some t.entries[p] := getElem?_eq_getElem hp
    refine hmiss rfl p ?_ _ hget ⟨a, content_of_same ha hroom hsame hka, hsame⟩
    rw [drop_zero]
    exact (mem_candidateList hinv.good).mpr ⟨_, hget, hew⟩
  · obtain ⟨e, he, -, a, ha, hsame⟩ := hfound p rfl
    obtain ⟨t', ht'⟩ := st.update_some he
    obtain ⟨added', H3, hstore, hdone⟩ := andThen_eq_ok hend
    cases hdone
    simp only [store, hinv.table, bind_some, ht'] at hstore
    cases hstore
    have hkey' := (hinv.slots.shape _ (KeysInv.mem_slots he)).keyable ha hsame hkey
    exact ⟨_, stored_update st hinv he ha hkey' hsame ht'⟩

/-- Removing a key without hooks is a run, too. -/
theorem removeKey_later (hinv : KeysInv S m h H t)
    (hb : H.content (maxStructuralDepth + 1 - walkBase) key = some b) (hkey : b.All Keyable)
    {r} (hrun : removeKey S m walkBase h key span fuel H = (.ok r, H')) : Later S m h H H' := by
  obtain ⟨found, H₁, hfind, hrest⟩ := andThen_eq_ok hrun
  rw [mapError_eq_ok] at hfind
  obtain ⟨w, hw, -⟩ := @hashValue_keyable H walkBase b key m span hb hkey
  obtain ⟨q, hq, -⟩ := @probeLoop_decides E _ S m walkBase h w key span H t b hinv.table
    hinv.good hb hkey fuel 0 none rfl
  unfold Vm.find probe at hfind
  rw [andThen_reads hw, hq] at hfind
  cases hfind
  rcases found with _ | _ | p
  · cases hrest
    exact .refl
  · cases hrest
    exact .refl
  obtain ⟨_, H₂, hput, hdone⟩ := andThen_eq_ok hrest
  cases hdone
  obtain ⟨t', ht', rfl⟩ := putTable_ok hinv.table hput
  cases hremove : t.removeAt p with
  | error e =>
    rw [hremove] at ht'
    cases ht'
  | ok res =>
    rw [hremove] at ht'
    cases ht'
    exact .single (.remove hinv.table hremove)

/-- **The stored key is found later**, as long as its entry is there. -/
theorem Stored.find (hround : RoundsToNearest m.fl.ofInt) {H₁ H₂ b' stored}
    (hst : Stored S m h H H₁ b stored) (hrun : Later S m h H₁ H₂) {t₂}
    (ht2 : S.table (H₂.obj h) = some t₂) (he : t₂.entries[p]? = some e) (hke : S.key e = stored)
    (hv : H₂.content (maxStructuralDepth + 1 - walkBase) v = some b') (hkey : b'.All Keyable)
    (hsame : Same b b') (span) (hfuel : t₂.entries.length < fuel) :
    Vm.find S m walkBase h v span fuel H₂ = (.ok (some (some p)), H₂) := by
  obtain ⟨-, t₁, hinv, ⟨w, hmem⟩, n, a, ha, hkey', hab⟩ := hst
  obtain ⟨t', hinv2⟩ := hinv.run hround hrun
  obtain rfl : t' = t₂ := some.inj (hinv2.table.symm.trans ht2)
  have ha2 := ((hinv.slots.shape _ hmem).content_iff hrun.keeps hkey').mpr ha
  exact hinv2.find hround he (by rw [hke]; exact ha2) hkey' hv hkey (same_trans hab hsame)
    span hfuel

end

/-! ## Maps and sets -/

theorem setValue_slots (t p val) :
    mapStore.slots (MapData.setValue t p val).2 = mapStore.slots t := by
  unfold MapData.setValue
  cases he : t.entries[p]? with
  | none => rfl
  | some e =>
    obtain ⟨hp, rfl⟩ := List.getElem?_eq_some_iff.mp he
    simp only [Store.slots, map_set]
    refine ext_getElem? fun i => ?_
    by_cases hi : p = i
    · subst hi
      rw [getElem?_set_self (by rw [length_map]; exact hp), getElem?_map, he]
      rfl
    · rw [getElem?_set_ne hi]

theorem setValue_good {t : MapData Value Value} (ht : t.Good) (p val) :
    (MapData.setValue t p val).2.Good := by
  rcases MapData.step_from t ht (.setValue p val) with ⟨he, -⟩ | ⟨t', ht', hgood, -⟩
  · cases he
  · cases ht'
    exact hgood

def mapStoring (val : Value) : Storing mapStore where
  update t p := (t.entries[p]?).map fun _ => (MapData.setValue t p val).2
  entry hk k := ⟨hk, k, val⟩
  hash_entry _ _ := rfl
  key_entry _ _ := rfl
  update_some he := by
    rw [he]
    exact ⟨_, rfl⟩
  update_slots h := by
    obtain ⟨e, -, rfl⟩ := Option.map_eq_some_iff.mp h
    exact setValue_slots ..
  update_good hgood h := by
    obtain ⟨e, -, rfl⟩ := Option.map_eq_some_iff.mp h
    exact setValue_good hgood ..

def setStoring : Storing setStore where
  update t _ := some t
  entry hk e := ⟨hk, e⟩
  hash_entry _ _ := rfl
  key_entry _ _ := rfl
  update_some _ := ⟨_, rfl⟩
  update_slots h := by
    cases h
    rfl
  update_good hgood h := by
    cases h
    exact hgood

/-- The int path of an index hashes as the walk does. -/
theorem indexHash_eq (hbase : walkBase ≤ maxStructuralDepth) (key span) :
    indexHash m walkBase key span = hashValue m walkBase key span := by
  funext H
  unfold indexHash
  split
  · next hint =>
    obtain ⟨room, hroom⟩ : ∃ room, maxStructuralDepth + 1 - walkBase = room + 1 :=
      ⟨maxStructuralDepth - walkBase, by omega⟩
    rw [hashValue, hroom]
    cases key with
    | int n hn => rfl
    | obj h =>
      unfold load at hint
      dsimp only at hint
      split at hint
      · next ho => simp only [hashValueIn, ho]
      · cases hint
    | _ => cases hint
  · rfl

/-- A value with the content of a key, but for byte arrays, is a key. -/
theorem keyable_of_same (hsame : Same a b) (hb : b.All Keyable)
    (ha : a.All NoByteArray) : a.All Keyable := by
  induction a using induct generalizing b with
  | h a ih =>
    have hhere := hb.here
    rw [all_iff]
    cases a with
    | leaf x =>
      obtain ⟨y, rfl, hxy⟩ := same_leaf.mp hsame
      refine ⟨?_, nofun⟩
      cases hn : x.norm.isNumber with
      | true =>
        obtain ⟨z, rfl⟩ := Leaf.num_of_isNumber hn
        trivial
      | false =>
        rw [Leaf.eq_of_norm hxy hn ha.here hhere.noByteArray]
        exact hhere
    | node s ts =>
      obtain ⟨us, rfl, hus⟩ := same_node.mp hsame
      refine ⟨?_, fun c hc => ?_⟩
      · cases s <;> trivial
      · obtain ⟨u, hu, hcu⟩ := forall₂_mem_left hus hc
        exact ih c hc hcu (hb.part hu) (ha.part hc)
    | map es =>
      obtain ⟨fs, rfl, -⟩ := same_map.mp hsame
      exact hhere.elim
    | set ts =>
      obtain ⟨us, rfl, -⟩ := same_set.mp hsame
      exact hhere.elim

theorem reaches_below (hH : H.Formed) (hv : v.Below H.next) {k} (hk : H.Reaches v k) :
    k < H.next := by
  induction hk with
  | here h => exact hv h rfl
  | @child h k c hc _ ih => exact ih (hH.closed h (hv h rfl) c hc)

/-- `v` is a value to look `key` up with: the key, or a value equal to it; and it holds no
    byte array. -/
def LooksUp (m : Machine) (H : Heap) (walkBase : Nat) (span : Span) (key v : Value) : Prop :=
  (v = key ∨ valuesEqualGuarded m walkBase v key 0 span H = (.ok true, H)) ∧
    ∀ n c, H.content n v = some c → c.All Tree.NoByteArray

theorem LooksUp.content {key} (h : LooksUp m H walkBase span key v)
    (hb : H.content (maxStructuralDepth + 1 - walkBase) key = some b) (hkey : b.All Keyable) :
    ∃ c, H.content (maxStructuralDepth + 1 - walkBase) v = some c ∧ c.All Keyable ∧ Same b c := by
  obtain ⟨heq, hno⟩ := h
  by_cases hvk : v = key
  · subst hvk
    exact ⟨b, hb, hkey, same_refl b⟩
  have htrue := heq.resolve_left hvk
  simp only [valuesEqualGuarded, Nat.add_zero] at htrue
  obtain ⟨r, hr, hiff⟩ := @valuesEqualIn_keyable m span H _ v key b hvk hb hkey
  rw [hr] at htrue
  obtain ⟨c, hc, hsame⟩ := hiff.mp (Except.ok.inj (Prod.mk.inj htrue).1)
  have hkey' := keyable_of_same hsame hkey (hno _ c hc)
  exact ⟨c, hc, hkey', same_symm (hkey'.mono fun _ h => h.keysApart) hsame⟩

section

variable {E : Type} [CachedHash E] {S : Store E} {m : Machine} {h : Handle} {H : Heap}
  {t : HashIndex.Table E}

/-- From storing a key to looking it up, whatever the program does in between. -/
theorem insertKey_find (hround : RoundsToNearest m.fl.ofInt) (st : Storing S)
    (hinv : KeysInv S m h H t) (hH : H.Formed) (hh : h < H.next) {key} (hbelow : key.Below H.next)
    (hb : H.content n key = some b) (hooks : b.All m.HookFree) {added H₁}
    (hrun : insertKey S m walkBase h (hashValue m walkBase key span) key span st.update st.entry
      fuel H = (.ok (some added), H₁)) :
    ∃ stored, (∃ t₁ w, S.table (H₁.obj h) = some t₁ ∧ (w, stored) ∈ S.slots t₁) ∧
      ∀ H₂ t₂ p e, Later S m h H₁ H₂ → S.table (H₂.obj h) = some t₂ → t₂.entries[p]? = some e →
        S.key e = stored → ∀ walkBase' span' fuel' v, walkBase' ≤ walkBase →
        t₂.entries.length < fuel' → LooksUp m H₂ walkBase' span' key v →
        Vm.find S m walkBase' h v span' fuel' H₂ = (.ok (some (some p)), H₂) := by
  obtain ⟨hroom, hkey, stored, hst⟩ := insertKey_stores hround st hinv hH hh hbelow hb
    (hooks.mono fun _ h => h.noHash) hrun
  obtain ⟨hlater, t₁, hinv1, ⟨w, hmem⟩, -⟩ := id hst
  refine ⟨stored, ⟨t₁, w, hinv1.table, hmem⟩, ?_⟩
  intro H₂ t₂ p e hrun2 ht2 he hke walkBase' span' fuel' v hbase' hfuel' hlook
  have hshape := keyShape_of_content hb hkey fun k hk => reaches_below hH hbelow hk
  have hkeeps := hlater.keeps.trans hrun2.keeps
  have hroom' : H₂.content (maxStructuralDepth + 1 - walkBase') key = some b :=
    content_mono ((hshape.content_iff hkeeps hkey).mpr hroom) (by omega)
  obtain ⟨c, hc, hkey', hsame⟩ := hlook.content hroom' hkey
  exact hst.find hround hrun2 ht2 he hke hc hkey' hsame span' hfuel'

end

theorem mapGet_of_find {p mh t e}
    (hfind : find mapStore m walkBase mh v span fuel H = (.ok (some (some p)), H))
    (ht : (H.obj mh).asMap = some t) (he : t.entries[p]? = some e) :
    mapGet m walkBase mh v span fuel H = (.ok (some (some e.val)), H) := by
  unfold mapGet mapLookup mapProbe
  unfold find at hfind
  rw [← andThen_assoc, andThen_reads hfind]
  simp only [ht, map_some, bind_some, he]

/-- **A stored key is found.** After a key without hooks was accepted by a map or a set, in
    every later state that still has its entry, a lookup with the key or with a value equal to
    it that holds no byte array, made no deeper than the key was stored, finds the entry, does
    not fault, and changes nothing. -/
theorem lookup_finds_stored (m : Machine) (hround : RoundsToNearest m.fl.ofInt) (H : Heap)
    (hH : H.Formed) (walkBase : Nat) (hbase : walkBase ≤ maxStructuralDepth) (key : Value)
    (hbelow : key.Below H.next) (n : Nat) (b : Tree) (hb : H.content n key = some b)
    (hooks : b.All m.HookFree) :
    (∀ mh t val span fuel added H₁, mh < H.next → KeysInv mapStore m mh H t →
      mapSetIndex m walkBase mh key val span fuel H = (.ok (some added), H₁) →
      ∃ stored, (∃ t₁ w, (H₁.obj mh).asMap = some t₁ ∧ (w, stored) ∈ mapStore.slots t₁) ∧
        ∀ H₂ t₂ (p : Nat) (e : MapEntry Value Value), Later mapStore m mh H₁ H₂ → (H₂.obj mh).asMap = some t₂ →
          t₂.entries[p]? = some e → e.key = stored →
          ∀ walkBase' span' fuel' v, walkBase' ≤ walkBase → t₂.entries.length < fuel' →
          LooksUp m H₂ walkBase' span' key v →
          mapGet m walkBase' mh v span' fuel' H₂ = (.ok (some (some e.val)), H₂)) ∧
    (∀ sh t span fuel added H₁, sh < H.next → KeysInv setStore m sh H t →
      setInsert m walkBase sh key span fuel H = (.ok (some added), H₁) →
      ∃ stored, (∃ t₁ w, (H₁.obj sh).asSet = some t₁ ∧ (w, stored) ∈ setStore.slots t₁) ∧
        ∀ H₂ t₂ (p : Nat) (e : SetEntry Value), Later setStore m sh H₁ H₂ → (H₂.obj sh).asSet = some t₂ →
          t₂.entries[p]? = some e → e.elem = stored →
          ∀ walkBase' span' fuel' v, walkBase' ≤ walkBase → t₂.entries.length < fuel' →
          LooksUp m H₂ walkBase' span' key v →
          find setStore m walkBase' sh v span' fuel' H₂ = (.ok (some (some p)), H₂)) := by
  constructor
  · intro mh t val span fuel added H₁ hmh hinv hrun
    rw [mapSetIndex, indexHash_eq hbase] at hrun
    obtain ⟨stored, hstored, hfind⟩ :=
      insertKey_find hround (mapStoring val) hinv hH hmh hbelow hb hooks hrun
    refine ⟨stored, hstored, ?_⟩
    intro H₂ t₂ p e hrun2 ht2 he hke walkBase' span' fuel' v hbase' hfuel' hlook
    have hfound := hfind H₂ t₂ p e hrun2 ht2 he hke walkBase' span' fuel' v hbase' hfuel' hlook
    exact mapGet_of_find hfound ht2 he
  · intro sh t span fuel added H₁ hsh hinv hrun
    exact insertKey_find hround setStoring hinv hH hsh hbelow hb hooks hrun

/-- An empty map at `0`, and two objects. -/
def mapAnd (o o' : Obj) : Heap where
  obj
    | 0 => .map ⟨[], [], 0⟩
    | 1 => o
    | _ => o'
  next := 3

/-- A map with a bytes key, looked up with the equal byte array: a fault. -/
theorem byteArray_lookup_faults :
    let m := hookless zeroFloats fun _ => 5
    ∃ H₁, mapSetIndex m 0 0 (.obj 1) .nil 0 2 (mapAnd (.bytes [97]) (.byteArray [97])) =
        (.ok (some true), H₁) ∧
      mapGet m 0 0 (.obj 1) 0 2 H₁ = (.ok (some (some .nil)), H₁) ∧
      valuesEqualGuarded m 0 (.obj 2) (.obj 1) 0 0 H₁ = (.ok true, H₁) ∧
      mapGet m 0 0 (.obj 2) 0 2 H₁ =
        (.error ⟨"bytearray is not hashable (cannot be a map/set key)", 0⟩, H₁) :=
  ⟨_, rfl, rfl, rfl, rfl⟩

theorem mapAnd_formed {s s'} : (mapAnd (.str s) (.str s')).Formed := by
  have hobj : ∀ h, (mapAnd (.str s) (.str s')).obj h = .map ⟨[], [], 0⟩ ∨
      ∃ u, (mapAnd (.str s) (.str s')).obj h = .str u := by
    intro h
    rcases h with _ | _ | h
    · exact .inl rfl
    · exact .inr ⟨s, rfl⟩
    · exact .inr ⟨s', rfl⟩
  refine ⟨fun h _ c hc => ?_, fun h t ht => ?_, fun h t ht => ?_⟩
  · rcases hobj h with ho | ⟨u, ho⟩ <;> rw [ho] at hc <;> cases hc
  · rcases hobj h with ho | ⟨u, ho⟩ <;> rw [ho] at ht <;> cases ht
    exact .inl ⟨rfl, rfl⟩
  · rcases hobj h with ho | ⟨u, ho⟩ <;> rw [ho] at ht <;> cases ht

theorem lookup_finds_stored_string :
    ∃ H₁, mapSetIndex (hookless nearestFloats fun _ => 5) 0 0 (.obj 1) .nil 0 2
        (mapAnd (.str [97]) (.str [97])) = (.ok (some true), H₁) ∧
      mapGet (hookless nearestFloats fun _ => 5) 0 0 (.obj 2) 0 2 H₁ =
        (.ok (some (some .nil)), H₁) := by
  refine ⟨_, rfl, ?_⟩
  obtain ⟨stored, ⟨t₁, w, ht1, hmem⟩, hfind⟩ :=
    (lookup_finds_stored (hookless nearestFloats fun _ => 5) nearestFloats_rounds
      (mapAnd (.str [97]) (.str [97])) mapAnd_formed 0 (Nat.zero_le _) (.obj 1)
      (fun h hh => by cases hh; decide) 1 _ rfl (hookless_hookFree _ _ _)).1 0 _ .nil 0 2 true _
      (by decide) (.empty rfl) rfl
  cases ht1
  obtain ⟨rfl, rfl⟩ : w = 5 ∧ stored = .obj 1 := Prod.mk.inj (mem_singleton.mp hmem)
  refine hfind _ _ 0 ⟨5, .obj 1, .nil⟩ .refl rfl rfl rfl 0 0 2 (.obj 2) le_rfl (by decide)
    ⟨.inr rfl, fun n c hc => ?_⟩
  obtain ⟨n, rfl⟩ := content_pos hc
  obtain rfl : leaf (.str [97]) = c := some.inj hc
  exact .intro trivial nofun

end ChezziLang.Vm
