/-
  The list sorts that call back into the program: `list_sort_structs` of `vm/hash.rs`,
  `list_sort_by` and `list_sort_by_key` of `vm/list_hof.rs`.

  Each copies the elements to a list no value of the program reaches, sorts the positions
  of that copy by a merge sort that calls the program for every comparison, and writes the
  reordered elements back, unless the list has changed meanwhile.  A callback can do
  anything to the rest of the machine and to the list: `World` keeps the list apart only
  to name it.

  Proved:
  * `sort_correct`: whatever the callbacks do, a sort writes back a permutation of the
    elements it was called on, or faults and writes nothing; it faults if they leave the
    list changed.  Callbacks that answer a total preorder give a stable sort.
-/
import ChezziLang.Lib.MergeSort
import ChezziLang.Vm.Arith

namespace ChezziLang.Vm.Sort

open Lib Lib.MergeSort List Act

/-! ## Model -/

/-- The machine's state: the list being sorted and everything else. -/
structure World (V S : Type) where
  src : List V
  rest : S

/-- The machine around a sort.  `V` are the value words; a word stands for a value, and two
    boxes of one number are two words. -/
structure Machine (V O S : Type) where
  fl : FloatOps
  view : V → Val O
  typeName : V → World V S → String
  /-- `invoke_value`. -/
  invoke : V → List V → Span → Act (World V S) Stop V
  /-- `order_key` on a pair that is not numeric: `seq_order`, `struct_compare`, strings. -/
  order : V → V → Span → Act (World V S) Stop Ordering

section

variable {V O S : Type}

/-- `float_order`: the two zeros are equal, and a NaN goes to one end. -/
def floatOrder (a b : BitVec 64) : Ordering :=
  if F64.key a = 0 ∧ F64.key b = 0 then .eq else F64.totalCmp a b

namespace Machine

/-- `compare_with`. -/
def compareWith (m : Machine V O S) (cmp a b : V) (span : Span) : Act (World V S) Stop Int64 :=
  (m.invoke cmp [a, b] span).andThen fun res =>
    match intVal (m.view res) with
    | some n => Act.pure n
    | none => fun w =>
      (.error (.fault ⟨"sort_by comparator must return int, got " ++ m.typeName res w, span⟩), w)

/-- `order_key`. -/
def orderKey (m : Machine V O S) (a b : V) (span : Span) : Act (World V S) Stop Ordering :=
  match m.view a, m.view b with
  | .float x, .float y => Act.pure (floatOrder x y)
  | x, y =>
    match compareNum x y with
    | some (some o) => Act.pure o
    | some none =>
      match asF64 m.fl x, asF64 m.fl y with
      | some x, some y => Act.pure (floatOrder x y)
      | _, _ => Act.fail .panic
    | none => m.order a b span

/-- `msort_indices`. -/
def msortIndices (m : Machine V O S) (snap : List V) (idx : List (Fin snap.length)) (cmp : V)
    (span : Span) : Act (World V S) Stop (List (Fin snap.length)) :=
  sort (fun i j => (m.compareWith cmp (snap.get i) (snap.get j) span).andThen fun n =>
    Act.pure (decide (n ≤ 0))) idx

/-- `msort_indices_structs`. -/
def msortIndicesStructs (m : Machine V O S) (snap : List V) (idx : List (Fin snap.length))
    (span : Span) : Act (World V S) Stop (List (Fin snap.length)) :=
  sort (fun i j => (m.orderKey (snap.get i) (snap.get j) span).andThen fun o =>
    Act.pure o.isLE) idx

/-- `msort_indices_by_key`. -/
def msortIndicesByKey (m : Machine V O S) (keys : List V) (idx : List (Fin keys.length))
    (span : Span) : Act (World V S) Stop (List (Fin keys.length)) :=
  sort (fun i j => (m.orderKey (keys.get i) (keys.get j) span).andThen fun o =>
    Act.pure o.isLE) idx

/-- The keys of the elements, in order. -/
def extractKeys (m : Machine V O S) (f : V) (span : Span) :
    (xs : List V) → Act (World V S) Stop { ks : List V // ks.length = xs.length }
  | [] => Act.pure ⟨[], rfl⟩
  | x :: xs =>
    (m.invoke f [x] span).andThen fun k =>
      (m.extractKeys f span xs).andThen fun ks =>
        Act.pure ⟨k :: ks.1, by rw [length_cons, length_cons, ks.2]⟩

end Machine

/-- `sort_mutation_check`. -/
def sortMutationCheck [DecidableEq V] (cur snap : List V) (method : String) (span : Span) :
    Except Stop Unit :=
  if cur ≠ snap then
    .error (.fault ⟨"list modified during '" ++ method ++
      "' -- a sort callback must not mutate the list being sorted", span⟩)
  else .ok ()

/-- The end of every sort: check, then write back. -/
def writeBack [DecidableEq V] (snap : List V) (method : String) (span : Span)
    (order : List (Fin snap.length)) : Act (World V S) Stop Unit := fun w =>
  match sortMutationCheck w.src snap method span with
  | .error e => (.error e, w)
  | .ok _ => (.ok (), { w with src := order.map snap.get })

/-- The fault of a wrong number of arguments. -/
def arityFault (method : String) (args : List V) (span : Span) : Stop :=
  .fault ⟨"'" ++ method ++ "' expects 1 argument(s), got " ++ toString args.length, span⟩

namespace Machine

variable [DecidableEq V]

/-- `list_sort_structs`. -/
def listSortStructs (m : Machine V O S) (span : Span) : Act (World V S) Stop Unit := fun w =>
  (m.msortIndicesStructs w.src (finRange _) span).andThen
    (writeBack w.src "sort" span) w

/-- `list_sort_by`. -/
def listSortBy (m : Machine V O S) (args : List V) (span : Span) : Act (World V S) Stop Unit :=
  match args with
  | [cmp] => fun w =>
    (m.msortIndices w.src (finRange _) cmp span).andThen
      (writeBack w.src "sort_by" span) w
  | _ => Act.fail (arityFault "sort_by" args span)

/-- `list_sort_by_key`. -/
def listSortByKey (m : Machine V O S) (args : List V) (span : Span) :
    Act (World V S) Stop Unit :=
  match args with
  | [f] => fun w =>
    (m.extractKeys f span w.src).andThen (fun ks =>
      (m.msortIndicesByKey ks.1 (finRange _) span).andThen fun order =>
        writeBack w.src "sort_by_key" span (order.map (Fin.cast ks.2))) w
  | _ => Act.fail (arityFault "sort_by_key" args span)

end Machine

/-! ## Any callback -/

/-- One call back into the program. -/
def Machine.Call (m : Machine V O S) (w w' : World V S) : Prop :=
  (∃ f args span, (m.invoke f args span w).2 = w') ∨ ∃ a b span, (m.order a b span w).2 = w'

/-- The states that calls back into the program lead to. -/
def Machine.Calls (m : Machine V O S) : World V S → World V S → Prop :=
  Relation.ReflTransGen m.Call

/-- A sort called in `w`: after its calls it writes back a permutation, or stops and leaves
    all as they left it. -/
def WritesBack (m : Machine V O S) (w : World V S) (out : Except Stop Unit × World V S) : Prop :=
  ∃ w1, m.Calls w w1 ∧
    ((∃ xs, xs.Perm w.src ∧ w1.src = w.src ∧ out = (.ok (), { w1 with src := xs })) ∨
      ∃ e, out = (.error e, w1))

variable {w : World V S} {span : Span}

section

variable (m : Machine V O S)

theorem Machine.calls_trans (s t u) (h1 : m.Calls s t) (h2 : m.Calls t u) :
    m.Calls s u := Relation.ReflTransGen.trans h1 h2

theorem Machine.calls_refl (s) : m.Calls s s := Relation.ReflTransGen.refl

theorem Machine.invoke_moves (f args span) : Moves m.Calls (m.invoke f args span) :=
  fun _ => Relation.ReflTransGen.single (.inl ⟨f, args, span, rfl⟩)

theorem Machine.compareWith_moves (cmp a b span) : Moves m.Calls (m.compareWith cmp a b span) := by
  refine (m.invoke_moves cmp [a, b] span).andThen m.calls_trans fun res => ?_
  split
  · exact moves_pure m.calls_refl _
  · exact m.calls_refl

theorem Machine.orderKey_moves (a b span) : Moves m.Calls (m.orderKey a b span) := by
  unfold Machine.orderKey
  split
  · exact moves_pure m.calls_refl _
  split
  · exact moves_pure m.calls_refl _
  · split
    · exact moves_pure m.calls_refl _
    · exact m.calls_refl
  · exact fun _ => Relation.ReflTransGen.single (.inr ⟨a, b, span, rfl⟩)

theorem Machine.extractKeys_moves (f span xs) : Moves m.Calls (m.extractKeys f span xs) := by
  induction xs with
  | nil => exact moves_pure m.calls_refl _
  | cons x xs ih =>
    exact (m.invoke_moves f [x] span).andThen m.calls_trans fun k =>
      ih.andThen m.calls_trans fun ks => moves_pure m.calls_refl _

/-- A merge sort by a comparison that only calls back only calls back. -/
theorem Machine.sort_calls {A α} {x : α → α → Act (World V S) Stop A}
    (hx : ∀ i j, Moves m.Calls (x i j)) (test : A → Bool) (idx) :
    Moves m.Calls (sort (fun i j => (x i j).andThen fun c => pure (test c)) idx) :=
  sort_moves m.calls_refl m.calls_trans
    (fun i j => (hx i j).andThen m.calls_trans fun _ => moves_pure m.calls_refl _) idx

theorem map_get_perm {xs : List V} {order : List (Fin xs.length)}
    (h : order.Perm (finRange xs.length)) : (order.map xs.get).Perm xs := by
  have hmap := h.map xs.get
  rwa [map_get_finRange] at hmap

variable [DecidableEq V]

/-- Sorting positions and writing back, for any computation of the positions. -/
theorem writesBack_of_order {method : String}
    {order : Act (World V S) Stop (List (Fin w.src.length))} (hmoves : Moves m.Calls order)
    (hperm : Returns order (Perm · (finRange w.src.length))) :
    WritesBack m w (order.andThen (writeBack w.src method span) w) := by
  refine ⟨(order w).2, hmoves w, ?_⟩
  cases h : (order w).1 with
  | error e =>
    rw [andThen_error h]
    exact .inr ⟨e, rfl⟩
  | ok idx =>
    rw [andThen_ok h, writeBack, sortMutationCheck]
    split
    · next e he => exact .inr ⟨e, rfl⟩
    next he =>
    split at he
    · cases he
    · next hsame =>
      exact .inl ⟨_, map_get_perm (hperm w idx h), not_not.mp hsame, rfl⟩

theorem listSortStructs_writesBack (span : Span) (w) : WritesBack m w (m.listSortStructs span w) :=
  writesBack_of_order m (m.sort_calls (fun _ _ => m.orderKey_moves _ _ _) _ _) (sort_perm _)

theorem listSortBy_writesBack (args : List V) (span w) :
    WritesBack m w (m.listSortBy args span w) := by
  unfold Machine.listSortBy
  split
  · exact writesBack_of_order m (m.sort_calls (fun _ _ => m.compareWith_moves _ _ _ _) _ _)
      (sort_perm _)
  · exact ⟨w, m.calls_refl w, .inr ⟨_, rfl⟩⟩

theorem map_cast_finRange {n k} (h : n = k) : (finRange n).map (Fin.cast h) = finRange k := by
  subst h
  exact map_id _

/-- The positions `list_sort_by_key` writes back. -/
theorem listSortByKey_eq (f span w) : m.listSortByKey [f] span w =
      ((m.extractKeys f span w.src).andThen fun ks =>
        (m.msortIndicesByKey ks.1 (finRange _) span).andThen fun order =>
          pure (order.map (Fin.cast ks.2))).andThen (writeBack w.src "sort_by_key" span) w := by
  rw [andThen_assoc]
  simp only [andThen_assoc]
  rfl

theorem listSortByKey_writesBack (args : List V) (span w) :
    WritesBack m w (m.listSortByKey args span w) := by
  by_cases h : ∃ f, args = [f]
  · obtain ⟨f, rfl⟩ := h
    rw [listSortByKey_eq]
    apply writesBack_of_order
    · refine (m.extractKeys_moves f span w.src).andThen m.calls_trans fun ks => ?_
      refine Moves.andThen m.calls_trans
        (m.sort_calls (fun _ _ => m.orderKey_moves _ _ _) _ _) fun order => ?_
      exact moves_pure m.calls_refl _
    refine Returns.andThen (P := fun _ => True) (fun _ _ _ => trivial) fun ks _ => ?_
    refine Returns.andThen (sort_perm (finRange ks.1.length)) fun order horder => ?_
    apply returns_pure
    have hcast := horder.map (Fin.cast ks.2)
    rwa [map_cast_finRange] at hcast
  · unfold Machine.listSortByKey
    split
    · next f => exact absurd ⟨f, rfl⟩ h
    · exact ⟨w, m.calls_refl w, .inr ⟨_, rfl⟩⟩

end

/-! ## A total preorder -/

/-- Total and transitive on the elements of a list. -/
def PreorderOn (le : V → V → Bool) (xs : List V) : Prop :=
  (∀ a ∈ xs, ∀ b ∈ xs, le a b = true ∨ le b a = true) ∧
  ∀ a ∈ xs, ∀ b ∈ xs, ∀ c ∈ xs, le a b = true → le b c = true → le a c = true

instance (le : V → V → Bool) (xs : List V) : Decidable (PreorderOn le xs) :=
  decidable_of_iff ((xs.all fun a => xs.all fun b => le a b || le b a) = true ∧
      (xs.all fun a => xs.all fun b => xs.all fun c => !(le a b && le b c) || le a c) = true) (by
    simp only [PreorderOn, all_eq_true, Bool.or_eq_true, Bool.not_eq_true',
      ← Bool.not_eq_true, ← imp_iff_not_or, Bool.and_eq_true, and_imp])

/-- `ys` are the elements of `xs` in order, equivalent ones as they stood. -/
def StableSort (le : V → V → Bool) (xs ys : List V) : Prop :=
  ∃ order : List (Fin xs.length), order.Perm (finRange xs.length) ∧
    ys = order.map xs.get ∧
    order.Pairwise fun i j => le (xs.get i) (xs.get j) = true ∧
      (le (xs.get j) (xs.get i) = true → i < j)

/-- A sort that ended, with the list stably sorted. -/
def SortsBy (le : V → V → Bool) (w : World V S) (out : Except Stop Unit × World V S) : Prop :=
  ∃ w', out = (.ok (), w') ∧ StableSort le w.src w'.src

/-- The list is as it was in `w`. -/
def Unchanged (w w' : World V S) : Prop := w'.src = w.src

section

variable (m : Machine V O S)

/-- Positions sorted by an order of the elements. -/
theorem order_total {A} {n : Nat} (elem : Fin n → V) (helem : ∀ i, elem i ∈ w.src) {le}
    (hpre : PreorderOn le w.src) {x : Fin n → Fin n → Act (World V S) Stop A} {test : A → Bool}
    (hx : ∀ i j, Total (Unchanged w) (x i j) fun c => test c = le (elem i) (elem j)) :
    Total (Unchanged w)
      (sort (fun i j => (x i j).andThen fun c => pure (test c)) (finRange n))
      fun out => out.Perm (finRange n) ∧
        out.Pairwise (Stable (fun i j => le (elem i) (elem j)) (· < ·)) := by
  refine sort_total (fun i j => (hx i j).andThen fun c hc => total_pure hc) ?_ ?_ _
    (pairwise_lt_finRange n)
  · intro i j
    exact hpre.1 _ (helem i) _ (helem j)
  · intro i j k
    exact hpre.2 _ (helem i) _ (helem j) _ (helem k)

theorem extractKeys_total {f Key} (xs)
    (hkey : ∀ a ∈ xs, Total (Unchanged w) (m.invoke f [a] span) (Key a)) :
    Total (Unchanged w) (m.extractKeys f span xs) fun ks => Forall₂ Key xs ks.1 := by
  induction xs with
  | nil => exact total_pure Forall₂.nil
  | cons x xs ih =>
    refine (hkey x mem_cons_self).andThen fun k hk => ?_
    refine (ih fun a ha => hkey a (mem_cons_of_mem x ha)).andThen fun ks hks => ?_
    exact total_pure (Forall₂.cons hk hks)

/-- Int keys have their natural order. -/
theorem Machine.orderKey_int {a b x y} (ha : intVal (m.view a) = some x)
    (hb : intVal (m.view b) = some y) (span) :
    m.orderKey a b span = pure (compare x.toInt y.toInt) := by
  rw [intVal_inj] at ha hb
  unfold Machine.orderKey
  rw [ha, hb]
  split
  · next u v hu hv =>
    have := congrArg intVal hu
    rw [intVal_makeInt] at this
    cases this
  · unfold compareNum
    rw [intVal_makeInt, intVal_makeInt]

variable [DecidableEq V]

theorem sortsBy_of_order {method le order}
    (h : Total (Unchanged w) order fun out => out.Perm (finRange w.src.length) ∧
      out.Pairwise (Stable (fun i j => le (w.src.get i) (w.src.get j)) (· < ·))) :
    SortsBy le w (order.andThen (writeBack w.src method span) w) := by
  obtain ⟨idx, hidx, hsame, hperm, hord⟩ := h w rfl
  rw [andThen_ok hidx]
  unfold writeBack sortMutationCheck
  have hsrc : (order w).2.src = w.src := hsame
  rw [if_neg (not_not.mpr hsrc)]
  exact ⟨_, rfl, idx, hperm, rfl, hord⟩

theorem listSortStructs_sortsBy {ord : V → V → Ordering}
    (hpre : PreorderOn (fun a b => (ord a b).isLE) w.src)
    (hord : ∀ a ∈ w.src, ∀ b ∈ w.src, Total (Unchanged w) (m.orderKey a b span) (· = ord a b)) :
    SortsBy (fun a b => (ord a b).isLE) w (m.listSortStructs span w) := by
  refine sortsBy_of_order (order_total w.src.get (get_mem w.src) hpre fun i j => ?_)
  exact (hord _ (get_mem _ i) _ (get_mem _ j)).mono fun c hc => by rw [hc]

theorem listSortBy_sortsBy {cmp} {c : V → V → Int64}
    (hpre : PreorderOn (fun a b => decide (c a b ≤ 0)) w.src)
    (hcmp : ∀ a ∈ w.src, ∀ b ∈ w.src, Total (Unchanged w) (m.invoke cmp [a, b] span)
      fun v => intVal (m.view v) = some (c a b)) :
    SortsBy (fun a b => decide (c a b ≤ 0)) w (m.listSortBy [cmp] span w) := by
  refine sortsBy_of_order (order_total w.src.get (get_mem w.src) hpre fun i j => ?_)
  refine (hcmp _ (get_mem _ i) _ (get_mem _ j)).andThen fun v hv => ?_
  rw [hv]
  exact total_pure rfl

theorem listSortByKey_sortsBy {f} {Key : V → V → Prop} {ord : V → V → Ordering}
    (hpre : PreorderOn (fun a b => (ord a b).isLE) w.src)
    (hkey : ∀ a ∈ w.src, Total (Unchanged w) (m.invoke f [a] span) (Key a))
    (hord : ∀ a ∈ w.src, ∀ b ∈ w.src, ∀ ka kb, Key a ka → Key b kb →
      Total (Unchanged w) (m.orderKey ka kb span) (· = ord a b)) :
    SortsBy (fun a b => (ord a b).isLE) w (m.listSortByKey [f] span w) := by
  rw [listSortByKey_eq]
  apply sortsBy_of_order
  refine (extractKeys_total m w.src hkey).andThen fun ks hks => ?_
  have hat : ∀ i : Fin ks.1.length, Key (w.src.get (i.cast ks.2)) (ks.1.get i) := fun i =>
    hks.get (i.cast ks.2).isLt i.isLt
  refine Total.andThen (order_total (fun i => w.src.get (i.cast ks.2))
    (fun i => get_mem _ _) hpre fun i j => ?_) fun order horder => ?_
  · exact (hord _ (get_mem _ _) _ (get_mem _ _) _ _ (hat i) (hat j)).mono
      fun c hc => by rw [hc]
  refine total_pure ⟨?_, ?_⟩
  · have hcast := horder.1.map (Fin.cast ks.2)
    rwa [map_cast_finRange] at hcast
  · exact pairwise_map.mpr horder.2

/-- **The sorts that call back.**  Whatever the callbacks answer and do, each writes back a
    permutation of the elements it was called on, with the list unchanged until then, or
    stops and leaves everything as the callbacks left it.  Callbacks that answer a total
    preorder on the elements, and leave the list alone, give a stable sort. -/
theorem sort_correct (span : Span) (w : World V S) :
    (WritesBack m w (m.listSortStructs span w) ∧
      (∀ args, WritesBack m w (m.listSortBy args span w)) ∧
      ∀ args, WritesBack m w (m.listSortByKey args span w)) ∧
    (∀ ord : V → V → Ordering, PreorderOn (fun a b => (ord a b).isLE) w.src →
      (∀ a ∈ w.src, ∀ b ∈ w.src,
        Act.Total (Unchanged w) (m.orderKey a b span) (· = ord a b)) →
      SortsBy (fun a b => (ord a b).isLE) w (m.listSortStructs span w)) ∧
    (∀ (cmp : V) (c : V → V → Int64), PreorderOn (fun a b => decide (c a b ≤ 0)) w.src →
      (∀ a ∈ w.src, ∀ b ∈ w.src, Act.Total (Unchanged w) (m.invoke cmp [a, b] span)
        fun v => intVal (m.view v) = some (c a b)) →
      SortsBy (fun a b => decide (c a b ≤ 0)) w (m.listSortBy [cmp] span w)) ∧
    ∀ (f : V) (Key : V → V → Prop) (ord : V → V → Ordering),
      PreorderOn (fun a b => (ord a b).isLE) w.src →
      (∀ a ∈ w.src, Act.Total (Unchanged w) (m.invoke f [a] span) (Key a)) →
      (∀ a ∈ w.src, ∀ b ∈ w.src, ∀ ka kb, Key a ka → Key b kb →
        Act.Total (Unchanged w) (m.orderKey ka kb span) (· = ord a b)) →
      SortsBy (fun a b => (ord a b).isLE) w (m.listSortByKey [f] span w) :=
  ⟨⟨listSortStructs_writesBack m span w, fun args => listSortBy_writesBack m args span w,
      fun args => listSortByKey_writesBack m args span w⟩,
    fun _ => listSortStructs_sortsBy m, fun _ _ => listSortBy_sortsBy m,
    fun _ _ _ => listSortByKey_sortsBy m⟩

end

end

/-- Ints as words, compared and keyed by themselves. -/
def intMachine (fl : FloatOps) : Machine Int64 Unit Unit where
  fl := fl
  view := makeInt
  typeName := fun _ _ => "int"
  invoke := fun _ args _ =>
    match args with
    | [a] => Act.pure a
    | [a, b] => Act.pure (if a ≤ b then -1 else 1)
    | _ => Act.fail .panic
  order := fun _ _ _ => Act.fail .panic

/-- `[3, 1, 2]`, three times. -/
theorem sort_correct_ints : ∀ fl : FloatOps,
    let w : World Int64 Unit := ⟨[3, 1, 2], ()⟩
    let ord : Int64 → Int64 → Ordering := fun a b => compare a.toInt b.toInt
    SortsBy (fun a b => (ord a b).isLE) w ((intMachine fl).listSortStructs 0 w) ∧
    SortsBy (fun a b => decide ((if a ≤ b then (-1 : Int64) else 1) ≤ 0)) w
      ((intMachine fl).listSortBy [0] 0 w) ∧
    SortsBy (fun a b => (ord a b).isLE) w ((intMachine fl).listSortByKey [0] 0 w) := by
  intro fl w ord
  have hord : ∀ a b, Total (Unchanged w) ((intMachine fl).orderKey a b 0) (· = ord a b) := by
    intro a b
    rw [(intMachine fl).orderKey_int (intVal_makeInt a) (intVal_makeInt b)]
    exact total_pure rfl
  refine ⟨(sort_correct (intMachine fl) 0 w).2.1 ord (by decide) ?_,
    (sort_correct (intMachine fl) 0 w).2.2.1 0 _ (by decide) ?_,
    (sort_correct (intMachine fl) 0 w).2.2.2 0 (fun a k => k = a) ord
      (by decide) ?_ ?_⟩
  · exact fun a _ b _ => hord a b
  · exact fun a _ b _ => total_pure (intVal_makeInt _)
  · exact fun a _ => total_pure rfl
  · rintro a _ b _ _ _ rfl rfl
    exact hord _ _

end ChezziLang.Vm.Sort
