/-
  `std.concurrency.pmap`: `pmap` and `pmap_limited`.

  The program is a step relation: the caller seeds the semaphore, spawns one task an element,
  joins and collects, while the tasks take their steps in any order.  A channel without a capacity
  is the list of what it holds, and nothing closes either channel, so that no `recv` sees one
  closed.  `calls` lists the elements `f` was called on, in the order of the calls.

  Proved:
  * `Inv.step`: tokens are conserved, and every cell sent is in `results` or collected.
  * `Inv.progress`, `rank_step`: no schedule gets stuck and none goes on for ever.
  * `pmap_in_submission_order`: every schedule ends with `f` of each element in order, after one
    call for each, and never with more than `limit` calls open.
-/
import ChezziLang.Lib.Runs
import Mathlib.Algebra.GroupWithZero.Nat
import Mathlib.Data.List.Sort

namespace ChezziLang.Stdlib.Concurrency

open Lib.Runs List Option

variable {T U : Type}

/-! ## The program -/

/-- `_PmapCell`. -/
structure PmapCell (U : Type) where
  idx : Nat
  val : U

/-- Where a task is; it carries its token from `recv` to `send`, if there is a semaphore. -/
inductive Place (U : Type) where
  | waiting
  | ready (token : Option Int)
  | inside (token : Option Int)
  | computed (token : Option Int) (v : U)
  | sent (token : Int)
  | done

/-- A spawned task with what it captured. -/
structure Task (T U : Type) where
  idx : Nat
  x : T
  place : Place U

/-- Where the caller is. -/
inductive Main (U : Type) where
  | seeding (k : Nat)
  | spawning (i : Nat)
  | collecting (cells : List (PmapCell U))
  | returned (out : List U)
  | panicked (message : String)

structure State (T U : Type) where
  main : Main U
  tasks : List (Task T U)
  results : List (PmapCell U)
  sem : List Int
  calls : List Nat

/-- The sort by `idx` and the projection of `_collect_sorted`. -/
def collectSorted (cells : List (PmapCell U)) : List U :=
  (cells.mergeSort fun a b => decide (a.idx ≤ b.idx)).map PmapCell.val

/-- Where a spawned task starts. -/
def startPlace : Option Int → Place U
  | some _ => .waiting
  | none => .ready none

/-- Where a task is after it sent its cell. -/
def afterSend : Option Int → Place U
  | some token => .sent token
  | none => .done

/-- One step of the caller or of a task; `limit` is there for `pmap_limited` only. -/
inductive Step (xs : List T) (f : T → U) (limit : Option Int) : State T U → State T U → Prop
  | seed {s} {k : Nat} {l} (hlimit : limit = some l) (hmain : s.main = .seeding k)
      (hk : (k : Int) < l) :
      Step xs f limit s { s with main := .seeding (k + 1), sem := s.sem ++ [0] }
  | seeded {s} {k : Nat} {l} (hlimit : limit = some l) (hmain : s.main = .seeding k)
      (hk : ¬ (k : Int) < l) : Step xs f limit s { s with main := .spawning 0 }
  | spawn {s i x} (hmain : s.main = .spawning i) (hx : xs[i]? = some x) :
      Step xs f limit s
        { s with main := .spawning (i + 1), tasks := s.tasks ++ [⟨i, x, startPlace limit⟩] }
  | join {s i} (hmain : s.main = .spawning i) (hi : ¬ i < xs.length)
      (hdone : ∀ t ∈ s.tasks, t.place = .done) : Step xs f limit s { s with main := .collecting [] }
  | collect {s cells rest c} (hmain : s.main = .collecting cells)
      (hcells : cells.length < xs.length) (hresults : s.results = c :: rest) :
      Step xs f limit s { s with main := .collecting (cells ++ [c]), results := rest }
  | finish {s cells} (hmain : s.main = .collecting cells) (hcells : ¬ cells.length < xs.length) :
      Step xs f limit s { s with main := .returned (collectSorted cells) }
  | acquire {s l1 l2 i x token rest} (htasks : s.tasks = l1 ++ ⟨i, x, .waiting⟩ :: l2)
      (hsem : s.sem = token :: rest) :
      Step xs f limit s { s with tasks := l1 ++ ⟨i, x, .ready (some token)⟩ :: l2, sem := rest }
  | call {s l1 l2 i x token} (htasks : s.tasks = l1 ++ ⟨i, x, .ready token⟩ :: l2) :
      Step xs f limit s
        { s with tasks := l1 ++ ⟨i, x, .inside token⟩ :: l2, calls := s.calls ++ [i] }
  | ret {s l1 l2 i x token} (htasks : s.tasks = l1 ++ ⟨i, x, .inside token⟩ :: l2) :
      Step xs f limit s { s with tasks := l1 ++ ⟨i, x, .computed token (f x)⟩ :: l2 }
  | send {s l1 l2 i x token v} (htasks : s.tasks = l1 ++ ⟨i, x, .computed token v⟩ :: l2) :
      Step xs f limit s
        { s with tasks := l1 ++ ⟨i, x, afterSend token⟩ :: l2, results := s.results ++ [⟨i, v⟩] }
  | release {s l1 l2 i x token} (htasks : s.tasks = l1 ++ ⟨i, x, .sent token⟩ :: l2) :
      Step xs f limit s
        { s with tasks := l1 ++ ⟨i, x, .done⟩ :: l2, sem := s.sem ++ [token] }

/-- The first state of `pmap`. -/
def pmap : State T U := ⟨.spawning 0, [], [], [], []⟩

/-- The first state of `pmap_limited`. -/
def pmapLimited (limit : Int) : State T U :=
  if limit ≤ 0 then
    ⟨.panicked ("pmap_limited: limit must be > 0, got " ++ toString limit), [], [], [], []⟩
  else ⟨.seeding 0, [], [], [], []⟩

/-! ## What a task holds -/

/-- The tokens a task holds. -/
def Place.held : Place U → Nat
  | .ready (some _) | .inside (some _) | .computed (some _) _ | .sent _ => 1
  | _ => 0

/-- The task is in its call of `f`. -/
def Place.isInside : Place U → Bool
  | .inside _ => true
  | _ => false

/-- The cell a task has sent. -/
def Task.cells (f : T → U) (t : Task T U) : List (PmapCell U) :=
  match t.place with
  | .sent _ | .done => [⟨t.idx, f t.x⟩]
  | _ => []

/-- The call a task has made. -/
def Task.called (t : Task T U) : List Nat :=
  match t.place with
  | .waiting | .ready _ => []
  | _ => [t.idx]

/-- A task has a token exactly where it should, and has computed `f` of its element. -/
def Task.Ok (f : T → U) (limit : Option Int) (t : Task T U) : Prop :=
  match t.place with
  | .waiting | .sent _ => limit.isSome
  | .ready token | .inside token => token.isSome = limit.isSome
  | .computed token v => token.isSome = limit.isSome ∧ v = f t.x
  | .done => True

def held (tasks : List (Task T U)) : Nat := (tasks.map fun t => t.place.held).sum

theorem held_middle (l1 l2 : List (Task T U)) (t) :
    held (l1 ++ t :: l2) = held l1 + t.place.held + held l2 := by
  simp [held, Nat.add_assoc]

theorem held_eq_zero {tasks : List (Task T U)} (h : ∀ t ∈ tasks, t.place.held = 0) :
    held tasks = 0 := by
  induction tasks with
  | nil => rfl
  | cons t tasks ih =>
    obtain ⟨ht, htasks⟩ := forall_mem_cons.mp h
    rw [held, map_cons, sum_cons, ht]
    exact (Nat.zero_add _).trans (ih htasks)

/-- How many calls of `f` are open. -/
def State.inside (s : State T U) : Nat := s.tasks.countP fun t => t.place.isInside

/-! ## The invariant -/

/-- The tokens put into the semaphore so far. -/
def seeded (limit : Option Int) : Main U → Nat
  | .seeding k => k
  | _ => (limit.getD 0).toNat

/-- The cells the caller has collected, until it has sorted them. -/
def collected : Main U → Option (List (PmapCell U))
  | .seeding _ | .spawning _ => some []
  | .collecting cells => some cells
  | .returned _ | .panicked _ => none

section

variable (xs : List T) (f : T → U) (limit : Option Int) (s : State T U)

def MainOk : Prop :=
  match s.main with
  | .seeding k => s.tasks = [] ∧ ∃ l, limit = some l ∧ (k : Int) ≤ l
  | .spawning i => s.tasks.length = i
  | .collecting _ => s.tasks.length = xs.length ∧ ∀ t ∈ s.tasks, t.place = .done
  | .returned out =>
    (s.tasks.length = xs.length ∧ ∀ t ∈ s.tasks, t.place = .done) ∧ out = xs.map f
  | .panicked _ => False

structure Inv : Prop where
  ids : s.tasks.map (fun t => (t.x, t.idx)) = xs.zipIdx.take s.tasks.length
  tasks : ∀ t ∈ s.tasks, t.Ok f limit
  tokens : limit.isSome → s.sem.length + held s.tasks = seeded limit s.main
  cells : ∀ cells, collected s.main = some cells →
    (cells ++ s.results).Perm (s.tasks.flatMap (Task.cells f))
  calls : s.calls.Perm (s.tasks.flatMap Task.called)
  main : MainOk xs f limit s

end

section

variable {xs : List T} {f : T → U} {limit : Option Int} {s s' : State T U} {l : Int} {t : Task T U}

theorem inv_pmap : Inv xs f none (pmap : State T U) where
  ids := rfl
  tasks := nofun
  tokens := nofun
  cells _ h := by
    cases h
    exact Perm.refl _
  calls := Perm.refl _
  main := rfl

theorem inv_pmapLimited (hl : 0 < l) : Inv xs f (some l) (pmapLimited l) := by
  have hstart : (pmapLimited l : State T U) = ⟨.seeding 0, [], [], [], []⟩ :=
    if_neg (Int.not_le.mpr hl)
  rw [hstart]
  exact {
    ids := rfl
    tasks := nofun
    tokens := fun _ => rfl
    cells := fun _ h => by
      cases h
      exact Perm.refl _
    calls := Perm.refl _
    main := ⟨rfl, l, rfl, Int.le_of_lt hl⟩ }

theorem Inv.length_le (h : Inv xs f limit s) : s.tasks.length ≤ xs.length := by
  have hlen := congrArg length h.ids
  rw [length_map, length_take, length_zipIdx] at hlen
  omega

/-- The invariant while the caller is at `main`. -/
theorem Inv.at_main (h : Inv xs f limit s) {main} (hm : s.main = main) :
    (limit.isSome → s.sem.length + held s.tasks = seeded limit main) ∧
      (∀ cells, collected main = some cells →
        (cells ++ s.results).Perm (s.tasks.flatMap (Task.cells f))) ∧
      MainOk xs f limit { s with main } :=
  hm ▸ ⟨h.tokens, h.cells, h.main⟩

/-- Once all tasks are done, each was called and has sent its cell. -/
theorem Inv.all_done (h : Inv xs f limit s) (hlen : s.tasks.length = xs.length)
    (hdone : ∀ t ∈ s.tasks, t.place = .done) :
    s.tasks.flatMap (Task.cells f) = xs.zipIdx.map (fun p => ⟨p.2, f p.1⟩) ∧
      s.tasks.flatMap Task.called = range xs.length := by
  have hids := h.ids
  rw [hlen, take_of_length_le (by rw [length_zipIdx])] at hids
  have hcells : s.tasks.flatMap (Task.cells f) = s.tasks.map fun t => ⟨t.idx, f t.x⟩ := by
    rw [map_eq_flatMap]
    apply flatMap_congr
    intro t ht
    rw [Task.cells, hdone t ht]
  have hcalls : s.tasks.flatMap Task.called = s.tasks.map Task.idx := by
    rw [map_eq_flatMap]
    apply flatMap_congr
    intro t ht
    rw [Task.called, hdone t ht]
  have hidx : (xs.zipIdx.map Prod.snd) = range xs.length := by
    rw [zipIdx_map_snd, range_eq_range']
  constructor
  · rw [hcells, ← hids, List.map_map]
    rfl
  · rw [hcalls, ← hidx, ← hids, List.map_map]
    rfl

/-! ## Steps of a task -/

/-- A task that is not done takes a step: it keeps its element, and what it sends, calls, takes and
    puts back shows in the state. -/
theorem Inv.replace (h : Inv xs f limit s) {l1 l2} (htasks : s.tasks = l1 ++ t :: l2)
    (hplace : t.place ≠ .done) (t' : Task T U) (sem sent called) (hx : t'.x = t.x)
    (hidx : t'.idx = t.idx) (hok : t'.Ok f limit)
    (hsem : sem.length + t'.place.held = s.sem.length + t.place.held)
    (hsent : t'.cells f = t.cells f ++ sent) (hcalled : t'.called = t.called ++ called) :
    Inv xs f limit { s with
      tasks := l1 ++ t' :: l2, sem := sem, results := s.results ++ sent,
      calls := s.calls ++ called } := by
  have hmem : t ∈ s.tasks := by
    rw [htasks]
    exact mem_append_right _ mem_cons_self
  have hrest : ∀ u ∈ l1 ++ t' :: l2, u ∈ s.tasks ∨ u = t' := by
    intro u hu
    rw [htasks]
    simp only [mem_append, mem_cons] at hu ⊢
    tauto
  have hlength : (l1 ++ t' :: l2).length = s.tasks.length := by
    rw [htasks, length_append, length_append, length_cons, length_cons]
  -- what one task adds can be moved to the end
  have hmove : ∀ {α : Type} (a b c : List α), (a ++ b ++ c).Perm (a ++ c ++ b) := by
    intro α a b c
    rw [append_assoc, append_assoc]
    exact Perm.append_left a perm_append_comm
  have hnot : ¬ ∀ u ∈ s.tasks, u.place = .done := fun hdone => hplace (hdone t hmem)
  constructor
  · have hids := h.ids
    rw [htasks] at hids
    rw [hlength, htasks, ← hids]
    simp [hx, hidx]
  · intro u hu
    rcases hrest u hu with hu | rfl
    · exact h.tasks u hu
    · exact hok
  · intro hl
    have htokens := h.tokens hl
    rw [htasks, held_middle] at htokens
    dsimp only
    rw [held_middle]
    omega
  · intro cells hcells
    have hperm := h.cells cells hcells
    rw [htasks] at hperm
    simp only [flatMap_append, flatMap_cons, hsent, ← append_assoc] at hperm ⊢
    exact (hperm.append_right sent).trans (hmove _ _ _)
  · have hperm := h.calls
    rw [htasks] at hperm
    simp only [flatMap_append, flatMap_cons, hcalled, ← append_assoc] at hperm ⊢
    exact (hperm.append_right called).trans (hmove _ _ _)
  · have hmain := h.main
    unfold MainOk at hmain ⊢
    cases hm : s.main with rw [hm] at hmain
    | seeding k =>
      rw [hmain.1] at hmem
      cases hmem
    | spawning i => exact hlength.trans hmain
    | collecting cells => exact absurd hmain.2 hnot
    | returned out => exact absurd hmain.1.2 hnot
    | panicked message => exact hmain.elim

/-! ## Steps of the caller -/

/-- A task that has just been spawned. -/
theorem Inv.spawn (h : Inv xs f limit s) {i x} (hmain : s.main = .spawning i)
    (hx : xs[i]? = some x) : Inv xs f limit { s with
      main := .spawning (i + 1), tasks := s.tasks ++ [⟨i, x, startPlace limit⟩] } := by
  have hlen : s.tasks.length = i := (h.at_main hmain).2.2
  have hcells : ∀ {l : Option Int}, Task.cells f (⟨i, x, startPlace l⟩ : Task T U) = [] ∧
      Task.called (⟨i, x, startPlace l⟩ : Task T U) = [] ∧
      (startPlace l : Place U).held = 0 ∧ Task.Ok f l (⟨i, x, startPlace l⟩ : Task T U) := by
    intro l
    cases l with
    | none | some l => exact ⟨rfl, rfl, rfl, rfl⟩
  obtain ⟨hnone, huncalled, hheld, hok⟩ := @hcells limit
  constructor
  · have hnext : xs.zipIdx[i]? = some (x, i) := by
      rw [getElem?_zipIdx, hx]
      simp
    rw [map_append, h.ids, length_append, length_singleton, hlen, take_add_one, hnext]
    rfl
  · exact forall_mem_append.mpr ⟨h.tasks, forall_mem_singleton.mpr hok⟩
  · intro hl
    have htokens := h.tokens hl
    rw [hmain] at htokens
    dsimp only
    rw [held_middle, hheld]
    exact htokens
  · intro cells hcells
    have hperm := h.cells cells (by rw [hmain]; exact hcells)
    rw [flatMap_append, flatMap_singleton, hnone, append_nil]
    exact hperm
  · have hperm := h.calls
    dsimp only
    rw [flatMap_append, flatMap_singleton, huncalled, append_nil]
    exact hperm
  · change (s.tasks ++ [_]).length = i + 1
    rw [length_append, hlen]
    rfl

/-- The caller moves on without touching the tasks. -/
theorem Inv.advance (h : Inv xs f limit s) {main results sem}
    (htokens : limit.isSome → sem.length + held s.tasks = seeded limit main)
    (hcells : ∀ cells, collected main = some cells →
      (cells ++ results).Perm (s.tasks.flatMap (Task.cells f)))
    (hmain : MainOk xs f limit { s with main := main, results := results, sem := sem }) :
    Inv xs f limit { s with main := main, results := results, sem := sem } :=
  ⟨h.ids, h.tasks, htokens, hcells, h.calls, hmain⟩

/-- The cells of a joined run, sorted. -/
theorem collectSorted_of_perm {cells} (h : cells.Perm (xs.zipIdx.map fun p => ⟨p.2, f p.1⟩)) :
    collectSorted cells = xs.map f := by
  have hsorted : (xs.zipIdx.map fun p => (⟨p.2, f p.1⟩ : PmapCell U)).Pairwise
      fun a b => a.idx < b.idx := by
    rw [pairwise_map]
    have hrange := @pairwise_lt_range' 0 xs.length 1 (by decide)
    rw [← zipIdx_map_snd 0 xs, pairwise_map] at hrange
    exact hrange
  have heq : cells.mergeSort (fun a b => decide (a.idx ≤ b.idx)) =
      xs.zipIdx.map fun p => ⟨p.2, f p.1⟩ := by
    refine @List.Perm.eq_of_pairwise _ (fun a b => a.idx ≤ b.idx) _ _ ?_ ?_ ?_ ?_
    · -- cells of one index are the same cell
      intro a b ha hb hab hba
      have ha := h.subset ((mergeSort_perm cells _).subset ha)
      obtain ⟨⟨x, i⟩, hx, rfl⟩ := mem_map.mp ha
      obtain ⟨⟨y, j⟩, hy, rfl⟩ := mem_map.mp hb
      have hij : i = j := hab.antisymm hba
      subst hij
      rw [mem_zipIdx_iff_getElem?] at hx hy
      have hxy : x = y := some.inj (hx.symm.trans hy)
      rw [hxy]
    · have hpairs := @pairwise_mergeSort (PmapCell U) (fun a b => decide (a.idx ≤ b.idx))
        (by simp only [decide_eq_true_eq]; omega) (by simp; omega) cells
      simpa using hpairs
    · exact hsorted.imp fun h => h.le
    · exact (mergeSort_perm cells _).trans h
  have hvals : xs.zipIdx.map (PmapCell.val ∘ fun p => ⟨p.2, f p.1⟩) =
      (xs.zipIdx.map Prod.fst).map f := by
    rw [List.map_map]
    rfl
  rw [collectSorted, heq, List.map_map, hvals, List.zipIdx_map_fst]

/-- **One step keeps the invariant.** -/
theorem Inv.step (h : Inv xs f limit s) (hstep : Step xs f limit s s') : Inv xs f limit s' := by
  cases hstep with
  | @seed k l hlimit hm hk =>
    obtain ⟨htokens, hcells, hmain⟩ := h.at_main hm
    refine h.advance ?_ hcells ⟨hmain.1, l, hlimit, by omega⟩
    intro hl
    have hsum : s.sem.length + held s.tasks = k := htokens hl
    rw [length_append]
    change s.sem.length + 1 + held s.tasks = k + 1
    omega
  | @seeded k l hlimit hm hk =>
    obtain ⟨htokens, hcells, hmain⟩ := h.at_main hm
    refine h.advance ?_ hcells ?_
    · intro hl
      have hsum : s.sem.length + held s.tasks = k := htokens hl
      obtain ⟨_, l', hl', hle⟩ := hmain
      rw [hlimit] at hl'
      cases hl'
      change s.sem.length + held s.tasks = (limit.getD 0).toNat
      rw [hlimit, getD_some]
      omega
    · rw [hmain.1]
      rfl
  | spawn hm hx => exact h.spawn hm hx
  | @join i hm hi hdone =>
    obtain ⟨htokens, hcells, hmain⟩ := h.at_main hm
    refine h.advance htokens hcells ⟨?_, hdone⟩
    have := h.length_le
    have hlen : s.tasks.length = i := hmain
    dsimp only
    omega
  | @collect cells rest c hm hlt hresults =>
    obtain ⟨htokens, hcells, hmain⟩ := h.at_main hm
    refine h.advance htokens ?_ hmain
    intro cells' hcells'
    cases hcells'
    have hperm := hcells cells rfl
    rw [hresults] at hperm
    rw [append_assoc]
    exact hperm
  | @finish cells hm hlt =>
    obtain ⟨htokens, hcells, hmain⟩ := h.at_main hm
    have hperm := hcells cells rfl
    rw [(h.all_done hmain.1 hmain.2).1] at hperm
    -- all cells were collected, so none is left in the channel
    have hlen := hperm.length_eq
    rw [length_append, length_map, length_zipIdx] at hlen
    have hnil : s.results = [] := eq_nil_of_length_eq_zero (by omega)
    rw [hnil, append_nil] at hperm
    exact h.advance htokens nofun ⟨hmain, collectSorted_of_perm hperm⟩
  | @acquire l1 l2 i x token rest htasks hsem =>
    have hsome : limit.isSome := h.tasks ⟨i, x, .waiting⟩ (by rw [htasks]; simp)
    have := h.replace htasks nofun ⟨i, x, .ready (some token)⟩ rest [] [] rfl rfl hsome.symm
      (by rw [hsem]; rfl) rfl rfl
    simpa using this
  | @call l1 l2 i x token htasks =>
    have hok : token.isSome = limit.isSome := h.tasks ⟨i, x, .ready token⟩ (by rw [htasks]; simp)
    have := h.replace htasks nofun ⟨i, x, .inside token⟩ s.sem [] [i] rfl rfl hok
      (by cases token <;> rfl) rfl rfl
    simpa using this
  | @ret l1 l2 i x token htasks =>
    have hok : token.isSome = limit.isSome := h.tasks ⟨i, x, .inside token⟩ (by rw [htasks]; simp)
    have := h.replace htasks nofun ⟨i, x, .computed token (f x)⟩ s.sem [] [] rfl rfl ⟨hok, rfl⟩
      (by cases token <;> rfl) rfl rfl
    simpa using this
  | @send l1 l2 i x token v htasks =>
    obtain ⟨hok, hv⟩ : token.isSome = limit.isSome ∧ v = f x :=
      h.tasks ⟨i, x, .computed token v⟩ (by rw [htasks]; simp)
    subst hv
    have hafter : Task.Ok f limit (⟨i, x, afterSend token⟩ : Task T U) := by
      cases token with
      | none => exact trivial
      | some token => exact hok.symm
    have := h.replace htasks nofun ⟨i, x, afterSend token⟩ s.sem [⟨i, f x⟩] [] rfl rfl hafter
      (by cases token <;> rfl) (by cases token <;> rfl) (by cases token <;> rfl)
    simpa using this
  | @release l1 l2 i x token htasks =>
    have := h.replace htasks nofun ⟨i, x, .done⟩ (s.sem ++ [token]) [] [] rfl rfl trivial
      (by rw [length_append]; rfl) rfl rfl
    simpa using this

/-! ## Every schedule returns -/

/-- The steps a task has left, at most. -/
def Place.rank : Place U → Nat
  | .waiting => 5
  | .ready _ => 4
  | .inside _ => 3
  | .computed _ _ => 2
  | .sent _ => 1
  | .done => 0

/-- The steps the caller has left, with those of the tasks it has not spawned. -/
def Main.rank (n : Nat) (limit : Option Int) : Main U → Nat
  | .seeding k => (limit.getD 0).toNat - k + 1 + (6 * n + (n + 2))
  | .spawning i => 6 * (n - i) + (n + 2)
  | .collecting cells => n - cells.length + 1
  | .returned _ | .panicked _ => 0

def rank (xs : List T) (limit : Option Int) (s : State T U) : Nat :=
  s.main.rank xs.length limit + (s.tasks.map fun t => t.place.rank).sum

theorem Place.rank_start : (startPlace limit : Place U).rank ≤ 5 := by
  cases limit <;> simp [startPlace, Place.rank]

theorem rank_task {l1 l2} (htasks : s.tasks = l1 ++ t :: l2) {t'}
    (hlt : t'.place.rank < t.place.rank) (sem results calls) :
    rank xs limit { s with tasks := l1 ++ t' :: l2, sem, results, calls } < rank xs limit s := by
  simp only [rank, htasks, map_append, map_cons, sum_append, sum_cons]
  omega

/-- **Each step uses up one of a bounded number.** -/
theorem rank_step (hstep : Step xs f limit s s') : rank xs limit s' < rank xs limit s := by
  cases hstep with
  | @seed k l hlimit hm hk =>
    simp only [rank, hm, Main.rank, hlimit, getD_some]
    omega
  | @spawn i x hm hx =>
    have hi : i < xs.length := (List.getElem?_eq_some_iff.mp hx).1
    have hstart := @Place.rank_start U limit
    simp only [rank, hm, Main.rank, map_append, sum_append, map_cons, map_nil, sum_cons, sum_nil]
    omega
  | join hm hi hdone =>
    simp only [rank, hm, Main.rank, length_nil]
    omega
  | collect hm hlt hresults =>
    simp only [rank, hm, Main.rank, length_append, length_singleton]
    omega
  | seeded _ hm hk | finish hm hk =>
    simp only [rank, hm, Main.rank]
    omega
  | @send l1 l2 i x token v htasks =>
    refine rank_task htasks ?_ _ _ _
    cases token <;> simp only [afterSend, Place.rank] <;> omega
  | acquire htasks | call htasks | ret htasks | release htasks =>
    exact rank_task htasks (by simp only [Place.rank]; omega) _ _ _

/-- A task that is neither done nor waiting for a token can go on. -/
theorem exists_step_of_place (ht : t ∈ s.tasks) (hdone : t.place ≠ .done)
    (hwaiting : t.place ≠ .waiting) : ∃ s', Step xs f limit s s' := by
  obtain ⟨l1, l2, htasks⟩ := append_of_mem ht
  obtain ⟨i, x, place⟩ := t
  cases place with
  | waiting => exact absurd rfl hwaiting
  | ready token => exact ⟨_, .call htasks⟩
  | inside token => exact ⟨_, .ret htasks⟩
  | computed token v => exact ⟨_, .send htasks⟩
  | sent token => exact ⟨_, .release htasks⟩
  | done => exact absurd rfl hdone

/-- **No schedule gets stuck**: if every task waits for a token, all tokens are there. -/
theorem Inv.progress (h : Inv xs f limit s) (hlimit : ∀ l, limit = some l → 0 < l)
    (hnot : ¬ ∃ out, s.main = .returned out) : ∃ s', Step xs f limit s s' := by
  have hmain := h.main
  unfold MainOk at hmain
  cases hm : s.main with rw [hm] at hmain
  | seeding k =>
    obtain ⟨_, l, hl, _⟩ := hmain
    by_cases hk : (k : Int) < l
    · exact ⟨_, .seed hl hm hk⟩
    · exact ⟨_, .seeded hl hm hk⟩
  | spawning i =>
    by_cases hi : i < xs.length
    · exact ⟨_, .spawn hm (getElem?_eq_getElem hi)⟩
    by_cases hdone : ∀ t ∈ s.tasks, t.place = .done
    · exact ⟨_, .join hm hi hdone⟩
    by_cases hbusy : ∃ t ∈ s.tasks, t.place ≠ .done ∧ t.place ≠ .waiting
    · obtain ⟨t, ht, hd, hw⟩ := hbusy
      exact exists_step_of_place ht hd hw
    · have hidle : ∀ t ∈ s.tasks, t.place = .done ∨ t.place = .waiting := by
        intro t ht
        by_contra hne
        exact hbusy ⟨t, ht, fun hd => hne (.inl hd), fun hw => hne (.inr hw)⟩
      simp only [not_forall] at hdone
      obtain ⟨⟨j, x, place⟩, ht, hd⟩ := hdone
      obtain rfl : place = .waiting := (hidle _ ht).resolve_left hd
      have hsome : limit.isSome := h.tasks _ ht
      obtain ⟨l, hl⟩ := isSome_iff_exists.mp hsome
      have hheld : held s.tasks = 0 := by
        apply held_eq_zero
        intro t ht
        rcases hidle t ht with hp | hp <;> rw [hp] <;> rfl
      have htokens := h.tokens hsome
      rw [hheld, hm, hl] at htokens
      have hpos := hlimit l hl
      have hlen : s.sem.length = l.toNat := htokens
      obtain ⟨token, rest, hsem⟩ := exists_cons_of_length_pos
        (show 0 < s.sem.length by omega)
      obtain ⟨l1, l2, htasks⟩ := append_of_mem ht
      exact ⟨_, .acquire htasks hsem⟩
  | collecting cells =>
    by_cases hlt : cells.length < xs.length
    · have hperm := (h.cells cells (by rw [hm]; rfl)).length_eq
      rw [(h.all_done hmain.1 hmain.2).1, length_append, length_map, length_zipIdx] at hperm
      obtain ⟨c, rest, hresults⟩ := exists_cons_of_length_pos
        (show 0 < s.results.length by omega)
      exact ⟨_, .collect hm hlt hresults⟩
    · exact ⟨_, .finish hm hlt⟩
  | returned out => exact absurd ⟨out, hm⟩ hnot
  | panicked message => exact hmain.elim

/-- Under a limit every open call holds a token. -/
theorem countP_inside_le {tasks} (h : ∀ t ∈ tasks, t.Ok f (some l)) :
    (tasks.countP fun t => t.place.isInside) ≤ held tasks := by
  induction tasks with
  | nil => exact Nat.le_refl 0
  | cons t tasks ih =>
    obtain ⟨ht, htasks⟩ := forall_mem_cons.mp h
    have hrest := ih htasks
    have hplace : t.place.isInside = true → t.place.held = 1 := by
      intro hin
      unfold Task.Ok at ht
      cases hp : t.place with
      | inside token =>
        rw [hp] at ht
        obtain ⟨token, rfl⟩ := isSome_iff_exists.mp ht
        rfl
      | _ =>
        rw [hp] at hin
        cases hin
    have hcons : held (t :: tasks) = t.place.held + held tasks := by
      rw [held, map_cons, sum_cons]
      rfl
    rw [countP_cons, hcons]
    split
    · next hin =>
      have := hplace hin
      omega
    · omega

/-- **The semaphore bounds the calls.** -/
theorem Inv.inside_le (h : Inv xs f (some l) s) (hl : 0 < l) : (s.inside : Int) ≤ l := by
  have hheld : s.inside ≤ held s.tasks := countP_inside_le h.tasks
  have htokens := h.tokens rfl
  have hseeded : (seeded (some l) s.main : Int) ≤ l := by
    have hmain := h.main
    unfold MainOk at hmain
    cases hm : s.main with
    | seeding k =>
      rw [hm] at hmain
      obtain ⟨_, l', hl', hle⟩ := hmain
      cases hl'
      exact hle
    | _ => exact Int.le_of_eq (Int.toNat_of_nonneg (Int.le_of_lt hl))
  omega

end

/-- Every schedule from `s0` comes to a state where the caller has returned, and then it has
    returned `f` of each element in order, after one call for each. -/
structure Maps (xs : List T) (f : T → U) (limit : Option Int) (s0 : State T U) : Prop where
  settles : Settles (Step xs f limit) s0 fun s => ∃ out, s.main = .returned out
  result : ∀ s out, Reaches (Step xs f limit) s0 s → s.main = .returned out → out = xs.map f
  once : ∀ s out, Reaches (Step xs f limit) s0 s → s.main = .returned out →
    s.calls.Perm (range xs.length)

theorem Inv.maps {xs} {f : T → U} {limit} {s0 : State T U} (h : Inv xs f limit s0)
    (hlimit : ∀ l, limit = some l → 0 < l) : Maps xs f limit s0 := by
  have hreturned : ∀ s out, Reaches (Step xs f limit) s0 s → s.main = .returned out →
      out = xs.map f ∧ s.calls.Perm (range xs.length) := by
    intro s out hs hm
    have hinv := hs.keeps h fun _ _ => Inv.step
    have hmain := hinv.main
    rw [MainOk, hm] at hmain
    have hcalls := hinv.calls
    rw [(hinv.all_done hmain.1.1 hmain.1.2).2] at hcalls
    exact ⟨hmain.2, hcalls⟩
  exact {
    settles := Settles.of_rank (rank xs limit) h (fun _ _ => Inv.step) (fun _ _ _ => rank_step)
      fun _ hs => hs.progress hlimit
    result := fun s out hs hm => (hreturned s out hs hm).1
    once := fun s out hs hm => (hreturned s out hs hm).2 }

/-- **`pmap` and `pmap_limited`.** -/
theorem pmap_in_submission_order (xs : List T) (f : T → U) :
    Maps xs f none pmap ∧
    ∀ limit : Int, 0 < limit → Maps xs f (some limit) (pmapLimited limit) ∧
      ∀ s, Reaches (Step xs f (some limit)) (pmapLimited limit) s → (s.inside : Int) ≤ limit := by
  refine ⟨inv_pmap.maps nofun, ?_⟩
  intro limit hlimit
  refine ⟨(inv_pmapLimited hlimit).maps ?_, ?_⟩
  · intro l hl
    cases hl
    exact hlimit
  · intro s hs
    have hinv := hs.keeps (inv_pmapLimited hlimit) fun _ _ => Inv.step
    exact hinv.inside_le hlimit

/-- Three elements, two at a time. -/
theorem pmap_two_at_a_time :
    Maps [1, 2, 3] (fun n : Nat => n * n) (some 2) (pmapLimited 2) ∧
      ∀ s, Reaches (Step [1, 2, 3] (fun n : Nat => n * n) (some 2)) (pmapLimited 2) s →
        (s.inside : Int) ≤ 2 :=
  (pmap_in_submission_order [1, 2, 3] fun n : Nat => n * n).2 2 (by decide)

end ChezziLang.Stdlib.Concurrency
