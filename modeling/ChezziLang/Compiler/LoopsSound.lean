/-
  `for` over a literal range of ints: the counting path does what the general path would do.

  Proved:
  * `run_iterates`: the loop as it is meant gives iteration `k` the value `start + k`, and a cell
    of its own if the variable is captured.
  * `counting_refines_general`: both paths end alike and as the loop is meant, and both come to
    every state of the body that the loop comes to.
-/
import ChezziLang.Compiler.LoopsCounting
import ChezziLang.Compiler.LoopsGeneral

namespace ChezziLang.Compiler

open Lib

variable {B W X : Type} {p : Program B W X} {h : Header B}

/-! ## Iterations -/

theorem open_next {k n stop s d}
    (hopen : (h.open' k n stop s : Move (LoopState W) (Outcome W X)) = .next d) :
    I64.Fits n ∧ d = .body k 0 (Int64.ofInt n) stop (h.bind (Int64.ofInt n) s).1
      (h.bind (Int64.ofInt n) s).2 := by
  rw [Header.open'] at hopen
  split at hopen
  · split at hopen
    · next hfits =>
      cases hopen
      exact ⟨hfits, rfl⟩
    · cases hopen
  · cases hopen

/-- What one step of a loop can do: open the first iteration, run an instruction of the body, or
    open the next iteration. -/
inductive Header.Next (h : Header B) (p : Program B W X) : LoopState W → LoopState W → Prop
  | enter {s s1 start} (hev : p.eval h.start s = (s1, .ok start)) (s2 stop) :
      Next h p (.enter s) (.body 0 0 start stop (h.bind start s2).1 (h.bind start s2).2)
  | item (k j j' cur stop view s u) :
      Next h p (.body k j cur stop view s) (.body k j' cur stop view (p.act u view s).1)
  | opens (k j) {cur cur' : Int64} (hcur : cur'.toInt = cur.toInt + 1) (stop view s) :
      Next h p (.body k j cur stop view s)
        (.body (k + 1) 0 cur' stop (h.bind cur' s).1 (h.bind cur' s).2)

theorem run_next {d d'} (hrun : h.run p d = .next d') : h.Next p d d' := by
  cases d with
  | enter s =>
    rw [Header.run] at hrun
    rcases hev : p.eval h.start s with ⟨s1, _ | start⟩
    · rw [hev] at hrun
      cases hrun
    rw [hev] at hrun
    cases hs : h.stop with
    | none =>
      rw [hs] at hrun
      obtain ⟨-, rfl⟩ := open_next hrun
      rw [Int64.ofInt_toInt]
      exact .enter hev s1 none
    | some stop =>
      rw [hs] at hrun
      dsimp only at hrun
      rcases hev' : p.eval stop s1 with ⟨s2, _ | e⟩
      · rw [hev'] at hrun
        cases hrun
      rw [hev'] at hrun
      obtain ⟨-, rfl⟩ := open_next hrun
      rw [Int64.ofInt_toInt]
      exact .enter hev s2 (some e)
  | body k j cur stop view s =>
    -- past the last item and at a `continue` the next iteration opens
    have hopens (hopen : (h.open' (k + 1) (cur.toInt + 1) stop s :
        Move (LoopState W) (Outcome W X)) = .next d') :
        h.Next p (.body k j cur stop view s) d' := by
      obtain ⟨hfits, rfl⟩ := open_next hopen
      exact .opens k j (I64.toInt_ofInt_of_fits hfits) stop view s
    rw [Header.run] at hrun
    rcases hitem : p.items[j]? with _ | u | _ | _
    · rw [hitem] at hrun
      exact hopens hrun
    · rw [hitem] at hrun
      dsimp only at hrun
      have hnext := fun j' => Header.Next.item (h := h) (p := p) k j j' cur stop view s u
      rcases hact : p.act u view s with ⟨s', _ | j' | x⟩
      · rw [hact] at hrun hnext
        cases hrun
        exact hnext (j + 1)
      · rw [hact] at hrun hnext
        cases hrun
        exact hnext j'
      · rw [hact] at hrun
        cases hrun
    · rw [hitem] at hrun
      cases hrun
    · rw [hitem] at hrun
      exact hopens hrun

section

variable (h : Header B) (p : Program B W X) (s0 : Shared W)

/-- What every run of a loop from `s0` has: iteration `k` has the value `start + k`; the loop
    itself changes nothing but the variable, and the cells by the new one; and a captured variable
    is in another cell in every iteration. -/
structure Header.Iterates : Prop where
  value : ∀ k j cur stop view s, Goes (h.run p) (.enter s0) (.body k j cur stop view s) →
    ∃ s1 start, p.eval h.start s0 = (s1, .ok start) ∧ cur.toInt = start.toInt + k
  opens : ∀ k j cur stop view s j' cur' stop' view' s',
    h.run p (.body k j cur stop view s) = .next (.body (k + 1) j' cur' stop' view' s') →
      j' = 0 ∧ cur'.toInt = cur.toInt + 1 ∧ stop' = stop ∧ (view', s') = h.bind cur' s
  own : h.binding = .cell → ∀ k j cur stop view s k' j' cur' stop' view' s',
    Goes (h.run p) (.enter s0) (.body k j cur stop view s) →
      Goes (h.run p) (.body k j cur stop view s) (.body k' j' cur' stop' view' s') → k < k' →
        view ≠ view'

/-- The value of an iteration. -/
def Valued : LoopState W → Prop
  | .enter s => s = s0
  | .body k _ cur _ _ _ =>
    ∃ s1 start, p.eval h.start s0 = (s1, .ok start) ∧ cur.toInt = start.toInt + k

end

theorem run_valued {s0} (d d') (hrun : h.run p d = .next d') (hd : Valued h p s0 d) :
    Valued h p s0 d' := by
  cases run_next hrun with
  | enter hev =>
    cases hd
    exact ⟨_, _, hev, by simp⟩
  | item => exact hd
  | opens k j hcur =>
    obtain ⟨s1, start, hev, hval⟩ := hd
    refine ⟨s1, start, hev, ?_⟩
    push_cast
    omega

/-- A captured variable is in one of the cells there are. -/
def Celled : LoopState W → Prop
  | .enter _ => True
  | .body _ _ _ _ view s => ∃ i, view = some (.cell i) ∧ i < s.cells.length

theorem bind_celled (hb : h.binding = .cell) (cur) (s : Shared W) :
    h.bind cur s = (some (.cell s.cells.length), { s with cells := s.cells ++ [.int cur] }) := by
  rw [Header.bind, hb]

theorem run_celled (hb : h.binding = .cell) (d d' : LoopState W) (hrun : h.run p d = .next d')
    (hd : Celled d) : Celled d' := by
  cases run_next hrun with
  | item k j j' cur stop view s u =>
    obtain ⟨i, hview, hlt⟩ := hd
    exact ⟨i, hview, hlt.trans_le (p.act_keeps u view s)⟩
  | _ =>
    rw [bind_celled hb]
    exact ⟨_, rfl, by simp⟩

/-- From iteration `k0` on, with `n` cells made: later iterations have later cells. -/
def Beyond (k0 n : Nat) : LoopState W → Prop
  | .enter _ => False
  | .body k _ _ _ view s =>
    k0 ≤ k ∧ n ≤ s.cells.length ∧ (k0 < k → ∃ i, view = some (.cell i) ∧ n ≤ i)

theorem run_beyond (hb : h.binding = .cell) {k0 n} (d d' : LoopState W)
    (hrun : h.run p d = .next d') (hd : Beyond k0 n d) : Beyond k0 n d' := by
  cases run_next hrun with
  | enter => exact hd.elim
  | item k j j' cur stop view s u =>
    obtain ⟨hk, hn, hlater⟩ := hd
    exact ⟨hk, hn.trans (p.act_keeps u view s), hlater⟩
  | opens =>
    obtain ⟨hk, hn, -⟩ := hd
    rw [bind_celled hb]
    refine ⟨Nat.le_succ_of_le hk, ?_, fun _ => ⟨_, rfl, hn⟩⟩
    simp only [List.length_append, List.length_singleton]
    omega

theorem run_iterates (h : Header B) (p : Program B W X) (s0) : h.Iterates p s0 := by
  refine ⟨?_, ?_, ?_⟩
  · intro k j cur stop view s hgoes
    have hvalued : Valued h p s0 (.body k j cur stop view s) := hgoes.keeps run_valued rfl
    exact hvalued
  · intro k j cur stop view s j' cur' stop' view' s' hrun
    generalize hk : k + 1 = k' at hrun
    cases run_next hrun with
    | item => omega
    | opens k j hcur => exact ⟨rfl, hcur, rfl, rfl⟩
  · intro hb k j cur stop view s k' j' cur' stop' view' s' hgoes hgoes' hlt heq
    have hcelled : Celled (.body k j cur stop view s) := hgoes.keeps (run_celled hb) trivial
    obtain ⟨i, hview, hi⟩ := hcelled
    have hbeyond : Beyond k s.cells.length (.body k' j' cur' stop' view' s') := by
      apply hgoes'.keeps (run_beyond hb)
      exact ⟨le_rfl, le_rfl, fun hk => absurd hk (Nat.lt_irrefl _)⟩
    obtain ⟨i', hview', hi'⟩ := hbeyond.2.2 hlt
    rw [hview, hview'] at heq
    injection heq with heq
    injection heq with heq
    omega

/-! ## The two paths -/

/-- The literal range of a loop. -/
def literalRange (start : B) (stop : Option B) (inclusive : Bool) :
    Iterand (Comp (B × Option Nat) Unit) :=
  .range (some (compileUnit start)) (stop.map compileUnit) inclusive

section

variable {target : Target} (hone : target.isOneSlot = true) (start : B) (stop : Option B)
  (inclusive : Bool) (items : List (Item B)) {fc : FnComp (B × Option Nat)}
  (hs : Spelled fc.boxedNames target)

include hone hs

theorem compileFor_code :
    ((compileFor target (literalRange start stop inclusive) (compileBody target items)).run
      fc).2.code = fc.code ++ Header.countingCode
        ⟨start, stop, inclusive, target.binding fc.boxedNames⟩ items fc.code.length
        fc.locals.length := by
  have hpath : countingRange target (literalRange start stop inclusive) =
      some (compileUnit start, stop.map compileUnit, inclusive) := by
    rw [literalRange, countingRange, if_pos hone]
  rw [compileFor, run_inScope, run_bind, run_pushLoop, hpath]
  exact run_compileCounting target start stop inclusive items fc.code fc.locals fc.boxedNames
    fc.deferScopes fc.nurseryScopes fc.loops fc.deferScopes fc.nurseryScopes fc.nurseryDeferMarks
    hs

theorem compileForGeneral_code :
    ((compileForGeneral target (literalRange start stop inclusive) (compileBody target items)).run
      fc).2.code = fc.code ++ Header.generalCode
        ⟨start, stop, inclusive, target.binding fc.boxedNames⟩ items fc.code.length
        fc.locals.length := by
  rw [compileForGeneral, run_inScope, run_bind, run_pushLoop]
  exact run_compileGeneral hone start stop inclusive items fc.code fc.locals fc.boxedNames
    fc.deferScopes fc.nurseryScopes fc.loops fc.deferScopes fc.nurseryScopes fc.nurseryDeferMarks
    hs

end

/-- **The counting path runs a literal range as the general path would.**  From any two
    configurations at the loop's start that share what the body shares, the code that
    `compile_for` emits and the code of its general path end alike, or both do not end; they end as
    the loop is meant to, and come to each state of the body it comes to. -/
theorem counting_refines_general (p : Program B W X) (target : Target)
    (hone : target.isOneSlot = true) (start : B) (stop : Option B) (inclusive : Bool)
    (fc : FnComp (B × Option Nat)) (hs : Spelled fc.boxedNames target) (c c' : Config W)
    (hpc : c.pc = fc.code.length) (hpc' : c'.pc = fc.code.length) (hsh : c'.shared = c.shared) :
    let iter := literalRange start stop inclusive
    let counting := ((compileFor target iter (compileBody target p.items)).run fc).2.code
    let general := ((compileForGeneral target iter (compileBody target p.items)).run fc).2.code
    let h : Header B := ⟨start, stop, inclusive, target.binding fc.boxedNames⟩
    (∀ r, EndsWith (step p counting) c r ↔ EndsWith (step p general) c' r) ∧
      (∀ r, EndsWith (step p counting) c r ↔ EndsWith (h.run p) (.enter c.shared) r) ∧
      (∀ d, Goes (h.run p) (.enter c.shared) d →
        (∃ e, Goes (step p counting) c e ∧
          CountingRel p h fc.code.length fc.locals.length e d) ∧
        ∃ e, Goes (step p general) c' e ∧
          GeneralRel p h fc.code.length fc.locals.length e d) ∧
      h.Iterates p c.shared := by
  intro iter counting general h
  have hcounting := counting_follows (p := p)
    (countingAt (compileFor_code hone start stop inclusive p.items hs))
  have hgeneral := general_follows (p := p)
    (generalAt (compileForGeneral_code hone start stop inclusive p.items hs))
  have hc : CountingRel p h fc.code.length fc.locals.length c (.enter c.shared) := ⟨hpc, rfl⟩
  have hc' : GeneralRel p h fc.code.length fc.locals.length c' (.enter c.shared) := ⟨hpc', hsh⟩
  have hmeant (r : Outcome W X) :
      EndsWith (step p counting) c r ↔ EndsWith (h.run p) (.enter c.shared) r :=
    (lockstep_of_follows hcounting).endsWith_iff hc r
  have hmeant' (r : Outcome W X) :
      EndsWith (step p general) c' r ↔ EndsWith (h.run p) (.enter c.shared) r :=
    (lockstep_of_follows hgeneral).endsWith_iff hc' r
  refine ⟨fun r => (hmeant r).trans (hmeant' r).symm, hmeant, ?_, run_iterates h p c.shared⟩
  intro d hgoes
  exact ⟨goes_of_follows hcounting hc hgoes, goes_of_follows hgeneral hc' hgoes⟩

/-- A body that keeps what it sees of its variable. -/
def tally : Program Int64 (List Val) Empty where
  items := [.code 0]
  act _ view s := ({ s with world := s.world ++ view.toList }, .next)
  eval n s := (s, .ok n)
  act_keeps _ _ _ := Nat.le_refl _

/-- `for i in 1..=2` with `i` captured, and nothing compiled before it. -/
theorem counting_refines_general_tally :
    let fc : FnComp (Int64 × Option Nat) := ⟨[], [], ["i"], [], 0, 0, []⟩
    let code := ((compileFor (.ident "i") (literalRange 1 (some 2) true)
      (compileBody (.ident "i") tally.items)).run fc).2.code
    EndsWith (step tally code) ⟨0, [], fun _ => .nil, [], ⟨[], []⟩⟩
      (.exit ⟨[.int 1, .int 2], [.cell 0, .cell 1]⟩) := by
  have hs : Spelled ["i"] (.ident "i") := ⟨by decide, by rintro name ⟨⟩; decide⟩
  have hall := counting_refines_general tally (.ident "i") rfl 1 (some 2) true
    ⟨[], [], ["i"], [], 0, 0, []⟩ hs ⟨0, [], fun _ => .nil, [], ⟨[], []⟩⟩
    ⟨0, [], fun _ => .nil, [], ⟨[], []⟩⟩ rfl rfl rfl
  refine (hall.2.1 _).mpr ⟨4, ?_⟩
  exact .next rfl (.next rfl (.next rfl (.next rfl (.stop rfl))))

end ChezziLang.Compiler
