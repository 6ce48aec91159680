/-
  The general path of a `for` over a literal range runs the loop as it is meant: the `Range` is
  made, its `iter` gives a generator, and `next()` gives the values.

  Proved:
  * `resume_enter`, `resume_next`: what the generator answers, for a step of one.
  * `general_head`: at the loop's head the next value opens an iteration, or the loop ends.
  * `general_follows`: the code follows each step of the loop.
-/
import ChezziLang.Compiler.LoopsExec

namespace ChezziLang.Compiler

open Lib Function List Header

section

variable {B W X : Type} {p : Program B W X} {h : Header B} {code : List (Op (B × Option Nat))}
  {a b : Nat}

/-- Where `iter` is suspended after it gave `cur`. -/
def pointOf (stop : Option Int64) (inclusive : Bool) (cur : Int) : Stdlib.Range.Point :=
  match stop with
  | none => .openLoop cur
  | some e => if inclusive then .inclusiveLoop cur e.toInt else .exclusiveLoop cur e.toInt

/-- What a loop over ints makes of the value `n`. -/
def answer (stop : Option Int64) (inclusive : Bool) (n : Int) :
    Stdlib.Run (Option Int × Stdlib.Range.Point) :=
  if within stop inclusive n then
    if I64.Fits n then .ok (some n, pointOf stop inclusive n)
    else .error (.int (.overflow (.bin .add)))
  else .ok (none, .finished)

theorem resume_enter (start : Int64) (stop inclusive) :
    Stdlib.Range.resume ⟨some start.toInt, stop.map Int64.toInt, 1, inclusive⟩ .enter =
      answer stop inclusive start.toInt := by
  rw [answer, if_pos (I64.fits_toInt start)]
  cases stop with
  | none => rfl
  | some e => cases inclusive <;> simp [Stdlib.Range.resume, within, pointOf]

variable {stop : Option Int64} {c : Config W} {rest : List (Op (B × Option Nat))}
  {items : List (Item B)} {slots : Nat → Val} {sh : Shared W}

theorem resume_next {r : Stdlib.Range} (hstep : r.step = 1) {cur : Int64} {inclusive}
    (hw : within stop inclusive cur.toInt = true) :
    r.resume (pointOf stop inclusive cur.toInt) = answer stop inclusive (cur.toInt + 1) := by
  cases stop with
  | none =>
    by_cases hfits : I64.Fits (cur.toInt + 1)
    · simp only [pointOf, Stdlib.Range.resume, hstep, Stdlib.add_ok hfits, Stdlib.ok_bind, answer,
        within, if_true, hfits]
      rfl
    · simp only [pointOf, Stdlib.Range.resume, hstep, Stdlib.add, Stdlib.fit, answer, within,
        if_true, hfits, if_false]
      rfl
  | some e =>
    cases inclusive with
    | true =>
      by_cases hlt : cur.toInt < e.toInt
      · have hfits : I64.Fits (cur.toInt + 1) := I64.fits_succ_of_lt hlt
        have hle : cur.toInt + 1 ≤ e.toInt := hlt
        simp only [pointOf, Stdlib.Range.resume, hlt, Stdlib.add_ok hfits, Stdlib.ok_bind, answer,
          within, if_true, hfits, hle, decide_true]
        rfl
      · have hle : ¬ cur.toInt + 1 ≤ e.toInt := by omega
        simp only [pointOf, Stdlib.Range.resume, hlt, answer, within, if_true, hle, decide_false,
          if_false]
        rfl
    | false =>
      have hlt : cur.toInt < e.toInt := by simpa [within] using hw
      have hfits : I64.Fits (cur.toInt + 1) := I64.fits_succ_of_lt hlt
      have hres : r.resume (pointOf (some e) false cur.toInt) = if cur.toInt + 1 < e.toInt then
            .ok (some (cur.toInt + 1), .exclusiveLoop (cur.toInt + 1) e.toInt)
          else .ok (none, .finished) := by
        simp only [pointOf, Bool.false_eq_true, if_false, Stdlib.Range.resume,
          Stdlib.add_ok hfits, Stdlib.ok_bind]
        rfl
      rw [hres, answer, if_pos hfits]
      simp [within, pointOf]

/-- The loop steps by `next()`, and the iterand is a generator suspended at `pt`. -/
structure Suspended (b : Nat) (slots : Nat → Val)
    (gens : List (Stdlib.Range × Stdlib.Range.Point)) (pt : Stdlib.Range.Point) : Prop where
  chan : slots (b + 1) = .bool false
  struct : slots (b + 2) = .bool true
  iter : ∃ g r, slots b = .gen g ∧ gens[g]? = some (r, pt) ∧ r.step = 1

/-- The configurations of the general code. -/
def GeneralRel (p : Program B W X) (h : Header B) (a b : Nat) : Config W → LoopState W → Prop :=
  LoopRel p h a (h.bodyAt a b) (b + 3) fun slots gens cur stop =>
    Suspended b slots gens (pointOf stop h.inclusive cur.toInt)

/-- Where the pieces of the general code are. -/
structure GeneralAt (code : List (Op (B × Option Nat))) (h : Header B) (items : List (Item B))
    (a b : Nat) : Prop where
  iter : CodeAt code a (h.iterOps b)
  modes : CodeAt code (h.modesAt a b) (modesOps (h.modesAt a b) b)
  init : CodeAt code (h.initAt a b) (seqInitOps (h.initAt a b) (h.cursor b))
  step : CodeAt code (h.headAt a b)
    (stepOps (h.headAt a b) (h.exitAt items a b) (h.cursor b) ++ h.fresh (b + 3))
  body : CodeAt code (h.bodyAt a b)
    (items.map (Item.op (h.binding.view (b + 3)) (h.bodyAt a b) (h.exitAt items a b)
      (h.nextAt items a b)))
  advance : CodeAt code (h.nextAt items a b)
    (advanceOps (h.nextAt items a b) (h.headAt a b) (h.cursor b))
  length : code.length = h.exitAt items a b

theorem generalAt {A} (hcode : code = A ++ h.generalCode items A.length b) :
    GeneralAt code h items A.length b := by
  have hall : CodeAt code A.length (h.generalCode items A.length b) := by
    rw [hcode]
    exact codeAt_append ..
  have hbodyAt : h.bodyAt A.length b = h.headAt A.length b + (25 + (h.fresh (b + 3)).length) := by
    simp only [bodyAt, headAt]
    omega
  rw [generalCode] at hall hcode
  have hstep := hall.right.right.right
  rw [← append_assoc (stepOps ..)] at hstep
  have hbody := hstep.right
  rw [length_append, length_stepOps] at hbody
  change CodeAt code (h.headAt A.length b + _) _ at hbody
  rw [← hbodyAt] at hbody
  have hadvance := hbody.right
  rw [length_map] at hadvance
  refine ⟨hall.left, hall.right.left, hall.right.right.left, hstep.left, hbody.left, hadvance, ?_⟩
  rw [hcode]
  simp only [length_append, length_map, length_modesOps, length_seqInitOps,
    length_stepOps, length_advanceOps, exitAt, nextAt, bodyAt,
    initAt, modesAt]
  omega

theorem GeneralAt.stepFrom (hat : GeneralAt code h items a b) (k) (hk : k ≤ 25) :
    CodeAt code (h.headAt a b + k)
      ((stepOps (h.headAt a b) (h.exitAt items a b) (h.cursor b)).drop k) :=
  hat.step.left.drop k hk

theorem GeneralAt.advanceFrom (hat : GeneralAt code h items a b) (k) (hk : k ≤ 11) :
    CodeAt code (h.nextAt items a b + k)
      ((advanceOps (h.nextAt items a b) (h.headAt a b) (h.cursor b)).drop k) :=
  hat.advance.drop k hk

/-- A branch on a slot. -/
theorem branch_goes {slot t r} (hat : CodeAt code c.pc (.getLocal slot :: .jumpIfFalse t :: rest))
    (hslot : c.slots slot = .bool r) :
    Goes (step p code) c { c with pc := if r then c.pc + 2 else t } := by
  obtain ⟨pc, s, slots, gens, sh⟩ := c
  dsimp only at hslot hat
  have hfirst : step p code ⟨pc, s, slots, gens, sh⟩ =
      .next ⟨pc + 1, .bool r :: s, slots, gens, sh⟩ := by
    rw [step_of_codeAt hat]
    simp [hslot]
  apply Goes.cons hfirst
  apply Goes.one
  rw [step_of_codeAt hat.tail]
  rfl

theorem cursor_slots (h : Header B) (b) :
    b + 2 < (h.cursor b).elem ∧ (h.cursor b).elem < (h.cursor b).optSlot ∧
      b + 3 < (h.cursor b).optSlot := by
  simp only [cursor]
  cases h.binding <;> simp only [Binding.raw, Binding.size] <;> omega

/-- Past the branches on the two modes: not a channel, and stepped by `next()`. -/
theorem modes_skip {pc k t rest'}
    (hat : CodeAt code pc (.getLocal (b + 1) :: .jumpIfFalse (pc + k) :: rest))
    (hat' : CodeAt code (pc + k) (.getLocal (b + 2) :: .jumpIfFalse t :: rest'))
    (hchan : c.slots (b + 1) = .bool false) (hstruct : c.slots (b + 2) = .bool true) :
    Goes (step p code) { c with pc := pc } { c with pc := pc + k + 2 } :=
  (branch_goes (c := { c with pc := pc }) hat hchan).trans
    (branch_goes (c := { c with pc := pc + k }) hat' hstruct)

/-- At the loop's head the code asks the generator by `next()`. -/
theorem head_goes {pt} (hat : GeneralAt code h items a b) (hpc : c.pc = h.headAt a b)
    (hsus : Suspended b c.slots c.gens pt) :
    Goes (step p code) c { c with pc := h.headAt a b + 8 } := by
  obtain ⟨pc, s, slots, gens, sh⟩ := c
  obtain rfl : pc = h.headAt a b := hpc
  exact modes_skip hat.step.left (hat.stepFrom 6 (by omega)) hsus.chan hsus.struct

section

variable {s : List Val} {slots : Nat → Val} {gens : List (Stdlib.Range × Stdlib.Range.Point)}
  (sh : Shared W) {g : Nat} {r : Stdlib.Range} {pt pt' : Stdlib.Range.Point}

variable (hat : GeneralAt code h items a b) (hiter : slots b = .gen g)
  (hg : gens[g]? = some (r, pt))
include hat hiter hg

/-- `next()` faults. -/
theorem next_faults {f} (hres : r.resume pt = .error f) :
    EndsWith (step p code) ⟨h.headAt a b + 8, s, slots, gens, sh⟩ (.fault f sh) := by
  have hnext := hat.stepFrom 8 (by omega)
  have hslot : slots (h.cursor b).iterSlot = .gen g := hiter
  have hfirst : step p code ⟨h.headAt a b + 8, s, slots, gens, sh⟩ =
      .next ⟨h.headAt a b + 9, .gen g :: s, slots, gens, sh⟩ := by
    rw [step_of_codeAt hnext]
    simp [hslot]
  apply (Goes.one hfirst).endsWith
  apply EndsWith.of_stop
  rw [step_of_codeAt hnext.tail]
  simp [exec, callNext, hg, hres]

/-- `next()` answers an option. -/
theorem next_answers {o} (hres : r.resume pt = .ok (o, pt')) :
    Goes (step p code) ⟨h.headAt a b + 8, s, slots, gens, sh⟩ ⟨h.headAt a b + 12, s,
      update slots (h.cursor b).optSlot (o.elim .none fun n => .some (.int (Int64.ofInt n))),
      gens.set g (r, pt'), sh⟩ := by
  have hslot : slots (h.cursor b).iterSlot = .gen g := hiter
  refine goes_of_linear ((hat.stepFrom 8 (by omega)).take 4) (by simp [stepOps]) ?_
  cases o <;> simp [stepOps, exec, callNext, hslot, hg, hres]

/-- `next()` gives `None`, and the loop ends. -/
theorem next_none (hres : r.resume pt = .ok (none, pt')) :
    EndsWith (step p code) ⟨h.headAt a b + 8, s, slots, gens, sh⟩ (.exit sh) := by
  have harm : step p code ⟨h.headAt a b + 12, s, update slots (h.cursor b).optSlot .none,
      gens.set g (r, pt'), sh⟩ = .next ⟨h.headAt a b + 13, s,
        update slots (h.cursor b).optSlot .none, gens.set g (r, pt'), sh⟩ := by
    rw [step_of_codeAt (hat.stepFrom 12 (by omega))]
    simp [exec]
  apply ((next_answers sh hat hiter hg hres).trans (.one harm)).endsWith
  have hexit := step_of_codeAt (p := p) (c := ⟨h.headAt a b + 13, s,
    update slots (h.cursor b).optSlot .none, gens.set g (r, pt'), sh⟩)
    (hat.stepFrom 13 (by omega))
  exact (Goes.one hexit).endsWith (endsWith_exit hat.length.symm)

/-- `next()` gives `Some`, and its payload is the element. -/
theorem next_some {n} (hres : r.resume pt = .ok (some n, pt')) :
    Goes (step p code) ⟨h.headAt a b + 8, s, slots, gens, sh⟩
      ⟨h.headAt a b + 25, s,
        update (update slots (h.cursor b).optSlot (.some (.int (Int64.ofInt n))))
          (h.cursor b).elem (.int (Int64.ofInt n)), gens.set g (r, pt'), sh⟩ := by
  have hgoes : Goes (step p code) _ _ := next_answers (s := s) sh hat hiter hg hres
  rw [Option.elim] at hgoes
  generalize hslots : update slots (h.cursor b).optSlot (.some (.int (Int64.ofInt n))) =
    slots' at hgoes ⊢
  have hopt : slots' (h.cursor b).optSlot = .some (.int (Int64.ofInt n)) := by
    rw [← hslots, update_self]
  -- not `None`, then `Some`, then over the sequence's step
  have hnone : step p code ⟨h.headAt a b + 12, s, slots', gens.set g (r, pt'), sh⟩ =
      .next ⟨h.headAt a b + 14, s, slots', gens.set g (r, pt'), sh⟩ := by
    rw [step_of_codeAt (hat.stepFrom 12 (by omega))]
    simp [exec, hopt]
  have hsome : step p code ⟨h.headAt a b + 14, s, slots', gens.set g (r, pt'), sh⟩ =
      .next ⟨h.headAt a b + 15, s, update slots' (h.cursor b).elem (.int (Int64.ofInt n)),
        gens.set g (r, pt'), sh⟩ := by
    rw [step_of_codeAt (hat.stepFrom 14 (by omega))]
    simp [exec, hopt]
  apply hgoes.trans
  apply Goes.cons hnone
  apply Goes.cons hsome
  apply Goes.one
  rw [step_of_codeAt (hat.stepFrom 15 (by omega)), exec, Config.jump]

end

theorem general_head {n g r pt} (k) (hat : GeneralAt code h p.items a b) (hpc : c.pc = h.headAt a b)
    (hchan : c.slots (b + 1) = .bool false) (hstruct : c.slots (b + 2) = .bool true)
    (hiter : c.slots b = .gen g) (hg : c.gens[g]? = some (r, pt)) (hr : r.step = 1)
    (hres : r.resume pt = answer stop h.inclusive n) :
    Follows (step p code) (GeneralRel p h a b) c (h.open' k n stop c.shared) := by
  have hask := head_goes (p := p) hat hpc ⟨hchan, hstruct, g, r, hiter, hg, hr⟩
  obtain ⟨helem, hopt, hvar⟩ := cursor_slots h b
  apply hask.follows
  rw [answer] at hres
  rw [open']
  by_cases hw : within stop h.inclusive n = true
  · rw [if_pos hw] at hres ⊢
    by_cases hfits : I64.Fits n
    · rw [if_pos hfits] at hres ⊢
      have hsome := next_some (p := p) (s := c.stack) c.shared hat hiter hg hres
      obtain ⟨c', hfresh, hop⟩ := fresh_linear (h := h) p (b + 3) (Int64.ofInt n)
        ⟨h.headAt a b + 25, c.stack, update (update c.slots (h.cursor b).optSlot
            (.some (.int (Int64.ofInt n)))) (h.cursor b).elem (.int (Int64.ofInt n)),
          c.gens.set g (r, pointOf stop h.inclusive n), c.shared⟩
        (update_self ..)
      have hcomes := comes_of_linear hat.step.right hfresh
      have hnext : (Int64.ofInt n).toInt = n := I64.toInt_ofInt_of_fits hfits
      have hlow (x : Nat) (hx : x ≤ b + 2) : c'.slots x = c.slots x := by
        rw [hop.other x fun _ => by omega]
        dsimp only
        rw [update_of_ne (by omega), update_of_ne (by omega)]
      have hlt : g < c.gens.length := (List.getElem?_eq_some_iff.mp hg).1
      refine ⟨c', hsome.comes.trans hcomes, ?_, Nat.zero_le _, ?_, ?_, hop.view, hop.shared⟩
      · rw [hop.pc]
        simp only [bodyAt, headAt]
        omega
      · refine ⟨by rw [hlow _ (by omega), hchan], by rw [hlow _ (by omega), hstruct], g, r,
          by rw [hlow _ (by omega), hiter], ?_, hr⟩
        rw [hop.gens, hnext]
        exact getElem?_set_self hlt
      · rw [hnext]
        exact hw
    · rw [if_neg hfits] at hres ⊢
      exact next_faults c.shared hat hiter hg hres
  · rw [if_neg hw] at hres ⊢
    exact next_none c.shared hat hiter hg hres

theorem general_advance {cur : Int64} (k) (hat : GeneralAt code h p.items a b)
    (hpc : c.pc = h.nextAt p.items a b)
    (hsus : Suspended b c.slots c.gens (pointOf stop h.inclusive cur.toInt))
    (hw : within stop h.inclusive cur.toInt = true) :
    Follows (step p code) (GeneralRel p h a b) c (h.open' k (cur.toInt + 1) stop c.shared) := by
  obtain ⟨hchan, hstruct, g, r, hiter, hg, hr⟩ := hsus
  have hgoes : Goes (step p code) c { c with pc := h.nextAt p.items a b + 5 } := by
    obtain ⟨pc, s, slots, gens, sh⟩ := c
    obtain rfl : pc = h.nextAt p.items a b := hpc
    exact modes_skip hat.advance (hat.advanceFrom 3 (by omega)) hchan hstruct
  have hback : Goes (step p code) { c with pc := h.nextAt p.items a b + 5 }
      { c with pc := h.headAt a b } := by
    apply Goes.one
    rw [step_of_codeAt (c := { c with pc := h.nextAt p.items a b + 5 })
      (hat.advanceFrom 5 (by omega))]
    rfl
  apply (hgoes.trans hback).follows
  apply Follows.reaches
  exact general_head (c := { c with pc := h.headAt a b }) k hat rfl hchan hstruct hiter hg hr
    (resume_next hr hw)


/-- The modes of a generator: not a channel, and stepped by `next()`. -/
theorem modes_goes (s gens sh) {g} (hat : GeneralAt code h items a b) (hiter : slots b = .gen g) :
    ∃ slots', Goes (step p code) ⟨h.modesAt a b, s, slots, gens, sh⟩
        ⟨h.initAt a b, s, slots', gens, sh⟩ ∧
      slots' b = .gen g ∧ slots' (b + 1) = .bool false ∧ slots' (b + 2) = .bool true := by
  have hops := hat.modes
  have hfirst : CodeAt code (h.modesAt a b) ((modesOps (h.modesAt a b) b).take 13) := by
    rw [← take_append_drop 13 (modesOps (h.modesAt a b) b)] at hops
    exact hops.left
  have hjump : CodeAt code (h.modesAt a b + 13) ((modesOps (h.modesAt a b) b).drop 13) :=
    hops.drop 13 (by rw [length_modesOps]; omega)
  have hlin : linear Config.pc (exec p) ((modesOps (h.modesAt a b) b).take 13)
      ⟨h.modesAt a b, s, slots, gens, sh⟩ = some ⟨h.modesAt a b + 13, .bool false :: s,
        update (update (update slots (b + 1) (.bool false)) (b + 2)
          (.bool false)) (b + 2) (.bool true), gens, sh⟩ := by
    simp [modesOps, exec, hiter]
  have hgoes := goes_of_linear hfirst (by simp [modesOps]) hlin
  refine ⟨_, hgoes.trans (.one ((step_of_codeAt hjump).trans rfl)), ?_, ?_, ?_⟩
  · simp [hiter]
  · simp
  · simp

/-- The sequence's copy is skipped. -/
theorem init_goes {s gens} (hat : GeneralAt code h items a b) (hchan : slots (b + 1) = .bool false)
    (hstruct : slots (b + 2) = .bool true) :
    Goes (step p code) ⟨h.initAt a b, s, slots, gens, sh⟩ ⟨h.headAt a b, s, slots, gens, sh⟩ := by
  have hfrom (k : Nat) (hk : k ≤ 14) :
      CodeAt code (h.initAt a b + k) ((seqInitOps (h.initAt a b) (h.cursor b)).drop k) :=
    hat.init.drop k hk
  have hgoes := modes_skip (p := p) (c := ⟨h.initAt a b, s, slots, gens, sh⟩) hat.init
    (hfrom 3 (by omega)) hchan hstruct
  apply hgoes.trans
  apply Goes.one
  rw [step_of_codeAt (hfrom 5 (by omega))]
  rfl

/-- A bound of the literal, as a `T?`. -/
theorem literal_goes {u n} (hat : CodeAt code c.pc (literalBound (some u) ++ rest))
    (hev : p.eval u c.shared = (sh, .ok n)) : Goes (step p code) c { c with
      pc := c.pc + 2, stack := .some (.int n) :: c.stack, shared := sh } := by
  apply goes_of_linear hat.left (by simp [literalBound])
  simp [literalBound, exec, hev]

section

variable (hat : GeneralAt code h p.items a b)
include hat

/-- The range of the literal, as the loop's first value. -/
theorem general_start {pc s v gens start} (hops : CodeAt code pc
      [.constInt 1, if h.inclusive then .true else .false, .newRange, .setLocal b, .getLocal b,
        .iterableToCursor, .setLocal b]) (hpc : pc + 7 = h.modesAt a b)
    (hv : v.bound? = some (stop.map Int64.toInt)) : Follows (step p code) (GeneralRel p h a b)
      ⟨pc, v :: .some (.int start) :: s, slots, gens, sh⟩ (h.open' 0 start.toInt stop sh) := by
  have hone : (1 : Int64).toInt = 1 := by decide
  have hstart : (Val.some (.int start)).bound? = some (some start.toInt) := rfl
  have hlin : linear Config.pc (exec p)
      [.constInt 1, if h.inclusive then .true else .false, .newRange, .setLocal b, .getLocal b,
        .iterableToCursor, .setLocal b]
      ⟨pc, v :: .some (.int start) :: s, slots, gens, sh⟩ = some ⟨pc + 7, s, update (update slots b
          (.range ⟨some start.toInt, stop.map Int64.toInt, 1, h.inclusive⟩)) b (.gen gens.length),
        gens ++ [(⟨some start.toInt, stop.map Int64.toInt, 1, h.inclusive⟩, .enter)], sh⟩ := by
    cases h.inclusive <;> simp [exec, hstart, hv, hone]
  have hgoes := goes_of_linear hops (by simp) hlin
  rw [hpc] at hgoes
  have hgen : update (update slots b
      (.range ⟨some start.toInt, stop.map Int64.toInt, 1, h.inclusive⟩)) b (.gen gens.length) b =
      .gen gens.length := update_self ..
  obtain ⟨slots', hmodes, hiter, hchan, hstruct⟩ :=
    modes_goes (p := p) s
      (gens ++ [(⟨some start.toInt, stop.map Int64.toInt, 1, h.inclusive⟩, .enter)]) sh hat hgen
  apply ((hgoes.trans hmodes).trans (init_goes hat hchan hstruct)).follows
  apply Follows.reaches
  have hlast (r : Stdlib.Range) : (gens ++ [(r, .enter)])[gens.length]? = some (r, .enter) := by
    simp
  exact general_head (c := ⟨h.headAt a b, s, slots', _, sh⟩) 0 hat rfl hchan hstruct hiter
    (hlast _) rfl (resume_enter start stop h.inclusive)

theorem general_enter (hpc : c.pc = a) :
    Follows (step p code) (GeneralRel p h a b) c (h.run p (.enter c.shared)) := by
  have hops := hat.iter
  rw [← hpc, iterOps] at hops
  rw [run]
  rcases hev : p.eval h.start c.shared with ⟨sh, _ | start⟩
  · exact expr_leaves hops hev
  have hgoes := literal_goes hops hev
  cases hs : h.stop with
  | none =>
    rw [hs] at hops
    have hnone : Goes (step p code)
        { c with pc := c.pc + 2, stack := .some (.int start) :: c.stack, shared := sh }
        { c with
          pc := c.pc + 3
          stack := .none :: .some (.int start) :: c.stack
          shared := sh } := by
      apply Goes.one
      rw [step_of_codeAt (c := { c with
        pc := c.pc + 2, stack := .some (.int start) :: c.stack, shared := sh }) hops.right]
      rfl
    apply (hgoes.trans hnone).follows
    apply Follows.reaches
    apply general_start hat hops.right.right
    · simp only [modesAt, iterOps, hs, literalBound, hpc]
      rfl
    · rfl
  | some stop =>
    rw [hs] at hops
    dsimp only
    rcases hev' : p.eval stop sh with ⟨sh', _ | e⟩
    · exact hgoes.endsWith (expr_leaves hops.right hev')
    have hgoes' := literal_goes
      (c := { c with pc := c.pc + 2, stack := .some (.int start) :: c.stack, shared := sh })
      hops.right hev'
    apply (hgoes.trans hgoes').follows
    apply Follows.reaches
    have hmodes : c.pc + 2 + 2 + 7 = h.modesAt a b := by
      simp only [modesAt, iterOps, hs, literalBound, hpc]
      rfl
    have hbound : (Val.some (.int e)).bound? = some ((some e).map Int64.toInt) := rfl
    exact general_start hat hops.right.right hmodes hbound

/-- **The general code follows each step of the loop.** -/
theorem general_follows (c d) (hrel : GeneralRel p h a b c d) :
    Follows (step p code) (GeneralRel p h a b) c (h.run p d) := by
  cases d with
  | enter s =>
    obtain ⟨hpc, rfl⟩ := hrel
    exact general_enter hat hpc
  | body k j cur stop view s =>
    apply body_follows hat.body hat.length rfl _ hrel
    intro c k cur stop hpc hsus hw
    exact general_advance k hat hpc hsus hw

end

end

end ChezziLang.Compiler
