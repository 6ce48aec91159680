/-
  The counting path of a `for` over a literal range runs the loop as it is meant.

  Proved:
  * `counting_open`: the test at the loop's start opens the iteration of the counter's value, or
    leaves.
  * `counting_advance`: after the body the counter goes on by one, unless that was the last value.
  * `counting_follows`: the code follows each step of the loop.
-/
import ChezziLang.Compiler.LoopsExec

namespace ChezziLang.Compiler

open Lib Function List Header

section

variable {B W X : Type} {p : Program B W X} {h : Header B} {code : List (Op (B × Option Nat))}
  {a b : Nat}

/-- Counter and end are in their slots. -/
structure Counts (h : Header B) (b : Nat) (slots : Nat → Val) (cur : Int64)
    (stop : Option Int64) : Prop where
  counter : slots (h.counter b) = .int cur
  stop : stop.map Val.int = (h.endSlot b).map slots

/-- The configurations of the counting code. -/
def CountingRel (p : Program B W X) (h : Header B) (a b : Nat) : Config W → LoopState W → Prop :=
  LoopRel p h a (h.bodyStart a b) (h.varSlot b) fun slots _ cur stop => Counts h b slots cur stop

/-- Where the pieces of the counting code are. -/
structure CountingAt (code : List (Op (B × Option Nat))) (h : Header B) (items : List (Item B))
    (a b : Nat) : Prop where
  setup : CodeAt code a (h.setup b)
  test : CodeAt code (h.loopStart a b) (h.test b (h.exit items a b) ++ h.fresh (h.varSlot b))
  body : CodeAt code (h.bodyStart a b)
    (items.map (Item.op (h.binding.view (h.varSlot b)) (h.bodyStart a b) (h.exit items a b)
      (h.incTarget items a b)))
  last : CodeAt code (h.incTarget items a b)
    (h.lastTest b (h.exit items a b) ++ incrementOps (h.counter b) (h.loopStart a b))
  length : code.length = h.exit items a b

theorem bodyStart_eq (h : Header B) (a b exit) :
    h.bodyStart a b = h.loopStart a b + (h.test b exit ++ h.fresh (h.varSlot b)).length := by
  have hlen := length_testOps (U := B × Option Nat) (if h.inclusive then .ltEq else .lt)
    (h.counter b) 0 exit (h.endSlot b)
  simp only [bodyStart, loopStart, length_append, test] at hlen ⊢
  omega

theorem incTarget_eq (h : Header B) (items a b) :
    h.incTarget items a b = h.bodyStart a b + items.length := by
  simp only [Header.incTarget, bodyStart, length_append, length_map]
  omega

theorem exit_eq (h : Header B) (items a b exit loopStart) :
    h.exit items a b = h.incTarget items a b +
      (h.lastTest b exit ++ incrementOps (h.counter b) loopStart :
        List (Op (B × Option Nat))).length := by
  have hlen := length_testOps (U := B × Option Nat) .notEq (h.counter b) 0 exit
    (if h.inclusive then h.endSlot b else none)
  simp only [Header.exit, Header.incTarget, length_append, length_map, Header.lastTest,
    incrementOps, length_cons, length_nil] at hlen ⊢
  omega

theorem countingAt {items A} (hcode : code = A ++ h.countingCode items A.length b) :
    CountingAt code h items A.length b := by
  have hall : CodeAt code A.length (h.countingCode items A.length b) := by
    rw [hcode]
    exact codeAt_append ..
  have hexit := exit_eq h items A.length b (h.exit items A.length b) (h.loopStart A.length b)
  have hinc := incTarget_eq h items A.length b
  have hstart := bodyStart_eq h A.length b (h.exit items A.length b)
  rw [countingCode] at hall hcode
  have htest := hall.right
  rw [← append_assoc (h.test b _)] at htest
  have hbody := htest.right
  rw [show A.length + (h.setup b).length = h.loopStart A.length b from rfl, ← hstart] at hbody
  have hlast := hbody.right
  rw [length_map, ← hinc] at hlast
  refine ⟨hall.left, htest.left, hbody.left, hlast, ?_⟩
  rw [hcode]
  simp only [length_append, length_map, loopStart] at hexit hstart ⊢
  omega

variable {stop : Option Int64} {cur : Int64} {slot : Nat} {c : Config W}
  {rest : List (Op (B × Option Nat))}

theorem Counts.endSlot {slots} (hc : Counts h b slots cur stop) (hslot : h.endSlot b = some slot) :
    ∃ e, stop = some e ∧ slots slot = .int e := by
  have hstop := hc.stop
  rw [hslot] at hstop
  cases stop with
  | none => cases hstop
  | some e => exact ⟨e, rfl, by simpa using hstop.symm⟩

theorem endSlot_lt (hslot : h.endSlot b = some slot) : slot < h.varSlot b ∧ slot < h.counter b := by
  have hvar : slot < h.varSlot b := by
    rw [endSlot] at hslot
    rw [varSlot]
    cases hs : h.stop with
    | none =>
      rw [hs] at hslot
      cases hslot
    | some stop =>
      rw [hs] at hslot
      cases hslot
      exact Nat.lt_succ_self _
  refine ⟨hvar, ?_⟩
  rw [counter]
  cases h.binding <;> simp only [Binding.raw] <;> omega

/-- Slots that agree on the end count from the counter they have. -/
theorem Counts.of_end {slots slots'} (hstop : stop.map Val.int = (h.endSlot b).map slots)
    (hcnt : slots' (h.counter b) = .int cur)
    (hend : ∀ slot, h.endSlot b = some slot → slots' slot = slots slot) :
    Counts h b slots' cur stop := by
  refine ⟨hcnt, ?_⟩
  rw [hstop]
  cases hs : h.endSlot b with
  | none => rfl
  | some slot => rw [Option.map, Option.map, hend slot hs]

/-- The counter is written. -/
theorem Counts.write {slots} (hstop : stop.map Val.int = (h.endSlot b).map slots) (cur) :
    Counts h b (update slots (h.counter b) (.int cur)) cur stop :=
  .of_end hstop (update_self ..) fun _ hslot => update_of_ne (Nat.ne_of_lt (endSlot_lt hslot).2) ..

/-- A comparison of the counter with the end, and the jump after it. -/
theorem test_goes {op m n r counter exit}
    (hexec : ∀ pc s slots gens sh, exec p op ⟨pc, .int n :: .int m :: s, slots, gens, sh⟩ =
      .next ⟨pc + 1, .bool r :: s, slots, gens, sh⟩)
    (hat : CodeAt code c.pc (testOps op counter exit (some slot) ++ rest))
    (hm : c.slots counter = .int m) (hn : c.slots slot = .int n) :
    Goes (step p code) c { c with pc := if r then c.pc + 4 else exit } := by
  obtain ⟨pc, s, slots, gens, sh⟩ := c
  dsimp only at hm hn hat
  have hlin : linear Config.pc (exec p) [.getLocal counter, .getLocal slot, op]
      ⟨pc, s, slots, gens, sh⟩ = some ⟨pc + 3, .bool r :: s, slots, gens, sh⟩ := by
    simp [hm, hn, hexec]
  have hcmp : CodeAt code pc [.getLocal counter, .getLocal slot, op] := by
    exact hat.take 3
  have hjump : CodeAt code (pc + 3) (.jumpIfFalse exit :: rest) := hat.tail.tail.tail
  apply (goes_of_linear hcmp (by simp) hlin).trans
  apply Goes.one
  rw [step_of_codeAt hjump]
  rfl

/-- The test of the counting code goes on when the value is inside the bound. -/
theorem test_comes {exit} (hat : CodeAt code c.pc (h.test b exit ++ rest))
    (hc : Counts h b c.slots cur stop) : Comes (step p code) c { c with
      pc := if within stop h.inclusive cur.toInt then c.pc + (h.test b exit).length
        else exit } := by
  rw [test] at hat ⊢
  cases hs : h.endSlot b with
  | none =>
    have hnone : stop = none := by simpa [hs] using hc.stop
    rw [hnone]
    exact .inl rfl
  | some slot =>
    obtain ⟨e, rfl, hslot⟩ := hc.endSlot hs
    rw [hs] at hat
    refine .inr (test_goes (m := cur) (n := e) ?_ hat hc.counter hslot)
    cases hi : h.inclusive with
    | true | false => simp [within, exec]

theorem counting_open (k) (hat : CountingAt code h p.items a b) (hpc : c.pc = h.loopStart a b)
    (hc : Counts h b c.slots cur stop) :
    Reaches (step p code) (CountingRel p h a b) c (h.open' k cur.toInt stop c.shared) := by
  have htest := hat.test
  rw [← hpc] at htest
  have hcomes := test_comes (p := p) htest hc
  by_cases hw : within stop h.inclusive cur.toInt = true
  · -- the test passes, and the iteration opens
    obtain ⟨c', hfresh, hop⟩ := fresh_linear p (h.varSlot b) cur
      { c with pc := c.pc + (h.test b (h.exit p.items a b)).length } hc.counter
    have hcomes' := comes_of_linear htest.right hfresh
    rw [open', if_pos hw, if_pos (I64.fits_toInt cur), Int64.ofInt_toInt]
    simp only [hw, if_true] at hcomes
    refine ⟨c', hcomes.trans hcomes', ?_, Nat.zero_le _, ?_, hw, hop.view, hop.shared⟩
    · rw [hop.pc, bodyStart_eq h a b (h.exit p.items a b), length_append]
      dsimp only
      omega
    apply Counts.of_end hc.stop
    · rw [hop.other, hc.counter]
      intro hcell
      rw [counter, hcell]
      exact Nat.succ_ne_self _
    · intro slot hslot
      exact hop.other slot fun _ => Nat.ne_of_lt (endSlot_lt hslot).1
  · -- the test fails, and jumps to the exit
    rw [open', if_neg hw]
    simp only [hw] at hcomes
    exact hcomes.endsWith (endsWith_exit hat.length.symm)

theorem addInts_ok {m n s} (hfits : I64.Fits (m.toInt + n.toInt)) :
    (addInts c m n s : Move (Config W) (Outcome W X)) =
      .next (c.push (.int (Int64.ofInt (m.toInt + n.toInt))) s) := by
  rw [addInts, Stdlib.add_ok hfits]

theorem addInts_overflow {m n s} (hfits : ¬ I64.Fits (m.toInt + n.toInt)) :
    (addInts c m n s : Move (Config W) (Outcome W X)) =
      .stop (.fault (.int (.overflow (.bin .add))) c.shared) := by
  rw [addInts, Stdlib.add, Stdlib.fit, if_neg hfits]

/-- Add one to a slot and go back. -/
theorem increment_goes {loopStart} (hat : CodeAt code c.pc (incrementOps slot loopStart))
    (hslot : c.slots slot = .int cur) (hfits : I64.Fits (cur.toInt + 1)) :
    Goes (step p code) c { c with
      pc := loopStart
      slots := update c.slots slot (.int (Int64.ofInt (cur.toInt + 1))) } := by
  obtain ⟨pc, s, slots, gens, sh⟩ := c
  dsimp only at hslot hat
  have hlin : linear Config.pc (exec p) [.getLocal slot, .constInt 1, .add, .setLocal slot]
      ⟨pc, s, slots, gens, sh⟩ = some ⟨pc + 4, s,
        update slots slot (.int (Int64.ofInt (cur.toInt + 1))), gens, sh⟩ := by
    have hone : (1 : Int64).toInt = 1 := by decide
    simp [exec, hslot, addInts_ok (hone ▸ hfits), hone]
  have hadd : CodeAt code pc [.getLocal slot, .constInt 1, .add, .setLocal slot] := hat.take 4
  have hjump : CodeAt code (pc + 4) [.jump loopStart] := hat.drop 4 (by simp [incrementOps])
  apply (goes_of_linear hadd (by simp) hlin).trans
  apply Goes.one
  rw [step_of_codeAt hjump]
  rfl

theorem increment_overflows {loopStart} (hat : CodeAt code c.pc (incrementOps slot loopStart))
    (hslot : c.slots slot = .int cur) (hfits : ¬ I64.Fits (cur.toInt + 1)) :
    EndsWith (step p code) c (.fault (.int (.overflow (.bin .add))) c.shared) := by
  obtain ⟨pc, s, slots, gens, sh⟩ := c
  dsimp only at hslot hat
  have hlin : linear Config.pc (exec p) [.getLocal slot, .constInt 1]
      ⟨pc, s, slots, gens, sh⟩ = some ⟨pc + 2, .int 1 :: .int cur :: s, slots, gens, sh⟩ := by
    simp [exec, hslot]
  have hpush : CodeAt code pc [.getLocal slot, .constInt 1] := hat.take 2
  apply (goes_of_linear hpush (by simp) hlin).endsWith
  apply EndsWith.of_stop
  have hone : (1 : Int64).toInt = 1 := by decide
  rw [step_of_codeAt hat.tail.tail]
  simp [exec, addInts_overflow (hone.symm ▸ hfits)]

theorem counting_increment (k) (hat : CountingAt code h p.items a b)
    (hinc : CodeAt code c.pc (incrementOps (h.counter b) (h.loopStart a b)))
    (hc : Counts h b c.slots cur stop) (hover : I64.Fits (cur.toInt + 1) ∨ stop = none) :
    Follows (step p code) (CountingRel p h a b) c (h.open' k (cur.toInt + 1) stop c.shared) := by
  by_cases hfits : I64.Fits (cur.toInt + 1)
  · have hgoes := increment_goes (p := p) hinc hc.counter hfits
    apply hgoes.follows
    have hnext : (Int64.ofInt (cur.toInt + 1)).toInt = cur.toInt + 1 :=
      I64.toInt_ofInt_of_fits hfits
    have hopen := counting_open (p := p) k hat
      (c := { c with
        pc := h.loopStart a b
        slots := update c.slots (h.counter b) (.int (Int64.ofInt (cur.toInt + 1))) })
      rfl (.write hc.stop _)
    rw [hnext] at hopen
    exact hopen
  · obtain rfl : stop = none := hover.resolve_left hfits
    rw [open', if_neg hfits]
    exact increment_overflows hinc hc.counter hfits

theorem counting_advance (k) (hat : CountingAt code h p.items a b)
    (hpc : c.pc = h.incTarget p.items a b) (hc : Counts h b c.slots cur stop)
    (hw : within stop h.inclusive cur.toInt = true) :
    Follows (step p code) (CountingRel p h a b) c (h.open' k (cur.toInt + 1) stop c.shared) := by
  have hlast := hat.last
  rw [← hpc] at hlast
  rw [Header.lastTest] at hlast
  cases hs : h.endSlot b with
  | none =>
    have hnone : stop = none := by simpa [hs] using hc.stop
    rw [hs, ite_self] at hlast
    exact counting_increment k hat hlast hc (.inr hnone)
  | some slot =>
    obtain ⟨e, rfl, hslot⟩ := hc.endSlot hs
    cases hi : h.inclusive with
    | false =>
      have hlt : cur.toInt < e.toInt := by simpa [within, hi] using hw
      rw [hi] at hlast
      exact counting_increment k hat hlast hc (.inl (I64.fits_succ_of_lt hlt))
    | true =>
      have hle : cur.toInt ≤ e.toInt := by simpa [within, hi] using hw
      rw [hi, if_pos rfl, hs] at hlast
      have hgoes := test_goes (p := p) (m := cur) (n := e) (fun _ _ _ _ _ => rfl) hlast
        hc.counter hslot
      by_cases heq : cur.toInt = e.toInt
      · -- the last value: leave before the increment
        have hout : within (some e) h.inclusive (cur.toInt + 1) = false := by
          simp [within, hi, heq]
        rw [open', hout]
        simp only [heq, ne_eq, not_true, decide_false] at hgoes
        exact hgoes.endsWith (endsWith_exit hat.length.symm)
      · simp only [heq, ne_eq, not_false_iff, decide_true, if_true] at hgoes
        apply hgoes.follows
        apply Follows.reaches
        have hlt : cur.toInt < e.toInt := by omega
        exact counting_increment (c := { c with pc := c.pc + 4 }) k hat hlast.right hc
          (.inl (I64.fits_succ_of_lt hlt))

/-- A bound lands in its slot. -/
theorem bound_goes {u n sh} (hat : CodeAt code c.pc (boundOps slot (some u) ++ rest))
    (hev : p.eval u c.shared = (sh, .ok n)) : Goes (step p code) c { c with
      pc := c.pc + 3, slots := update c.slots slot (.int n), shared := sh } := by
  apply goes_of_linear hat.left (by simp [boundOps])
  simp [boundOps, exec, hev]

section

variable (hat : CountingAt code h p.items a b)
include hat

/-- The counter starts at the start. -/
theorem counting_start {start} (hinit : CodeAt code c.pc [.getLocal b, .setLocal (h.counter b)])
    (hpc : c.pc + 2 = h.loopStart a b) (hstart : c.slots b = .int start)
    (hstop : stop.map Val.int = (h.endSlot b).map c.slots) :
    Follows (step p code) (CountingRel p h a b) c (h.open' 0 start.toInt stop c.shared) := by
  have hlin : linear Config.pc (exec p) [.getLocal b, .setLocal (h.counter b)] c = some { c with
        pc := c.pc + 2
        slots := update c.slots (h.counter b) (.int start) } := by
    obtain ⟨pc, st, slots, gens, sh⟩ := c
    dsimp only at hstart
    simp [exec, hstart]
  apply (goes_of_linear hinit (by simp) hlin).follows
  exact counting_open (c := { c with
    pc := c.pc + 2, slots := update c.slots (h.counter b) (.int start) }) 0 hat hpc
    (.write hstop start)

theorem counting_enter (hpc : c.pc = a) :
    Follows (step p code) (CountingRel p h a b) c (h.run p (.enter c.shared)) := by
  have hsetup := hat.setup
  rw [← hpc, setup] at hsetup
  rw [run]
  rcases hev : p.eval h.start c.shared with ⟨sh, _ | start⟩
  · exact expr_leaves hsetup hev
  have hgoes := bound_goes hsetup hev
  cases hs : h.stop with
  | none =>
    rw [hs] at hsetup
    apply hgoes.follows
    apply Follows.reaches
    apply counting_start hat hsetup.right
    · simp only [loopStart, setup, hs, boundOps, hpc]
      rfl
    · exact update_self ..
    · simp [endSlot, hs]
  | some stop =>
    rw [hs] at hsetup
    dsimp only
    rcases hev' : p.eval stop sh with ⟨sh', _ | e⟩
    · exact hgoes.endsWith (expr_leaves hsetup.right hev')
    have hgoes' := bound_goes (c := { c with
        pc := c.pc + 3, slots := update c.slots b (.int start), shared := sh })
        hsetup.right hev'
    apply (hgoes.trans hgoes').follows
    apply Follows.reaches
    apply counting_start hat hsetup.right.right
    · simp only [loopStart, setup, hs, boundOps, hpc]
      rfl
    · simp
    · simp [endSlot, hs]

/-- **The counting code follows each step of the loop.** -/
theorem counting_follows (c d)
    (hrel : CountingRel p h a b c d) :
    Follows (step p code) (CountingRel p h a b) c (h.run p d) := by
  cases d with
  | enter s =>
    obtain ⟨hpc, rfl⟩ := hrel
    exact counting_enter hat hpc
  | body k j cur stop view s =>
    apply body_follows hat.body hat.length (incTarget_eq ..) _ hrel
    intro c k cur stop hpc hc hw
    exact counting_advance k hat hpc hc hw

end

end

end ChezziLang.Compiler
