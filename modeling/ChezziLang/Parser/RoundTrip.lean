/-
  A spelled expression parses back to itself.

  One frame of `parse_bp` reads the left spine of a tree in its loop and hands every other
  operand to a new frame.  `Reads e` says what a frame does with the tokens of `e`: whatever
  the loop makes of what comes after `e`, the frame makes of `e` and what comes after it.
  `Follows` says what may come after, as a bound on the next operator's level.  A run may
  also stop at a depth limit; `Outcome` has that as its second case, with the room that was
  missing.

  Proved:
  * `Parses.whole`   - `parse_bp` at a position reads a tree spelled for that position.
  * `parses`         - every well-formed tree is read, by induction over the tree.
  * `spell_inj`      - two trees do not share a spelling.
  * `parse_spelled`  - the round trip of `parse_expr` with the limits of the source.
-/
import ChezziLang.Parser.Expr

namespace ChezziLang.Parser

open List Parser.Expr

/-! ## Tokens and levels -/

theorem infixOp_binaryToken (op) :
    infixOp (binaryToken op) = some (.bin op, level op, level op + 1) := by
  cases op <;> rfl

variable {op : BinaryOp} {Q : (Expr × Nat) × State → Prop} {fold spent : Nat} {room : Prop}
  {rest : List Token} {t : Token}

theorem level_of_isComparison (h : isComparison op = true) : level op = 7 := by
  cases op <;> first | rfl | cases h

theorem isComparison_of_level (h : level op = 7) : isComparison op = true := by
  cases op <;> first | rfl | cases h

theorem level_bounds (op) : 3 ≤ level op ∧ level op ≤ 23 := by
  cases op <;> decide

/-- An operator looser than `..` ends a range. -/
theorem endsRange_of_infixOp {op l r} (h : infixOp t = some (op, l, r)) (hl : l < rangeBp) :
    tokenEndsRange t = true := by
  unfold rangeBp at hl
  cases t <;> simp [infixOp] at h <;> first | rfl | omega

theorem startsPostfix_of_infixOp {i} (h : infixOp t = some i) : startsPostfix t = false := by
  cases t <;> first | rfl | cases h

/-- The tokens that start a spelling. -/
def opens : Token → Bool
  | .ident _ | .lParen | .not | .dotDot | .dotDotEq | .minus | .bang | .question => true
  | _ => false

theorem endsRange_of_opens (h : opens t = true) : tokenEndsRange t = false := by
  cases t <;> first | rfl | cases h

theorem opens_unaryToken (op) : opens (unaryToken op) = true := by
  cases op <;> rfl

/-- No postfix operator follows. -/
def Closes (rest : List Token) : Prop :=
  ∃ t ts, rest = t :: ts ∧ startsPostfix t = false

/-- What may follow an expression: an operator looser than `bound`, or a token that ends
    every expression. -/
def Follows (bound : Nat) (rest : List Token) : Prop :=
  ∃ t ts, rest = t :: ts ∧
    ((∃ op l r, infixOp t = some (op, l, r) ∧ l < bound) ∨
      (infixOp t = none ∧ tokenEndsRange t = true ∧ startsPostfix t = false))

theorem Follows.mono {a b} (h : Follows a rest) (hab : a ≤ b) : Follows b rest := by
  obtain ⟨t, ts, rfl, ⟨op, l, r, ht, hl⟩ | ht⟩ := h
  · exact ⟨t, ts, rfl, .inl ⟨op, l, r, ht, by omega⟩⟩
  · exact ⟨t, ts, rfl, .inr ht⟩

theorem Follows.closes {bound} (h : Follows bound rest) : Closes rest := by
  obtain ⟨t, ts, rfl, ⟨op, l, r, ht, -⟩ | ht⟩ := h
  · exact ⟨t, ts, rfl, startsPostfix_of_infixOp ht⟩
  · exact ⟨t, ts, rfl, ht.2.2⟩

theorem Follows.binary (op) {bound} (h : level op < bound) (ts) :
    Follows bound (binaryToken op :: ts) :=
  ⟨_, ts, rfl, .inl ⟨_, _, _, infixOp_binaryToken op, h⟩⟩

theorem Follows.rParen (bound ts) : Follows bound (.rParen :: ts) :=
  ⟨_, ts, rfl, .inr ⟨rfl, rfl, rfl⟩⟩

theorem Follows.endsRange (h : Follows rangeBp rest) (fold) :
    tokenEndsRange (State.peek ⟨rest, fold⟩) = true := by
  obtain ⟨t, ts, rfl, ⟨op, l, r, ht, hl⟩ | ht⟩ := h
  · exact endsRange_of_infixOp ht hl
  · exact ht.2.1

/-! ## Spellings -/

namespace Expr

/-- The first operator that ends a tree on its right: its own level on a left-associative
    level is one. -/
def tight : Expr → Nat
  | .binary op _ _ => if isComparison op then 7 else level op + 1
  | e => e.lvl

theorem lvl_le_tight (e : Expr) : e.lvl ≤ e.tight := by
  cases e with
  | binary op l r =>
    by_cases h : isComparison op = true
    · simp [lvl, tight, h, level_of_isComparison h]
    · simp [lvl, tight, h]
  | _ => exact le_rfl

theorem size_pos (e : Expr) : 0 < e.size := by
  cases e <;> simp [size]

theorem group_zero (n toks) : group (n < 0) toks = toks := by
  simp [group]

theorem spell_eq (pos) (e : Expr) : e.spell pos = group (e.lvl < pos) (e.spell 0) := by
  cases e <;> rw [spell, spell, group_zero] <;> rfl

theorem spell_of_le {pos} {e : Expr} (h : pos ≤ e.lvl) : e.spell pos = e.spell 0 := by
  rw [spell_eq, group, if_neg (by simpa using h)]

theorem spell_of_lt {pos} {e : Expr} (h : e.lvl < pos) :
    e.spell pos = .lParen :: (e.spell 0 ++ [.rParen]) := by
  rw [spell_eq, group, if_pos (by simpa using h)]

/-- A position as tight as a prefix operator's takes names, prefix operators and groups. -/
theorem spell_unary {pos} {e : Expr} (hpos : pos ≤ 27) (h : e.lvl < pos ∨ 27 ≤ e.lvl) :
    e.spell pos = e.spell 27 := by
  obtain h | h := h
  · rw [spell_of_lt h, @spell_of_lt 27 e (by omega)]
  · rw [spell_of_le (by omega), spell_of_le h]

theorem opens_append {xs ys} (h : ∃ t ts, xs = t :: ts ∧ opens t = true) :
    ∃ t ts, xs ++ ys = t :: ts ∧ opens t = true := by
  obtain ⟨t, ts, rfl, ht⟩ := h
  exact ⟨t, ts ++ ys, rfl, ht⟩

theorem opens_group {b xs} (h : ∃ t ts, xs = t :: ts ∧ opens t = true) :
    ∃ t ts, group b xs = t :: ts ∧ opens t = true := by
  unfold group
  split
  · exact ⟨_, _, rfl, rfl⟩
  · exact h

theorem opens_spell (pos) : (e : Expr) → ∃ t ts, e.spell pos = t :: ts ∧ opens t = true
  | .name x => by
    rw [spell]
    exact opens_group ⟨_, _, rfl, rfl⟩
  | .unary op e => by
    rw [spell]
    exact opens_group ⟨_, _, rfl, opens_unaryToken op⟩
  | .range none stop inclusive => by
    rw [spell]
    apply opens_group
    cases inclusive <;> exact ⟨_, _, rfl, rfl⟩
  | .binary _ l _ | .compare l _ | .range (some l) _ _ | .coalesce l _ => by
    rw [spell]
    exact opens_group (opens_append (opens_spell _ l))

end Expr

/-! ## Outcomes -/

/-- A run that ends as `P` says, or at a depth limit for want of room. -/
def Outcome {α : Type} (room : Prop) (run : Except ParseError α) (P : α → Prop) : Prop :=
  (∃ a, run = .ok a ∧ P a) ∨ (run = .error .tooDeep ∧ ¬ room)

namespace Outcome

variable {α β : Type} {room room' : Prop} {P : α → Prop}

theorem ok {a} (h : P a) : Outcome room (.ok a) P := .inl ⟨a, rfl, h⟩

theorem tooDeep (h : ¬ room) : Outcome room (.error .tooDeep) P := .inr ⟨rfl, h⟩

theorem mono {run Q} (h : Outcome room run P) (hroom : room' → room) (hPQ : ∀ a, P a → Q a) :
    Outcome room' run Q := by
  obtain ⟨a, ha, hP⟩ | ⟨he, hr⟩ := h
  · exact .inl ⟨a, ha, hPQ a hP⟩
  · exact .inr ⟨he, fun hr' => hr (hroom hr')⟩

theorem bind {run} {k : α → Except ParseError β} {Q} (h : Outcome room run P) (hroom : room' → room)
    (hk : ∀ a, P a → Outcome room' (k a) Q) : Outcome room' (run >>= k) Q := by
  obtain ⟨a, rfl, ha⟩ | ⟨rfl, hr⟩ := h
  · exact hk a ha
  · exact tooDeep (fun hr' => hr (hroom hr'))

end Outcome

/-- Enough of both limits for `size` nodes with `need` levels. -/
def Room (lim : Limits) (budget need size : Nat) : Prop :=
  need ≤ budget ∧ lim.maxDepth + 2 * size ≤ lim.maxAstDepth

theorem Room.mono {lim budget need size need' size'} (h : Room lim budget need size)
    (hneed : need' ≤ need) (hsize : size' ≤ size) : Room lim budget need' size' :=
  ⟨hneed.trans h.1, by have := h.2; omega⟩

/-- The parser has read `a` up to `rest`. -/
def Got {α : Type} (a : α) (rest : List Token) (fold : Nat) (r : α × State) : Prop :=
  ∃ f, r = (a, ⟨rest, f⟩) ∧ f ≤ fold

@[simp] theorem peek_cons (t ts fold) : State.peek ⟨t :: ts, fold⟩ = t := rfl

theorem advance_cons (t) {ts} (h : ts ≠ []) (fold) :
    State.advance ⟨t :: ts, fold⟩ = ⟨ts, fold⟩ := by
  cases ts with
  | nil => exact absurd rfl h
  | cons u us => rfl

theorem Closes.ne_nil (h : Closes rest) : rest ≠ [] := by
  obtain ⟨t, ts, rfl, -⟩ := h
  exact cons_ne_nil t ts

/-! ## One frame -/

section

variable (lim : Limits) (budget minBp : Nat)

/-- The loop of a frame. -/
def loop (left : Nat) (lhs : Lhs) (st : State) : Except ParseError ((Expr × Nat) × State) :=
  infixLoop lim (parseBp lim budget) minBp (lim.maxDepth - budget) left lhs st

/-- A frame of `parse_bp`, without the depth that it leaves. -/
def frame (toks : List Token) : Except ParseError ((Expr × Nat) × State) := do
  let (lhs, st) ← parseLead (parseBp lim budget) (parseUnary lim budget) minBp ⟨toks, 0⟩
  loop lim budget minBp lim.maxAstDepth (.expr lhs) st

theorem parseBp_succ (st) : parseBp lim (budget + 1) minBp st = (do
      let ((e, left), st2) ← frame lim budget minBp st.toks
      return (e, { st2 with fold := max st.fold (st2.fold + (lim.maxAstDepth - left)) })) := by
  rw [parseBp, frame, bind_assoc]
  rfl

end

variable {lim : Limits} {budget minBp left : Nat} {lhs : Lhs} {e : Expr} {growing : Prop}
  {toks : List Token}

/-- The loop stops at what follows. -/
theorem loop_stop (h : Follows minBp rest) (left lhs fold) :
    loop lim budget minBp left lhs ⟨rest, fold⟩ = .ok ((lhs.close, left), ⟨rest, fold⟩) := by
  unfold loop
  rw [infixLoop.eq_def]
  obtain ⟨t, ts, rfl, ⟨op, l, r, ht, hl⟩ | ⟨ht, -, -⟩⟩ := h
  · simp only [peek_cons, ht, if_pos hl]
  · simp only [peek_cons, ht]

/-- One round of the loop.  `spent` bounds the folds and the depth of the operands so far. -/
theorem loop_step {ts} {op : InfixOp} {lBp rBp n} {lhs' : Lhs}
    (ht : infixOp t = some (op, lBp, rBp)) (hmin : minBp ≤ lBp) (hts : ts ≠ [])
    (hspent : fold + (lim.maxAstDepth - left) ≤ spent)
    (hroom : room → lim.maxDepth + (spent + 1) ≤ lim.maxAstDepth)
    (hfold : Outcome room
      (infixFold (parseBp lim budget) op rBp (decide (t = .dotDotEq)) lhs ⟨ts, fold⟩)
      (Got lhs' rest n))
    (hk : ∀ {f}, f ≤ n → Outcome room (loop lim budget minBp (left - 1) lhs' ⟨rest, f⟩) Q) :
    Outcome room (loop lim budget minBp left lhs ⟨t :: ts, fold⟩) Q := by
  unfold loop
  rw [infixLoop.eq_def]
  simp only [peek_cons, ht, if_neg (Nat.not_lt.mpr hmin)]
  cases left with
  | zero =>
    refine Outcome.tooDeep (fun hr => ?_)
    have := hroom hr
    omega
  | succ left =>
    by_cases hfull : lim.maxDepth - budget + fold + (lim.maxAstDepth - left) > lim.maxAstDepth
    · simp only [if_pos hfull]
      refine Outcome.tooDeep (fun hr => ?_)
      have := hroom hr
      omega
    simp only [if_neg hfull, advance_cons t hts]
    refine hfold.bind id ?_
    rintro _ ⟨f, rfl, hf⟩
    exact hk hf

/-! ## What a frame does with a tree -/

/-- The loop has read `e`, as an expression unless a comparison may still grow. -/
structure Held (lim : Limits) (e : Expr) (growing : Prop) (spent : Nat) (lhs : Lhs)
    (left fold : Nat) : Prop where
  close : lhs.close = e
  whole : ¬ growing → lhs = .expr e
  left_le : left ≤ lim.maxAstDepth
  spent_le : fold + (lim.maxAstDepth - left) ≤ spent

/-- A frame has ended with `e`. -/
def Ends (lim : Limits) (e : Expr) (rest : List Token) (spent : Nat)
    (r : (Expr × Nat) × State) : Prop :=
  ∃ left f, r = ((e, left), ⟨rest, f⟩) ∧ f + (lim.maxAstDepth - left) ≤ spent

theorem Held.ends (held : Held lim e growing spent lhs left fold) (hrest : Follows minBp rest) :
    Outcome room (loop lim budget minBp left lhs ⟨rest, fold⟩) (Ends lim e rest spent) := by
  rw [loop_stop hrest, held.close]
  exact Outcome.ok ⟨left, fold, rfl, held.spent_le⟩

theorem parseBp_of_frame (h : Outcome room (frame lim budget minBp toks) (Ends lim e rest spent)) :
    Outcome room (parseBp lim (budget + 1) minBp ⟨toks, fold⟩)
      (Got e rest (max fold spent)) := by
  rw [parseBp_succ]
  refine h.bind id ?_
  rintro _ ⟨left, f, rfl, hspent⟩
  exact Outcome.ok ⟨_, rfl, max_le_max_left fold hspent⟩

/-- A frame reads `e` without parentheses and goes on in its loop. -/
def Reads (e : Expr) : Prop :=
  ∀ {lim : Limits} {budget minBp : Nat} {rest : List Token} {room : Prop}
    {Q : (Expr × Nat) × State → Prop}, minBp ≤ e.lvl → Follows e.tight rest →
    (room → Room lim budget (3 * e.size) e.size) →
    (∀ {lhs left fold}, Held lim e (e.lvl = 7) (2 * e.size - 1) lhs left fold →
      Outcome room (loop lim budget minBp left lhs ⟨rest, fold⟩) Q) →
    Outcome room (frame lim budget minBp (e.spell 0 ++ rest)) Q

/-- `parse_unary` reads `e`, with parentheses unless it is a name or has a prefix operator. -/
def ReadsTight (e : Expr) (need spent : Nat) : Prop :=
  ∀ {lim : Limits} {budget fold : Nat} {rest : List Token}, Closes rest →
    Outcome (Room lim budget need e.size)
      (parseUnary lim budget ⟨e.spell 27 ++ rest, fold⟩) (Got e rest (max fold spent))

/-- `parse_bp` reads a tree without parentheses. -/
theorem Reads.whole (h : Reads e) (hmin : minBp ≤ e.lvl) (hrest : Follows minBp rest) :
    Outcome (Room lim budget (3 * e.size + 1) e.size)
      (parseBp lim budget minBp ⟨e.spell 0 ++ rest, fold⟩)
      (Got e rest (max fold (2 * e.size - 1))) := by
  cases budget with
  | zero => exact Outcome.tooDeep (fun hr => by have := hr.1; omega)
  | succ budget =>
    apply parseBp_of_frame
    apply h hmin (hrest.mono (hmin.trans e.lvl_le_tight))
    · intro hr
      exact ⟨by have := hr.1; omega, hr.2⟩
    · intro lhs left fold held
      exact held.ends hrest

/-- `parse_postfix` adds one to the depth of its primary. -/
theorem parsePostfix_of_primary {group} {depth : Nat}
    (h : Outcome room (parsePrimary group ⟨toks, 0⟩) (Got e rest spent))
    (hdepth : depth ≤ lim.maxDepth) (hrest : Closes rest)
    (hroom : room → lim.maxDepth + (spent + 1) ≤ lim.maxAstDepth) :
    Outcome room (parsePostfix lim group depth ⟨toks, fold⟩)
      (Got e rest (max fold (spent + 1))) := by
  refine h.bind id ?_
  rintro _ ⟨f, rfl, hf⟩
  dsimp only
  split
  case isTrue hfull =>
    refine Outcome.tooDeep (fun hr => ?_)
    have := hroom hr
    omega
  case isFalse =>
    obtain ⟨t, ts, rfl, ht⟩ := hrest
    simp only [peek_cons, ht]
    exact Outcome.ok ⟨_, rfl, max_le_max_left fold (Nat.succ_le_succ hf)⟩

/-- A parenthesised tree is a primary. -/
theorem Reads.primary (h : Reads e) (hrest : Closes rest) :
    Outcome (Room lim budget (3 * e.size + 1) e.size)
      (parsePrimary (parseBp lim budget 0) ⟨.lParen :: (e.spell 0 ++ .rParen :: rest), 0⟩)
      (Got e rest (2 * e.size - 1)) := by
  obtain ⟨t, ts, hspell, ht⟩ := e.opens_spell 0
  have hne : e.spell 0 ++ .rParen :: rest ≠ [] := by simp
  have hpeek : State.peek ⟨e.spell 0 ++ .rParen :: rest, 0⟩ ≠ .rParen := by
    rw [hspell]
    rintro rfl
    cases ht
  simp only [parsePrimary, peek_cons, advance_cons _ hne, if_neg hpeek]
  refine (h.whole (Nat.zero_le _) (Follows.rParen 0 rest)).bind id ?_
  rintro _ ⟨f, rfl, hf⟩
  simp only [peek_cons, advance_cons _ hrest.ne_nil]
  exact Outcome.ok ⟨f, rfl, by simpa using hf⟩

theorem Reads.tight (h : Reads e) (hlvl : e.lvl < 27) :
    ReadsTight e (3 * e.size + 2) (2 * e.size) := by
  intro lim budget fold rest hrest
  cases budget with
  | zero => exact Outcome.tooDeep (fun hr => by have := hr.1; omega)
  | succ budget =>
    rw [spell_of_lt hlvl]
    simp only [parseUnary, cons_append, append_assoc, nil_append, peek_cons, unaryOp]
    have hsize : 2 * e.size - 1 + 1 = 2 * e.size := by have := e.size_pos; omega
    rw [← hsize]
    apply parsePostfix_of_primary _ (Nat.sub_le _ _) hrest
    · intro hr
      rw [hsize]
      exact hr.2
    · exact (h.primary hrest).mono (fun hr => ⟨by have := hr.1; omega, hr.2⟩) (fun _ => id)

/-- The first operand of a frame where no `not` and no range starts. -/
theorem parseLead_unary {operand unary st}
    (h : st.peek ≠ .not ∧ st.peek ≠ .dotDot ∧ st.peek ≠ .dotDotEq) :
    parseLead operand unary minBp st = unary st := by
  simp [parseLead, h]

theorem spell_tight_peek (e : Expr) (rest fold) : State.peek ⟨e.spell 27 ++ rest, fold⟩ ≠ .not ∧
      State.peek ⟨e.spell 27 ++ rest, fold⟩ ≠ .dotDot ∧
      State.peek ⟨e.spell 27 ++ rest, fold⟩ ≠ .dotDotEq := by
  by_cases h : e.lvl < 27
  · rw [spell_of_lt h]
    simp
  cases e with
  | name x => simp [spell, group]
  | unary op e => cases op <;> simp [spell, group, lvl, unaryToken] at h ⊢
  | binary op l r => have := level_bounds op; simp only [lvl] at h; omega
  | _ => simp [lvl] at h

/-- A frame whose first operand goes to `parse_unary`. -/
theorem ReadsTight.frame {need} (h : ReadsTight e need spent) (hrest : Closes rest)
    (hroom : room → Room lim budget need e.size)
    (hk : ∀ {fold}, fold ≤ spent →
      Outcome room (loop lim budget minBp lim.maxAstDepth (.expr e) ⟨rest, fold⟩) Q) :
    Outcome room (frame lim budget minBp (e.spell 27 ++ rest)) Q := by
  rw [Parser.frame, parseLead_unary (spell_tight_peek e rest 0)]
  refine (h hrest).bind hroom ?_
  rintro _ ⟨f, rfl, hf⟩
  exact hk (by simpa using hf)

/-- What the tree's own constructor has to show. -/
structure Parses (e : Expr) : Prop where
  reads : Reads e
  tight : ReadsTight e (3 * e.size + 2) (2 * e.size)

/-- A frame reads a tree spelled for the position `pos`. -/
theorem Parses.frame (h : Parses e) {pos} (hpos : pos ≤ 27) (hmin : minBp ≤ pos)
    (hrest : Closes rest) (htight : pos ≤ e.lvl → Follows e.tight rest)
    (hroom : room → Room lim budget (3 * e.size + 2) e.size)
    (hk : ∀ {lhs left fold}, Held lim e (pos ≤ 7) (2 * e.size) lhs left fold →
      Outcome room (loop lim budget minBp left lhs ⟨rest, fold⟩) Q) :
    Outcome room (frame lim budget minBp (e.spell pos ++ rest)) Q := by
  by_cases hlvl : e.lvl < pos
  · rw [spell_unary hpos (.inl hlvl)]
    refine ReadsTight.frame h.tight hrest hroom (fun {fold} hf => ?_)
    exact hk ⟨rfl, fun _ => rfl, le_rfl, by omega⟩
  rw [spell_of_le (by omega)]
  refine h.reads (by omega) (htight (by omega)) ?_ ?_
  · exact fun hr => (hroom hr).mono (by omega) le_rfl
  · intro lhs left fold held
    have := held.spent_le
    exact hk ⟨held.close, fun hp => held.whole (by omega), held.left_le, by omega⟩

/-- **`parse_bp` at a position reads a tree spelled for that position.** -/
theorem Parses.whole (h : Parses e) {pos} (hpos : pos ≤ 27) (hrest : Follows pos rest) :
    Outcome (Room lim budget (3 * e.size + 3) e.size)
      (parseBp lim budget pos ⟨e.spell pos ++ rest, fold⟩)
      (Got e rest (max fold (2 * e.size))) := by
  cases budget with
  | zero => exact Outcome.tooDeep (fun hr => by have := hr.1; omega)
  | succ budget =>
    apply parseBp_of_frame
    apply h.frame hpos (Nat.le_refl pos) hrest.closes
    · intro hle
      exact hrest.mono (hle.trans e.lvl_le_tight)
    · intro hr
      exact ⟨by have := hr.1; omega, hr.2⟩
    · intro lhs left fold held
      exact held.ends hrest

/-! ## One lemma per constructor -/

theorem Reads.parses (h : Reads e) (hlvl : e.lvl < 27) : Parses e := ⟨h, h.tight hlvl⟩

theorem ReadsTight.parses (h : ReadsTight e (3 * e.size) (2 * e.size - 1)) (hlvl : 27 ≤ e.lvl) :
    Parses e := by
  constructor
  · intro lim budget minBp rest room Q hmin hrest hroom hk
    rw [← spell_of_le hlvl]
    refine ReadsTight.frame h hrest.closes hroom (fun {fold} hf => ?_)
    exact hk ⟨rfl, fun _ => rfl, le_rfl, by omega⟩
  intro lim budget fold rest hrest
  refine (h hrest).mono (fun hr => ⟨by have := hr.1; omega, hr.2⟩) ?_
  rintro _ ⟨f, rfl, hf⟩
  exact ⟨f, rfl, by omega⟩

theorem parses_name (x) : Parses (.name x) := by
  refine ReadsTight.parses ?_ (by simp [lvl])
  intro lim budget fold rest hrest
  cases budget with
  | zero => exact Outcome.tooDeep (fun hr => by have := hr.1; simp [size] at this)
  | succ budget =>
    have hprimary : parsePrimary (parseBp lim budget 0) ⟨.ident x :: rest, 0⟩ =
        .ok (.name x, ⟨rest, 0⟩) := by
      simp only [parsePrimary, peek_cons, advance_cons _ hrest.ne_nil]
    rw [show (name x).spell 27 ++ rest = .ident x :: rest from rfl]
    apply @parsePostfix_of_primary fold 0 _ rest lim (.name x) _ _ _ _ (Nat.sub_le _ _) hrest
    · intro hr
      have := hr.2
      simp only [size] at this
      omega
    · rw [hprimary]
      exact Outcome.ok ⟨0, rfl, Nat.le_refl 0⟩

theorem parses_unary {op} (hop : op ≠ .not) (h : Parses e) : Parses (.unary op e) := by
  have hlvl : (unary op e).lvl = 27 := by cases op <;> first | rfl | exact absurd rfl hop
  refine ReadsTight.parses ?_ (Nat.le_of_eq hlvl.symm)
  intro lim budget fold rest hrest
  have htoks : (unary op e).spell 27 ++ rest = unaryToken op :: (e.spell 27 ++ rest) := by
    rw [spell, hlvl, if_neg hop]
    rfl
  have hne : e.spell 27 ++ rest ≠ [] := by simp [hrest.ne_nil]
  have hop' : unaryOp (unaryToken op) = some op := by
    cases op <;> first | rfl | exact absurd rfl hop
  rw [htoks]
  cases budget with
  | zero => exact Outcome.tooDeep (fun hr => by have := hr.1; simp [size] at this)
  | succ budget =>
    simp only [parseUnary, peek_cons, hop', advance_cons _ hne]
    refine (h.tight hrest).bind ?_ ?_
    · rintro ⟨h1, h2⟩
      simp only [size] at h1 h2
      exact ⟨by omega, by omega⟩
    · rintro _ ⟨f, rfl, hf⟩
      simp only [size]
      exact Outcome.ok ⟨f, rfl, by omega⟩

/-- A frame whose first operand is `e` and takes no round of the loop. -/
theorem frame_of_lead {n} (spent)
    (h : Outcome room (parseLead (parseBp lim budget) (parseUnary lim budget) minBp ⟨toks, 0⟩)
      (Got e rest spent)) (hn : spent ≤ n)
    (hk : ∀ {lhs left fold}, Held lim e growing n lhs left fold →
      Outcome room (loop lim budget minBp left lhs ⟨rest, fold⟩) Q) :
    Outcome room (frame lim budget minBp toks) Q := by
  refine h.bind id ?_
  rintro _ ⟨f, rfl, hf⟩
  exact hk ⟨rfl, fun _ => rfl, le_rfl, by omega⟩

theorem parses_not (h : Parses e) : Parses (.unary .not e) := by
  refine Reads.parses ?_ (by simp [lvl])
  intro lim budget minBp rest room Q hmin hrest hroom hk
  have htoks : (unary .not e).spell 0 ++ rest = .not :: (e.spell 6 ++ rest) := rfl
  have hne : e.spell 6 ++ rest ≠ [] := by simp [hrest.closes.ne_nil]
  rw [htoks]
  refine frame_of_lead (2 * e.size) ?_ ?_ hk
  · simp only [parseLead, peek_cons, advance_cons _ hne]
    rw [if_pos ⟨trivial, hmin⟩]
    refine (h.whole (show 6 ≤ 27 by decide) hrest).bind ?_ ?_
    · intro hr
      obtain ⟨h1, h2⟩ := hroom hr
      simp only [size] at h1 h2
      exact ⟨by omega, by omega⟩
    · rintro _ ⟨f, rfl, hf⟩
      exact Outcome.ok ⟨f, rfl, by simpa using hf⟩
  · simp only [size]
    omega

/-- The loop after one more operand. -/
theorem Held.next {e' growing' m f lhs'} (held : Held lim e growing spent lhs left fold)
    (hf : f ≤ max fold m) (hclose : lhs'.close = e') (hwhole : ¬ growing' → lhs' = .expr e') {n}
    (hn : spent + m + 1 ≤ n) : Held lim e' growing' n lhs' (left - 1) f := by
  have h1 := held.left_le
  have h2 := held.spent_le
  exact ⟨hclose, hwhole, by omega, by omega⟩

/-- An operator follows its left operand. -/
theorem level_lt_tight (h : (if isComparison op then 8 else level op) ≤ e.lvl) :
    level op < e.tight := by
  have hle := e.lvl_le_tight
  split at h
  case isTrue hop =>
    have := level_of_isComparison hop
    omega
  case isFalse hop =>
    by_cases heq : level op = e.lvl
    · cases e with
      | binary op' l r =>
        have hop' : isComparison op' = false := by
          rw [Bool.eq_false_iff]
          intro hop'
          exact hop (isComparison_of_level (heq.trans (level_of_isComparison hop')))
        simp only [tight, lvl, hop'] at heq ⊢
        exact Nat.lt_succ_of_le heq.le
      | unary op' e => cases op <;> cases op' <;> cases heq
      | _ => cases op <;> simp [level, lvl, isComparison] at heq hop
    · omega

/-- One round with a binary operator. -/
theorem loop_binary {r} (hr : Parses r) (hmin : minBp ≤ level op)
    (hrest : Follows (level op + 1) rest) (hspent : fold + (lim.maxAstDepth - left) ≤ spent)
    (hroom : room → Room lim budget (3 * r.size + 3) r.size ∧
      lim.maxDepth + (spent + 1) ≤ lim.maxAstDepth)
    (hk : ∀ {f}, f ≤ max fold (2 * r.size) → Outcome room
      (loop lim budget minBp (left - 1)
        (if isComparison op then lhs.link op r else .expr (.binary op lhs.close r))
        ⟨rest, f⟩) Q) : Outcome room
      (loop lim budget minBp left lhs
        ⟨binaryToken op :: (r.spell (level op + 1) ++ rest), fold⟩) Q := by
  have hpos : level op + 1 ≤ 27 := by have := level_bounds op; omega
  have hne : r.spell (level op + 1) ++ rest ≠ [] := by simp [hrest.closes.ne_nil]
  refine loop_step (infixOp_binaryToken op) hmin hne hspent (fun h => (hroom h).2) ?_ hk
  refine (hr.whole hpos hrest).bind (fun h => (hroom h).1) ?_
  rintro _ ⟨f, rfl, hf⟩
  exact Outcome.ok ⟨f, rfl, hf⟩

theorem parses_binary {l r} (hl : Parses l) (hr : Parses r) : Parses (.binary op l r) := by
  have hop := level_bounds op
  refine Reads.parses ?_ (by simp only [lvl]; omega)
  intro lim budget minBp rest room Q hmin hrest hroom hk
  simp only [lvl, size] at hmin hroom
  have htoks : (binary op l r).spell 0 ++ rest =
      l.spell (if isComparison op then 8 else level op) ++
        binaryToken op :: (r.spell (level op + 1) ++ rest) := by
    rw [spell, group_zero, append_assoc, cons_append]
  have hpos : level op ≤ (if isComparison op then 8 else level op) ∧
      (if isComparison op then 8 else level op) ≤ 27 := by
    split
    case isTrue h => have := level_of_isComparison h; omega
    case isFalse => omega
  have hfollows : Follows (level op + 1) rest := by
    apply hrest.mono
    simp only [tight]
    split
    case isTrue h => have := level_of_isComparison h; omega
    case isFalse => exact le_rfl
  rw [htoks]
  apply hl.frame hpos.2 (hmin.trans hpos.1) (Follows.binary op (Nat.lt_succ_self _) _).closes
  · intro hle
    exact Follows.binary op (level_lt_tight hle) _
  · exact fun hr' => (hroom hr').mono (by omega) (by omega)
  intro lhs left fold held
  refine loop_binary hr hmin hfollows held.spent_le ?_ (fun hf => hk ?_)
  · intro hr'
    obtain ⟨h1, h2⟩ := hroom hr'
    exact ⟨⟨by omega, by omega⟩, by omega⟩
  refine held.next hf ?_ ?_ (by simp only [size]; omega)
  · split
    case isTrue h =>
      rw [held.whole (by simp [h])]
      rfl
    case isFalse => rw [held.close]; rfl
  · intro hne
    have h : ¬ isComparison op = true := fun h => hne (level_of_isComparison h)
    rw [if_neg h, held.close]

/-- A tree that is its left operand, an operator and what the fold makes of the rest. -/
theorem parses_binop {l tail op lBp rBp n} (hl : Parses l) (ht : infixOp t = some (op, lBp, rBp))
    (hbp : lBp < 26) (hlvl : e.lvl = lBp) (htight : e.tight = lBp)
    (hspell : e.spell 0 = l.spell (lBp + 1) ++ t :: tail) (hsize : e.size = l.size + n + 1)
    (hfold : ∀ {lim budget room rest lhs fold}, lhs.close = l → Follows lBp rest →
      (room → Room lim budget (3 * n + 3) n) → Outcome room
        (infixFold (parseBp lim budget) op rBp (decide (t = .dotDotEq)) lhs ⟨tail ++ rest, fold⟩)
        (Got (.expr e) rest (max fold (2 * n)))) : Parses e := by
  refine Reads.parses ?_ (by omega)
  intro lim budget minBp rest room Q hmin hrest hroom hk
  rw [htight] at hrest
  have hop (ts : List Token) {bound : Nat} (h : lBp < bound) : Follows bound (t :: ts) :=
    ⟨_, ts, rfl, .inl ⟨_, _, _, ht, h⟩⟩
  rw [hspell, append_assoc, cons_append]
  apply hl.frame (by omega) (by omega) (hop _ (Nat.lt_succ_self lBp)).closes
  · intro hle
    exact hop _ (Nat.lt_of_lt_of_le hle l.lvl_le_tight)
  · exact fun hr => (hroom hr).mono (by omega) (by omega)
  intro lhs left fold held
  refine loop_step ht (by omega) (by simp [hrest.closes.ne_nil]) held.spent_le
    (fun hr => by have := (hroom hr).2; omega)
    (hfold held.close hrest fun hr => (hroom hr).mono (by omega) (by omega)) ?_
  intro f hf
  apply hk
  refine held.next hf ?_ (fun _ => rfl) (by omega)
  rfl

theorem parses_coalesce {l r} (hl : Parses l) (hr : Parses r) : Parses (.coalesce l r) := by
  refine @parses_binop .questionQuestion _ l (r.spell 25) .coalesce 25 25 r.size hl rfl (by decide)
    rfl rfl (by rw [spell, group_zero]) rfl ?_
  intro lim budget room rest lhs fold hclose hrest hroom
  refine (hr.whole (show 25 ≤ 27 by decide) hrest).bind hroom ?_
  rintro _ ⟨f, rfl, hf⟩
  rw [hclose]
  exact Outcome.ok ⟨f, rfl, hf⟩

/-! ## Comparison chains -/

/-- The links of a chain that the loop has read. -/
def Lhs.links (lhs : Lhs) (links : List (BinaryOp × Expr)) : Lhs :=
  links.foldl (fun lhs link => lhs.link link.1 link.2) lhs

theorem Lhs.links_chain (first op second rest links) :
    (Lhs.chain first op second rest).links links = .chain first op second (rest ++ links) := by
  induction links generalizing rest with
  | nil => rw [append_nil]; rfl
  | cons link links ih =>
    rw [append_cons]
    exact ih (rest ++ [link])

variable {links : List (BinaryOp × Expr)} {stop : Option Expr} {inclusive : Bool}

/-- Two comparisons or more close as one chain. -/
theorem Lhs.close_links (first) (h : 2 ≤ links.length) :
    ((Lhs.expr first).links links).close = .compare first links := by
  obtain _ | ⟨⟨op, second⟩, _ | ⟨link, links⟩⟩ := links
  · cases h
  · simp at h
  · exact congrArg Lhs.close (Lhs.links_chain first op second [] (link :: links))

/-- A chain of comparisons that goes on with `links`. -/
def Links (links : List (BinaryOp × Expr)) : Prop :=
  ∀ link ∈ links, isComparison link.1 = true ∧ Parses link.2

theorem follows_links (h : Links links) (hrest : Follows 7 rest) :
    Follows 8 (spellLinks links ++ rest) := by
  cases links with
  | nil => exact hrest.mono (by decide)
  | cons link links =>
    have hop := level_of_isComparison (h link mem_cons_self).1
    exact Follows.binary link.1 (by omega) _

/-- The loop reads every link. -/
theorem loop_links {links} (hlinks : Links links) (hmin : minBp ≤ 7) (hrest : Follows 7 rest)
    {lhs left} (hleft : left ≤ lim.maxAstDepth) (hspent : fold + (lim.maxAstDepth - left) ≤ spent)
    (hroom : room → 3 * sizeLinks links ≤ budget ∧
      lim.maxDepth + (spent + 2 * sizeLinks links) ≤ lim.maxAstDepth)
    (hk : ∀ {left' fold'}, left' ≤ lim.maxAstDepth →
      fold' + (lim.maxAstDepth - left') ≤ spent + 2 * sizeLinks links →
      Outcome room (loop lim budget minBp left' (lhs.links links) ⟨rest, fold'⟩) Q) :
    Outcome room (loop lim budget minBp left lhs ⟨spellLinks links ++ rest, fold⟩) Q := by
  induction links generalizing lhs left fold spent with
  | nil => exact hk hleft hspent
  | cons link links ih =>
    obtain ⟨op, e⟩ := link
    obtain ⟨⟨hop, he⟩, htail⟩ := forall_mem_cons.mp hlinks
    have hlevel := level_of_isComparison hop
    have htoks : spellLinks ((op, e) :: links) ++ rest =
        binaryToken op :: (e.spell (level op + 1) ++ (spellLinks links ++ rest)) := by
      rw [spellLinks, hlevel, cons_append, append_assoc]
    simp only [sizeLinks] at hroom hk
    rw [htoks]
    refine loop_binary he (hmin.trans hlevel.ge) ?_ hspent ?_ (fun {f} hf => ?_)
    · rw [hlevel]
      exact follows_links htail hrest
    · intro hr
      obtain ⟨h1, h2⟩ := hroom hr
      exact ⟨⟨by omega, by omega⟩, by omega⟩
    rw [if_pos hop]
    refine @ih f (spent + 2 * e.size + 2) htail (lhs.link op e) (left - 1) (by omega) (by omega)
      ?_ ?_
    · intro hr
      obtain ⟨h1, h2⟩ := hroom hr
      exact ⟨by omega, by omega⟩
    · intro left' fold' hleft' hspent'
      exact hk hleft' (by omega)

theorem parses_compare {first} (hfirst : Parses first) (hlinks : Links links)
    (hlen : 2 ≤ links.length) : Parses (.compare first links) := by
  refine Reads.parses ?_ (by simp [lvl])
  intro lim budget minBp rest room Q hmin hrest hroom hk
  simp only [lvl, size] at hmin hroom
  have htoks : (compare first links).spell 0 ++ rest =
      first.spell 8 ++ (spellLinks links ++ rest) := by
    rw [spell, group_zero, append_assoc]
  have hfollows := follows_links hlinks hrest
  rw [htoks]
  apply hfirst.frame (by decide) (by omega) hfollows.closes
  · intro hle
    exact hfollows.mono (hle.trans first.lvl_le_tight)
  · exact fun hr => (hroom hr).mono (by omega) (by omega)
  intro lhs left fold held
  rw [held.whole (by decide)]
  refine loop_links hlinks hmin hrest held.left_le held.spent_le ?_ ?_
  · intro hr
    obtain ⟨h1, h2⟩ := hroom hr
    exact ⟨by omega, by omega⟩
  intro left' fold' hleft hspent
  refine hk ⟨Lhs.close_links first hlen, ?_, hleft, by simp only [size]; omega⟩
  intro hne
  exact absurd rfl hne

/-! ## Ranges -/

/-- `parse_range_end` reads the end of a range, or that there is none. -/
theorem parseRangeEnd_spelled (hstop : ∀ e, stop = some e → Parses e) (hrest : Follows rangeBp rest)
    (hincl : inclusive = true → stop ≠ none) :
    Outcome (Room lim budget (3 * sizeBound stop + 3) (sizeBound stop))
      (parseRangeEnd (parseBp lim budget) inclusive ⟨spellBound stop ++ rest, fold⟩)
      (Got stop rest (max fold (2 * sizeBound stop))) := by
  cases stop with
  | none =>
    have hincl' : inclusive = false := by
      rw [Bool.eq_false_iff]
      exact fun h => hincl h rfl
    rw [spellBound, nil_append, parseRangeEnd, if_pos (hrest.endsRange fold), hincl']
    exact Outcome.ok ⟨fold, rfl, le_max_left _ _⟩
  | some e =>
    have hpeek : ¬ tokenEndsRange (State.peek ⟨e.spell 10 ++ rest, fold⟩) = true := by
      obtain ⟨t, ts, hspell, ht⟩ := e.opens_spell 10
      rw [hspell, cons_append, peek_cons, endsRange_of_opens ht]
      decide
    rw [spellBound, parseRangeEnd, if_neg hpeek]
    refine ((hstop e rfl).whole (show rangeBp + 1 ≤ 27 by decide)
      (hrest.mono (Nat.le_succ _))).bind id ?_
    rintro _ ⟨f, rfl, hf⟩
    exact Outcome.ok ⟨f, rfl, hf⟩

theorem infixOp_rangeToken (inclusive) : infixOp (rangeToken inclusive) = some (.range, 9, 10) := by
  cases inclusive <;> rfl

theorem rangeToken_eq (inclusive) : decide (rangeToken inclusive = .dotDotEq) = inclusive := by
  cases inclusive <;> rfl

theorem peek_rangeToken (inclusive ts fold) :
    decide (State.peek ⟨rangeToken inclusive :: ts, fold⟩ = .dotDotEq) = inclusive :=
  rangeToken_eq inclusive

theorem parses_range_prefixed (hstop : ∀ e, stop = some e → Parses e)
    (hincl : inclusive = true → stop ≠ none) :
    Parses (.range none stop inclusive) := by
  refine Reads.parses ?_ (by simp [lvl])
  intro lim budget minBp rest room Q hmin hrest hroom hk
  simp only [lvl, size, sizeBound] at hmin hroom
  have htoks : (range none stop inclusive).spell 0 ++ rest =
      rangeToken inclusive :: (spellBound stop ++ rest) := by
    rw [spell, group_zero]
    rfl
  have hne : spellBound stop ++ rest ≠ [] := by simp [hrest.closes.ne_nil]
  rw [htoks]
  refine frame_of_lead (2 * sizeBound stop) ?_ ?_ hk
  · rw [parseLead, if_neg, if_pos]
    · simp only [peek_rangeToken, advance_cons _ hne]
      refine (parseRangeEnd_spelled hstop hrest hincl).bind ?_ ?_
      · exact fun hr => (hroom hr).mono (by omega) (by omega)
      · rintro _ ⟨f, rfl, hf⟩
        exact Outcome.ok ⟨f, rfl, by simpa using hf⟩
    · refine ⟨?_, hmin⟩
      cases inclusive <;> simp [rangeToken]
    · rintro ⟨h, -⟩
      cases inclusive <;> cases h
  · simp only [size, sizeBound]
    omega

theorem parses_range {start} (hstart : Parses start) (hrange : start.isRange = false)
    (hstop : ∀ e, stop = some e → Parses e) (hincl : inclusive = true → stop ≠ none) :
    Parses (.range (some start) stop inclusive) := by
  refine parses_binop hstart (infixOp_rangeToken inclusive) (by decide) rfl rfl
    (by rw [spell, group_zero]; rfl) rfl ?_
  intro lim budget room rest lhs fold hclose hrest hroom
  rw [rangeToken_eq, infixFold, hclose, hrange, if_neg Bool.false_ne_true]
  refine (parseRangeEnd_spelled hstop hrest hincl).bind hroom ?_
  rintro _ ⟨f, rfl, hf⟩
  exact Outcome.ok ⟨f, rfl, hf⟩

/-! ## Every tree -/

mutual

/-- **Every well-formed tree is read back**, by induction over the tree. -/
theorem parses : (e : Expr) → e.Formed → Parses e
  | .name x, _ => parses_name x
  | .unary op e, h => by
    by_cases hop : op = .not
    · rw [hop]
      exact parses_not (parses e h)
    · exact parses_unary hop (parses e h)
  | .binary _ l r, h => parses_binary (parses l h.1) (parses r h.2)
  | .compare first links, h =>
    parses_compare (parses first h.1) (parses_links links h.2.2) h.2.1
  | .range none stop _, h => parses_range_prefixed (parses_bound stop h.2.1) h.2.2
  | .range (some start) stop _, h =>
    parses_range (parses start h.1.1) h.1.2 (parses_bound stop h.2.1) h.2.2
  | .coalesce l r, h => parses_coalesce (parses l h.1) (parses r h.2)

theorem parses_links : (links : List (BinaryOp × Expr)) → FormedLinks links → Links links
  | [], _ => nofun
  | (_, e) :: rest, h =>
    forall_mem_cons.mpr ⟨⟨h.1, parses e h.2.1⟩, parses_links rest h.2.2⟩

theorem parses_bound : (stop : Option Expr) → FormedBound stop → ∀ e, stop = some e → Parses e
  | none, _ => nofun
  | some e, h => by
    intro e' he
    cases he
    exact parses e h.1

end

/-- `parse_expr` on a spelling, for any limits. -/
theorem parseExpr_spelled (he : e.Formed) (hrest : Follows 0 rest) (lim depth fold) :
    Outcome (3 * e.size + 1 + depth ≤ lim.maxDepth ∧ lim.maxDepth + 2 * e.size ≤ lim.maxAstDepth)
      (parseExpr lim depth fold (e.spell 0 ++ rest)) (Got e rest (max fold (2 * e.size - 1))) := by
  have hreads : Reads e := (parses e he).reads
  refine (hreads.whole (Nat.zero_le _) hrest).mono ?_ (fun _ => id)
  rintro ⟨h1, h2⟩
  exact ⟨by omega, h2⟩

theorem parseExpr_of_room (he : e.Formed) {lim} (hdepth : 3 * e.size + 1 ≤ lim.maxDepth)
    (hfold : lim.maxDepth + 2 * e.size ≤ lim.maxAstDepth) :
    ∃ f, parseExpr lim 0 0 (e.spell 0 ++ [.eof]) = .ok (e, ⟨[.eof], f⟩) := by
  have heof : Follows 0 [.eof] := ⟨.eof, [], rfl, .inr ⟨rfl, rfl, rfl⟩⟩
  obtain ⟨_, hok, f, rfl, -⟩ | ⟨-, hroom⟩ := parseExpr_spelled he heof lim 0 0
  · exact ⟨f, hok⟩
  · exact absurd ⟨hdepth, hfold⟩ hroom

/-- **Two trees do not share a spelling.** -/
theorem spell_inj {e'} (he : e.Formed) (he' : e'.Formed) (h : e.spell 0 = e'.spell 0) : e = e' := by
  -- Both parse within limits that have room for both.
  let lim : Limits := ⟨3 * (e.size + e'.size) + 1, 5 * (e.size + e'.size) + 1⟩
  obtain ⟨f, hf⟩ := @parseExpr_of_room e he lim (by dsimp only [lim]; omega)
    (by dsimp only [lim]; omega)
  obtain ⟨f', hf'⟩ := @parseExpr_of_room e' he' lim (by dsimp only [lim]; omega)
    (by dsimp only [lim]; omega)
  rw [h, hf'] at hf
  injection hf with hpair
  exact (Prod.mk.inj hpair).1.symm

theorem parseExpr_of_ne_tooDeep (he : e.Formed) (hrest : Follows 0 rest) {depth}
    (h : parseExpr lim depth fold (e.spell 0 ++ rest) ≠ .error .tooDeep) :
    ∃ f, parseExpr lim depth fold (e.spell 0 ++ rest) = .ok (e, ⟨rest, f⟩) := by
  obtain ⟨_, hok, f, rfl, -⟩ | ⟨herr, -⟩ := parseExpr_spelled he hrest lim depth fold
  · exact ⟨f, hok⟩
  · exact absurd herr h

/-- **A spelled tree parses back to itself**: `parse_expr` consumes exactly its tokens unless
    it stops at a depth limit, which it does not for a tree whose size is small against
    `MAX_DEPTH`; no other tree has the same spelling; and comparisons in a row are one chain. -/
theorem parse_spelled {e : Expr} (he : e.Formed) {rest : List Token} (hrest : Follows 0 rest)
    (depth fold : Nat) :
    (parseExpr limits depth fold (e.spell 0 ++ rest) ≠ .error .tooDeep →
      ∃ f, parseExpr limits depth fold (e.spell 0 ++ rest) = .ok (e, ⟨rest, f⟩)) ∧
    (3 * e.size + 1 + depth ≤ limits.maxDepth →
      parseExpr limits depth fold (e.spell 0 ++ rest) ≠ .error .tooDeep) ∧
    (∀ e' : Expr, e'.Formed → e.spell 0 = e'.spell 0 → e = e') ∧
    (∀ {a b c : Expr} {op₁ op₂ : BinaryOp}, a.Formed → b.Formed → c.Formed →
      isComparison op₁ = true → isComparison op₂ = true →
      ∀ toks, toks = a.spell 8 ++ binaryToken op₁ :: (b.spell 8 ++ binaryToken op₂ :: c.spell 8) →
      parseExpr limits depth fold (toks ++ rest) ≠ .error .tooDeep →
      ∃ f, parseExpr limits depth fold (toks ++ rest) =
        .ok (.compare a [(op₁, b), (op₂, c)], ⟨rest, f⟩)) := by
  refine ⟨parseExpr_of_ne_tooDeep he hrest, ?_, fun e' he' => spell_inj he he', ?_⟩
  · intro hdepth herr
    obtain ⟨_, hok, -⟩ | ⟨-, hroom⟩ := parseExpr_spelled he hrest limits depth fold
    · rw [hok] at herr
      cases herr
    · apply hroom
      simp only [limits] at hdepth ⊢
      omega
  · intro a b c op₁ op₂ ha hb hc h1 h2 toks htoks
    have hchain : (compare a [(op₁, b), (op₂, c)]).Formed :=
      ⟨ha, Nat.le_refl 2, h1, hb, h2, hc, trivial⟩
    have hspell : (compare a [(op₁, b), (op₂, c)]).spell 0 = toks := by
      rw [htoks, spell, group_zero]
      simp only [spellLinks, append_nil]
    rw [← hspell]
    exact parseExpr_of_ne_tooDeep hchain hrest

theorem parse_spelled_chain :
    ∃ f, parseExpr limits 0 0
        [.not, .ident "a", .lt, .ident "b", .eqEq, .lParen, .ident "c", .dotDot, .rParen,
          .plus, .minus, .ident "d", .eof] =
      .ok (.unary .not (.compare (.name "a") [(.lt, .name "b"),
        (.eq, .binary .add (.range (some (.name "c")) none false) (.unary .neg (.name "d")))]),
        ⟨[.eof], f⟩) := by
  have h := @parse_spelled (.unary .not (.compare (.name "a") [(.lt, .name "b"),
    (.eq, .binary .add (.range (some (.name "c")) none false) (.unary .neg (.name "d")))]))
    (by simp [Formed, FormedLinks, FormedBound, isRange, isComparison])
    [.eof] ⟨.eof, [], rfl, .inr ⟨rfl, rfl, rfl⟩⟩ 0 0
  exact h.1 (h.2.1 (by decide))

end ChezziLang.Parser
