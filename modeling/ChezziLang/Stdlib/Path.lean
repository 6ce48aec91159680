/-
  `std.path`: lexical operations on paths as raw bytes.

  The first part is the code.  What a path denotes is whether it is absolute and the stack its
  pieces leave; `normalize` writes that down, and the slashes between pieces do not change it.

  Proved:
  * `split_eq`, `join_eq`: the byte loops split at and join with a separator.
  * `step_clean`: the stack holds plain names, with `..` only in front of a relative path.
  * `meaning_normalize`: a normalised path denotes what the path does.
  * `meaning_append`: what a path denotes depends on a prefix only through what that denotes.
  * `normalize_dirname_join`: the laws of `normalize`, `dirname`, `basename` and `join`.
-/
import Mathlib.Data.List.Basic

namespace ChezziLang.Stdlib.Path

open List

/-! ## The code -/

abbrev Bytes := List UInt8

/-- `SEP`, the byte of '/'. -/
def sep : UInt8 := 47

/-- The piece `.`. -/
def dot : Bytes := [46]

/-- The piece `..`. -/
def dotdot : Bytes := [46, 46]

/-- `b[i..j]`, inside `b`. -/
def slice (b : Bytes) (i j : Nat) : Bytes := (b.drop i).take (j - i)

structure SplitState where
  out : List Bytes
  start : Nat
  i : Nat

/-- One round of the loop of `_split`, at the byte `x` of `b`. -/
def splitStep (b : Bytes) (sep : UInt8) (s : SplitState) (x : UInt8) : SplitState :=
  if x = sep then ⟨s.out ++ [slice b s.start s.i], s.i + 1, s.i + 1⟩ else { s with i := s.i + 1 }

/-- `_split` after its loop. -/
def splitEnd (b : Bytes) (s : SplitState) : List Bytes := s.out ++ [slice b s.start b.length]

/-- `_split`. -/
def split (b : Bytes) (sep : UInt8) : List Bytes :=
  splitEnd b (b.foldl (splitStep b sep) ⟨[], 0, 0⟩)

/-- The loop of `_last_idx` from `i - 1` down. -/
def lastIdxFrom (b : Bytes) (byte : UInt8) : Nat → Int
  | 0 => -1
  | i + 1 => if b[i]? = some byte then i else lastIdxFrom b byte i

/-- `_last_idx`. -/
def lastIdx (b : Bytes) (byte : UInt8) : Int := lastIdxFrom b byte b.length

/-- One round of the loop of `_join`: the bytes so far, and whether this is the first part. -/
def joinStep (sep : UInt8) (s : Bytes × Bool) (p : Bytes) : Bytes × Bool :=
  ((if s.2 then s.1 else s.1 ++ [sep]) ++ p, false)

/-- `_join`. -/
def joinParts (parts : List Bytes) (sep : UInt8) : Bytes :=
  (parts.foldl (joinStep sep) ([], true)).1

def isAbs (p : Bytes) : Bool := p.length > 0 && p[0]? == some sep

def basename (p : Bytes) : Bytes := slice p (lastIdx p sep + 1).toNat p.length

/-- The loop `while end > 0 and head[end - 1] == SEP: end -= 1`. -/
def trimEnd (head : Bytes) : Nat → Nat
  | 0 => 0
  | e + 1 => if head[e]? = some sep then trimEnd head e else e + 1

def dirname (p : Bytes) : Bytes :=
  let cut := lastIdx p sep
  if cut < 0 then
    []
  else
    let head := slice p 0 cut.toNat
    let allslash := head.foldl (fun ok x => if x ≠ sep then false else ok) (head.length > 0)
    if head.length = 0 ∨ allslash then
      slice p 0 (cut + 1).toNat
    else
      slice head 0 (trimEnd head head.length)

/-- One round of the loop of `normalize`. -/
def step (abs : Bool) (stack : List Bytes) (seg : Bytes) : List Bytes :=
  if seg.length = 0 ∨ seg = dot then
    stack
  else if seg = dotdot then
    let n := stack.length
    if n > 0 ∧ stack[n - 1]? ≠ some dotdot then stack.dropLast
    else if !abs then stack ++ [dotdot]
    else stack
  else
    stack ++ [seg]

def normalize (p : Bytes) : Bytes :=
  let abs := isAbs p
  let stack := (split p sep).foldl (step abs) []
  let body := joinParts stack sep
  if abs then [sep] ++ body
  else if body.length = 0 then dot
  else body

def join (parts : List Bytes) : Bytes :=
  let kept := parts.filter fun part => part.length > 0
  if kept.length = 0 then [] else normalize (joinParts kept sep)

theorem slice_left (a b) : slice (a ++ b) 0 a.length = a := by
  simp [slice]

theorem slice_right (a b) : slice (a ++ b) a.length (a ++ b).length = b := by
  simp [slice]

/-! ## Splitting and joining -/

theorem foldl_splitStep (b rest) : ∀ (before cur : Bytes) (out : List Bytes),
    b = before ++ cur ++ rest → sep ∉ cur →
    splitEnd b (rest.foldl (splitStep b sep) ⟨out, before.length, before.length + cur.length⟩) =
      out ++ (cur ++ rest).splitOn sep := by
  induction rest with
  | nil =>
    intro before cur out hb hcur
    subst hb
    simp [splitEnd, slice, splitOn_eq_singleton hcur]
  | cons x rest ih =>
    intro before cur out hb hcur
    rw [foldl_cons]
    by_cases hx : x = sep
    · have hslice : slice b before.length (before.length + cur.length) = cur := by
        subst hb
        simp [slice]
      have hnext := ih (before ++ cur ++ [x]) [] (out ++ [cur]) (by simp [hb]) (by simp)
      rw [splitStep, if_pos hx, hslice, hx, splitOn_append_cons_self_of_not_mem hcur]
      simp only [length_append, length_singleton, length_nil, Nat.add_zero, nil_append] at hnext
      rw [hnext, append_assoc]
      rfl
    · have hcur' : sep ∉ cur ++ [x] := by
        simp [hcur, Ne.symm hx]
      have hnext := ih before (cur ++ [x]) out (by simp [hb]) hcur'
      rw [splitStep, if_neg hx]
      simp only [length_append, length_singleton, append_assoc,
        singleton_append, ← Nat.add_assoc] at hnext
      exact hnext

theorem split_eq (b) : split b sep = b.splitOn sep := foldl_splitStep b b [] [] [] rfl (by simp)

theorem foldl_joinStep (parts : List Bytes) : ∀ b : Bytes,
    (parts.foldl (joinStep sep) (b, false)).1 = b ++ (parts.map fun p => sep :: p).flatten := by
  induction parts with
  | nil => simp
  | cons p parts ih =>
    intro b
    rw [foldl_cons, joinStep, ih]
    simp

theorem intercalate_cons (p : Bytes) (parts : List Bytes) :
    [sep].intercalate (p :: parts) = p ++ (parts.map fun p => sep :: p).flatten := by
  induction parts generalizing p with
  | nil => simp
  | cons q parts ih => simp [ih]

theorem join_eq (parts : List Bytes) : joinParts parts sep = [sep].intercalate parts := by
  cases parts with
  | nil => rfl
  | cons p parts =>
    rw [intercalate_cons]
    exact foldl_joinStep parts p

theorem intercalate_append {as bs : List Bytes} (ha : as ≠ []) (hb : bs ≠ []) :
    [sep].intercalate (as ++ bs) = [sep].intercalate as ++ sep :: [sep].intercalate bs := by
  obtain ⟨a, as, rfl⟩ := exists_cons_of_ne_nil ha
  obtain ⟨b, bs, rfl⟩ := exists_cons_of_ne_nil hb
  rw [cons_append, intercalate_cons, intercalate_cons, intercalate_cons]
  simp

/-! ## The stack -/

/-- A piece that names something. -/
structure Name (s : Bytes) : Prop where
  nonempty : s ≠ []
  not_dot : s ≠ dot
  no_sep : sep ∉ s

/-- Pieces of a normalised path: `..` only in front, and not in an absolute path. -/
structure Clean (abs : Bool) (stack : List Bytes) : Prop where
  names : ∀ s ∈ stack, Name s
  front : ∃ k rest, stack = replicate k dotdot ++ rest ∧ dotdot ∉ rest ∧ (abs → k = 0)

theorem name_dotdot : Name dotdot := ⟨by decide, by decide, by decide⟩

/-- A `..` finds a name on top of the stack. -/
theorem top_is_name {k rest} (hrest : dotdot ∉ rest) : ((replicate k dotdot ++ rest).length > 0 ∧
      (replicate k dotdot ++ rest)[(replicate k dotdot ++ rest).length - 1]? ≠
        some dotdot) ↔ rest ≠ [] := by
  rw [← getLast?_eq_getElem?]
  rcases eq_nil_or_concat rest with rfl | ⟨rest, x, rfl⟩
  · cases k with
    | zero => simp
    | succ k => simp [getLast?_replicate]
  have hx : x ≠ dotdot := fun h => hrest (by simp [h])
  have hpos : 0 < (replicate k dotdot ++ rest.concat x).length := by
    rw [length_append, length_concat]
    omega
  have hlast : (replicate k dotdot ++ rest.concat x).getLast? = some x := by
    rw [concat_eq_append, ← append_assoc, getLast?_concat]
  rw [hlast]
  exact iff_of_true ⟨hpos, fun h => hx (Option.some.inj h)⟩ (by simp)

variable {stack parts : List Bytes} {p base : Bytes} {abs : Bool}

theorem step_clean {seg} (h : Clean abs stack) (hseg : sep ∉ seg) :
    Clean abs (step abs stack seg) := by
  obtain ⟨hnames, k, rest, rfl, hrest, hk⟩ := h
  rw [step]
  by_cases hskip : seg.length = 0 ∨ seg = dot
  · rw [if_pos hskip]
    exact ⟨hnames, k, rest, rfl, hrest, hk⟩
  rw [if_neg hskip]
  by_cases hdd : seg = dotdot
  · rw [if_pos hdd]
    by_cases htop : rest = []
    · rw [if_neg fun h => (top_is_name hrest).mp h htop]
      subst htop
      rw [append_nil] at hnames ⊢
      cases abs with
      | true => exact ⟨hnames, k, [], (append_nil _).symm, hrest, hk⟩
      | false =>
        refine ⟨forall_mem_append.mpr ⟨hnames, forall_mem_singleton.mpr name_dotdot⟩, k + 1, [], ?_,
          hrest, fun h => nomatch h⟩
        rw [append_nil, replicate_succ']
        rfl
    · rw [if_pos ((top_is_name hrest).mpr htop), dropLast_append_of_ne_nil htop]
      refine ⟨?_, k, rest.dropLast, rfl, fun h => hrest ((dropLast_subset _) h), hk⟩
      intro s hs
      apply hnames s
      exact mem_append.mpr ((mem_append.mp hs).imp_right fun h => dropLast_subset _ h)
  · rw [if_neg hdd]
    have hname : Name seg := ⟨fun h => hskip (.inl (by rw [h]; rfl)), fun h => hskip (.inr h), hseg⟩
    refine ⟨forall_mem_append.mpr ⟨hnames, forall_mem_singleton.mpr hname⟩, k, rest ++ [seg],
      append_assoc .., ?_, hk⟩
    simp [hrest, Ne.symm hdd]

theorem not_mem_of_mem_splitOn (b : Bytes) : ∀ s ∈ b.splitOn sep, sep ∉ s := by
  induction b with
  | nil => simp [splitOn_nil]
  | cons x b ih =>
    rw [splitOn_cons_eq_if_modifyHead]
    obtain ⟨first, others, hsplit⟩ := exists_cons_of_ne_nil (@splitOn_ne_nil _ _ sep b)
    rw [hsplit] at ih ⊢
    by_cases hx : x = sep
    · rw [if_pos (beq_iff_eq.mpr hx)]
      exact forall_mem_cons.mpr ⟨not_mem_nil, ih⟩
    · rw [if_neg (by simp [hx])]
      obtain ⟨hfirst, hothers⟩ := forall_mem_cons.mp ih
      exact forall_mem_cons.mpr ⟨by simp [Ne.symm hx, hfirst], hothers⟩

theorem foldl_clean (abs) (segs : List Bytes) : ∀ {stack : List Bytes}, Clean abs stack →
    (∀ s ∈ segs, sep ∉ s) → Clean abs (segs.foldl (step abs) stack) := by
  induction segs with
  | nil => exact fun h _ => h
  | cons seg segs ih =>
    intro stack h hsegs
    exact ih (step_clean h (hsegs seg mem_cons_self))
      (forall_mem_cons.mp hsegs).2

theorem clean_nil (abs) : Clean abs [] :=
  ⟨fun _ h => (nomatch h), 0, [], rfl, not_mem_nil, fun _ => rfl⟩

/-! ## A clean stack is kept as it is -/

theorem foldl_names {rest : List Bytes} (hnames : ∀ s ∈ rest, Name s) (hrest : dotdot ∉ rest) :
    ∀ stack, rest.foldl (step abs) stack = stack ++ rest := by
  induction rest with
  | nil => exact fun stack => (append_nil stack).symm
  | cons s rest ih =>
    intro stack
    have hs := hnames s mem_cons_self
    have hskip : ¬ (s.length = 0 ∨ s = dot) := by
      rintro (h | h)
      · exact hs.nonempty (length_eq_zero_iff.mp h)
      · exact hs.not_dot h
    have hdd : s ≠ dotdot := fun h => hrest (h ▸ mem_cons_self)
    rw [foldl_cons, step, if_neg hskip, if_neg hdd, ih (forall_mem_cons.mp hnames).2
        (fun h => hrest (.tail _ h)), append_assoc]
    rfl

theorem foldl_dotdots (k) : ∀ j, (replicate k dotdot).foldl (step false) (replicate j dotdot) =
      replicate (j + k) dotdot := by
  induction k with
  | zero => exact fun _ => rfl
  | succ k ih =>
    intro j
    have hpush : step false (replicate j dotdot) dotdot = replicate (j + 1) dotdot := by
      have htop := @top_is_name j [] not_mem_nil
      rw [append_nil] at htop
      rw [step, if_neg (by decide), if_pos rfl, if_neg fun h => htop.mp h rfl, replicate_succ']
      rfl
    rw [replicate_succ, foldl_cons, hpush, ih, Nat.add_right_comm, Nat.add_assoc]

theorem foldl_of_clean (h : Clean abs stack) : stack.foldl (step abs) [] = stack := by
  obtain ⟨hnames, k, rest, rfl, hrest, hk⟩ := h
  have hrest' := @foldl_names abs rest (fun s hs => hnames s (mem_append_right _ hs)) hrest
  rw [foldl_append, hrest']
  cases abs with
  | true =>
    rw [hk rfl]
    rfl
  | false =>
    have hdots := foldl_dotdots k 0
    rw [Nat.zero_add] at hdots
    exact congrArg (· ++ rest) hdots

/-! ## What a path denotes -/

/-- Whether the path is absolute, and the stack its pieces leave. -/
def meaning (p : Bytes) : Bool × List Bytes :=
  (isAbs p, (p.splitOn sep).foldl (step (isAbs p)) [])

def render (m : Bool × List Bytes) : Bytes :=
  if m.1 then sep :: [sep].intercalate m.2
  else if m.2 = [] then dot
  else [sep].intercalate m.2

theorem meaning_clean (p : Bytes) : Clean (isAbs p) (meaning p).2 :=
  foldl_clean _ _ (clean_nil _) (not_mem_of_mem_splitOn p)

theorem intercalate_eq_nil_iff (h : ∀ s ∈ stack, Name s) :
    [sep].intercalate stack = [] ↔ stack = [] := by
  cases stack with
  | nil => simp
  | cons s stack =>
    have hs := (h s mem_cons_self).nonempty
    rw [intercalate_cons]
    simp [hs]

theorem normalize_eq (p) : normalize p = render (meaning p) := by
  have hnil := intercalate_eq_nil_iff (meaning_clean p).names
  simp only [normalize, split_eq, join_eq, render, length_eq_zero_iff]
  change (if isAbs p then _ else if [sep].intercalate (meaning p).2 = [] then _ else _) =
    if isAbs p then _ else _
  simp only [hnil]
  rfl

theorem isAbs_cons (x) (p : Bytes) : isAbs (x :: p) = (x == sep) := by
  simp [isAbs]

theorem isAbs_append (hp : p ≠ []) (q) : isAbs (p ++ q) = isAbs p := by
  obtain ⟨x, p, rfl⟩ := exists_cons_of_ne_nil hp
  rw [cons_append, isAbs_cons, isAbs_cons]

/-- What a path denotes depends on what comes before a slash only through what that denotes. -/
theorem meaning_append (hp : p ≠ []) (q : Bytes) : meaning (p ++ sep :: q) =
      ((meaning p).1, (q.splitOn sep).foldl (step (meaning p).1) (meaning p).2) := by
  rw [meaning, isAbs_append hp, splitOn_append_cons_self, foldl_append]
  rfl

theorem step_empty (abs stack) : step abs stack [] = stack := if_pos (.inl rfl)

theorem meaning_snoc (hp : p ≠ []) : meaning (p ++ [sep]) = meaning p := by
  rw [meaning_append hp, splitOn_nil, foldl_cons, step_empty]
  rfl

theorem splitOn_sep_cons (q : Bytes) : (sep :: q).splitOn sep = [] :: q.splitOn sep :=
  splitOn_append_cons_self [] q

theorem meaning_double (p q : Bytes) : meaning (p ++ sep :: sep :: q) = meaning (p ++ sep :: q) := by
  by_cases hp : p = []
  · subst hp
    rw [nil_append, nil_append, meaning, meaning, isAbs_cons, isAbs_cons,
      splitOn_sep_cons, splitOn_sep_cons, foldl_cons, step_empty]
  · rw [meaning_append hp, meaning_append hp, splitOn_sep_cons, foldl_cons, step_empty]

theorem meaning_slashes (m) (p q : Bytes) :
    meaning (p ++ replicate m sep ++ sep :: q) = meaning (p ++ sep :: q) := by
  induction m with
  | zero => rw [replicate_zero, append_nil]
  | succ m ih =>
    rw [← ih, ← meaning_double (p ++ replicate m sep) q, replicate_succ']
    simp

theorem Clean.splitOn (h : Clean abs stack) (hne : stack ≠ []) :
    ([sep].intercalate stack).splitOn sep = stack :=
  splitOn_intercalate sep (fun s hs => (h.names s hs).no_sep) hne

/-- Writing down a clean stack and reading it back. -/
theorem meaning_render (h : Clean abs stack) : meaning (render (abs, stack)) = (abs, stack) := by
  rw [render]
  cases abs with
  | true =>
    rw [if_pos rfl, meaning, isAbs_cons, splitOn_sep_cons, foldl_cons, step_empty]
    by_cases hnil : stack = []
    · subst hnil
      rfl
    · rw [h.splitOn hnil]
      exact congrArg (Prod.mk true) (foldl_of_clean h)
  | false =>
    rw [if_neg Bool.false_ne_true]
    by_cases hnil : stack = []
    · subst hnil
      rfl
    rw [if_neg hnil, meaning, h.splitOn hnil]
    have habs : isAbs ([sep].intercalate stack) = false := by
      obtain ⟨s, rest, rfl⟩ := exists_cons_of_ne_nil hnil
      have hs := h.names s mem_cons_self
      obtain ⟨x, s, rfl⟩ := exists_cons_of_ne_nil hs.nonempty
      have hx : x ≠ sep := fun hx => hs.no_sep (hx ▸ mem_cons_self)
      rw [intercalate_cons, cons_append, isAbs_cons]
      simp [hx]
    rw [habs]
    exact congrArg (Prod.mk false) (foldl_of_clean h)

theorem meaning_normalize (p) : meaning (normalize p) = meaning p := by
  rw [normalize_eq]
  exact meaning_render (meaning_clean p)

theorem normalize_ne_nil (p) : normalize p ≠ [] := by
  rw [normalize_eq, render]
  split_ifs with _ hnil
  · exact cons_ne_nil _ _
  · decide
  · exact fun h => hnil ((intercalate_eq_nil_iff (meaning_clean p).names).mp h)

/-! ## `dirname` and `basename` -/

theorem lastIdx_absent {b} (hb : sep ∉ b) : lastIdx b sep = -1 := by
  have hfrom : ∀ n, lastIdxFrom b sep n = -1 := by
    intro n
    induction n with
    | zero => rfl
    | succ n ih => rw [lastIdxFrom, if_neg fun h => hb (mem_of_getElem? h), ih]
  exact hfrom b.length

theorem lastIdx_last (head : Bytes) (hbase : sep ∉ base) :
    lastIdx (head ++ sep :: base) sep = head.length := by
  have hfrom : ∀ n, lastIdxFrom (head ++ sep :: base) sep (head.length + 1 + n) = head.length := by
    intro n
    induction n with
    | zero =>
      rw [Nat.add_zero, lastIdxFrom, if_pos]
      simp
    | succ n ih =>
      rw [← Nat.add_assoc, lastIdxFrom, if_neg, ih]
      intro h
      rw [getElem?_append_right (by omega), Nat.add_assoc, Nat.add_sub_cancel_left,
        Nat.add_comm 1, getElem?_cons_succ] at h
      exact hbase (mem_of_getElem? h)
  rw [lastIdx, ← hfrom base.length]
  congr 1
  simp
  omega

/-- A path with a slash, cut at the last one. -/
theorem cut_last (hp : sep ∈ p) : ∃ head base, p = head ++ sep :: base ∧ sep ∉ base := by
  obtain ⟨as, bs, hsplit, has⟩ := eq_append_cons_of_mem (mem_reverse.mpr hp)
  refine ⟨bs.reverse, as.reverse, ?_, by simpa using has⟩
  rw [← reverse_reverse p, hsplit]
  simp

theorem basename_absent (hp : sep ∉ p) : basename p = p := by
  simp [basename, lastIdx_absent hp, slice]

theorem basename_last (head : Bytes) (hbase : sep ∉ base) :
    basename (head ++ sep :: base) = base := by
  have hcut : ((head.length : Int) + 1).toNat = (head ++ [sep]).length := by simp
  rw [basename, lastIdx_last head hbase, hcut, append_cons]
  exact slice_right _ base

theorem trimEnd_spec (head : Bytes) : ∀ n ≤ head.length, trimEnd head n ≤ n ∧
      head.take n = head.take (trimEnd head n) ++ replicate (n - trimEnd head n) sep := by
  intro n
  induction n with
  | zero => simp [trimEnd]
  | succ n ih =>
    intro hn
    obtain ⟨hle, heq⟩ := ih (by omega)
    rw [trimEnd]
    split
    · next hsep =>
      obtain ⟨hlt, hval⟩ := List.getElem?_eq_some_iff.mp hsep
      refine ⟨by omega, ?_⟩
      rw [take_succ_eq_append_getElem hlt, heq, hval, append_assoc,
        ← replicate_succ', Nat.succ_sub hle]
    · simp

theorem allslash_iff (head : Bytes) (ok) :
    head.foldl (fun ok x => if x ≠ sep then false else ok) ok = true ↔
      ok = true ∧ ∀ x ∈ head, x = sep := by
  induction head generalizing ok with
  | nil => simp
  | cons x head ih =>
    rw [foldl_cons, ih]
    by_cases hx : x = sep <;> simp [hx]

/-- The directory of a path with a slash denotes what comes before the last slash. -/
theorem dirname_last (head : Bytes) (hbase : sep ∉ base) : dirname (head ++ sep :: base) ≠ [] ∧
      ∀ q, meaning (dirname (head ++ sep :: base) ++ sep :: q) = meaning (head ++ sep :: q) := by
  have hhead : slice (head ++ sep :: base) 0 (head.length : Int).toNat = head := slice_left head _
  have hkept : slice (head ++ sep :: base) 0 ((head.length : Int) + 1).toNat = head ++ [sep] := by
    have hcut : ((head.length : Int) + 1).toNat = (head ++ [sep]).length := by simp
    rw [hcut, append_cons]
    exact slice_left _ base
  rw [dirname, lastIdx_last head hbase, if_neg (by omega)]
  dsimp only
  rw [hhead, hkept]
  split
  · refine ⟨by simp, ?_⟩
    intro q
    rw [append_assoc]
    exact meaning_double head q
  next hnot =>
  obtain ⟨hle, heq⟩ := trimEnd_spec head head.length (Nat.le_refl _)
  rw [take_length] at heq
  have htrim : slice head 0 (trimEnd head head.length) = head.take (trimEnd head head.length) := by
    simp [slice]
  rw [htrim]
  refine ⟨?_, ?_⟩
  · intro hnil
    apply hnot
    rw [hnil, nil_append] at heq
    rw [allslash_iff]
    by_cases hlen : head.length = 0
    · exact .inl hlen
    · refine .inr ⟨by simpa using Nat.pos_of_ne_zero hlen, ?_⟩
      intro x hx
      rw [heq] at hx
      exact eq_of_mem_replicate hx
  · intro q
    conv_rhs => rw [heq]
    exact (meaning_slashes _ _ q).symm

theorem normalize_congr {q} (h : meaning p = meaning q) : normalize p = normalize q := by
  rw [normalize_eq, normalize_eq, h]

/-! ## `join` -/

/-- The parts that are not empty. -/
def kept (parts : List Bytes) : List Bytes := parts.filter fun part => part.length > 0

theorem kept_nil_cons (parts) : kept ([] :: parts) = kept parts := rfl

theorem kept_cons (hp : p ≠ []) (parts) : kept (p :: parts) = p :: kept parts :=
  filter_cons_of_pos (decide_eq_true (length_pos_iff.mpr hp))

theorem join_of_kept_nil (h : kept parts = []) : join parts = [] :=
  if_pos (length_eq_zero_iff.mpr h)

theorem join_of_kept (h : kept parts ≠ []) :
    join parts = normalize ([sep].intercalate (kept parts)) := by
  rw [← join_eq]
  exact if_neg fun hlen => h (length_eq_zero_iff.mp hlen)

theorem join_congr {xs ys} (h : kept xs = kept ys) : join xs = join ys := by
  by_cases hx : kept xs = []
  · rw [join_of_kept_nil hx, join_of_kept_nil (h ▸ hx)]
  · rw [join_of_kept hx, join_of_kept (h ▸ hx), h]

theorem intercalate_kept_ne_nil (h : kept parts ≠ []) : [sep].intercalate (kept parts) ≠ [] := by
  obtain ⟨a, as, hkept⟩ := exists_cons_of_ne_nil h
  have ha : a ∈ kept parts := hkept ▸ mem_cons_self
  have hne : a ≠ [] := length_pos_iff.mp (of_decide_eq_true (mem_filter.mp ha).2)
  rw [hkept, intercalate_cons]
  simp [hne]

theorem join_append (xs ys) : join (xs ++ ys) = join (join xs :: ys) := by
  have happ : kept (xs ++ ys) = kept xs ++ kept ys := filter_append ..
  by_cases hx : kept xs = []
  · apply join_congr
    rw [happ, hx, join_of_kept_nil hx, kept_nil_cons, nil_append]
  have hjoin := join_of_kept hx
  have hne : join xs ≠ [] := hjoin ▸ normalize_ne_nil _
  have hcons := kept_cons hne ys
  have hmeaning : meaning (join xs) = meaning ([sep].intercalate (kept xs)) := by
    rw [hjoin, meaning_normalize]
  have hboth : kept (xs ++ ys) ≠ [] := by simp [happ, hx]
  rw [join_of_kept hboth, happ, join_of_kept (hcons ▸ cons_ne_nil _ _), hcons]
  apply normalize_congr
  by_cases hy : kept ys = []
  · rw [hy, append_nil, ← hmeaning]
    simp
  rw [intercalate_append hx hy, meaning_append (intercalate_kept_ne_nil hx), ← hmeaning,
    ← meaning_append hne]
  have hpair := @intercalate_append [join xs] (kept ys) (cons_ne_nil _ _) hy
  rw [intercalate_singleton] at hpair
  exact congrArg meaning hpair.symm

theorem join_one {d : Bytes} (hd : d ≠ []) : join [d, []] = normalize d := by
  have hkept : kept [d, []] = [d] := kept_cons hd _
  rw [join_of_kept (hkept ▸ cons_ne_nil _ _), hkept, intercalate_singleton]

theorem join_two {d q : Bytes} (hd : d ≠ []) (hq : q ≠ []) :
    join [d, q] = normalize (d ++ sep :: q) := by
  have hkept : kept [d, q] = [d, q] := by
    rw [kept_cons hd, kept_cons hq]
    rfl
  have hne : kept [d, q] ≠ [] := by
    rw [hkept]
    exact cons_ne_nil _ _
  rw [join_of_kept hne, hkept, intercalate_cons]
  simp

theorem join_dirname_basename (hp : p ≠ []) : join [dirname p, basename p] = normalize p := by
  by_cases hsep : sep ∈ p
  · obtain ⟨head, base, rfl, hbase⟩ := cut_last hsep
    obtain ⟨hd, hmeaning⟩ := dirname_last head hbase
    rw [basename_last head hbase]
    by_cases hnil : base = []
    · subst hnil
      rw [join_one hd]
      apply normalize_congr
      rw [← meaning_snoc hd, hmeaning]
    · rw [join_two hd hnil]
      exact normalize_congr (hmeaning base)
  · have hdir : dirname p = [] := by
      rw [dirname, lastIdx_absent hsep]
      rfl
    rw [hdir, basename_absent hsep, ← join_one hp]
    apply join_congr
    rw [kept_nil_cons, kept_cons hp, kept_cons hp]
    rfl

/-! ## The laws -/

/-- The elements of a path: what is between its slashes, after the one of an absolute path. -/
def elements (p : Bytes) : List Bytes :=
  if p = [sep] then [] else if isAbs p then p.tail.splitOn sep else p.splitOn sep

theorem isAbs_normalize (p) : isAbs (normalize p) = isAbs p :=
  congrArg Prod.fst (meaning_normalize p)

/-- The elements of a normalised path are the stack, unless that is empty and written `.`. -/
theorem elements_normalize (p) : normalize p = dot ∨ elements (normalize p) = (meaning p).2 := by
  have hclean := meaning_clean p
  have habs := isAbs_normalize p
  rw [normalize_eq, render] at habs ⊢
  change isAbs (if isAbs p then _ else _) = _ at habs
  change (if isAbs p then _ else _) = dot ∨ elements (if isAbs p then _ else _) = _
  by_cases hp : isAbs p
  · rw [if_pos hp] at habs ⊢
    refine .inr ?_
    by_cases hnil : (meaning p).2 = []
    · rw [hnil]
      rfl
    have hbody : sep :: [sep].intercalate (meaning p).2 ≠ [sep] := by
      intro h
      exact hnil ((intercalate_eq_nil_iff hclean.names).mp (cons.inj h).2)
    rw [elements, if_neg hbody, habs, if_pos hp, tail_cons, hclean.splitOn hnil]
  · rw [if_neg hp] at habs ⊢
    by_cases hnil : (meaning p).2 = []
    · exact .inl (if_pos hnil)
    rw [if_neg hnil] at habs ⊢
    refine .inr ?_
    have hbody : [sep].intercalate (meaning p).2 ≠ [sep] := by
      intro h
      rw [h] at habs
      exact hp habs.symm
    rw [elements, if_neg hbody, habs, if_neg hp, hclean.splitOn hnil]

/-- **`normalize` is a normal form, `dirname` and `basename` take a path apart, and `join` can be
done in parts.**  A normalised path has no empty element, and a `.` only as the whole path. -/
theorem normalize_dirname_join :
    (∀ p, normalize (normalize p) = normalize p ∧ isAbs (normalize p) = isAbs p ∧
      (∀ e ∈ elements (normalize p), e ≠ [] ∧ (e = dot → normalize p = dot)) ∧
      ∃ k rest, elements (normalize p) = List.replicate k dotdot ++ rest ∧ dotdot ∉ rest ∧
        (isAbs p → k = 0)) ∧
    (∀ p, p ≠ [] → join [dirname p, basename p] = normalize p) ∧
    ∀ xs ys, join (xs ++ ys) = join ([join xs] ++ ys) := by
  refine ⟨?_, fun p hp => join_dirname_basename hp, join_append⟩
  intro p
  refine ⟨normalize_congr (meaning_normalize p), isAbs_normalize p, ?_⟩
  rcases elements_normalize p with hdot | helements
  · rw [hdot]
    refine ⟨by decide, 0, [dot], by decide, by decide, fun _ => rfl⟩
  have hclean := meaning_clean p
  rw [helements]
  refine ⟨?_, hclean.front⟩
  intro e he
  have hname := hclean.names e he
  exact ⟨hname.nonempty, fun hdot => absurd hdot hname.not_dot⟩

theorem normalize_dirname_join_etc :
    normalize [47, 101, 116, 99, 47] = [47, 101, 116, 99] ∧
      join [dirname [47, 101, 116, 99, 47], basename [47, 101, 116, 99, 47]] =
        normalize [47, 101, 116, 99, 47] :=
  ⟨by decide, normalize_dirname_join.2.1 [47, 101, 116, 99, 47] (by decide)⟩

/-- The empty path is normalised to `.`, whose one element is a `.`. -/
theorem normalize_empty_has_dot : dot ∈ elements (normalize []) := by
  decide

end ChezziLang.Stdlib.Path
