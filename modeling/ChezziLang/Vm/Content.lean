/-
  What a value holds, with sharing unfolded: a finite tree, read off the heap by `content`.

  `content` has an answer exactly when the value nests less than the fuel, so a cyclic value
  has none.  `same` is when two trees stand for equal values: numbers by the number, bytes and
  byte arrays by their bytes, maps and sets without regard to order.

  Proved:
  * `same_refl`, `same_trans`, `same_symm`: equality of contents is an equivalence; the last
    needs the keys of a map, and the elements of a set, to differ from each other.
  * `content_mono`, `content_frame`: a content does not depend on the fuel, nor on objects
    the value does not reach.
-/
import ChezziLang.Lib.Cover
import ChezziLang.Vm.Heap

namespace ChezziLang.Vm

open Lib HashIndex List Option

/-! ## Trees -/

/-- A number: an int, or a float in its box. -/
inductive Num where
  | int (n : Int64)
  | float (box : Handle) (bits : BitVec 64)
  deriving DecidableEq

inductive Leaf where
  | num (x : Num)
  | bool (b : Bool)
  | nil
  | str (s : List UInt8)
  | bytes (b : List UInt8)
  | byteArray (b : List UInt8)
  | builtin (name : String)
  | core (kind : CoreKind) (addr : Nat)
  | slot (h : Handle)
  deriving DecidableEq

/-- What is compared part by part, in order. -/
inductive Shape where
  | list
  | tuple
  | struct (tid : Nat)
  | enum (variantId : Nat)
  deriving DecidableEq

inductive Tree where
  | leaf (a : Leaf)
  | node (s : Shape) (kids : List Tree)
  | map (entries : List (Tree × Tree))
  | set (elems : List Tree)

variable {t : Tree} {p : Tree → Prop}

namespace Tree

def kids : Tree → List Tree
  | .leaf _ => []
  | .node _ ts => ts
  | .map es => es.flatMap fun e => [e.1, e.2]
  | .set ts => ts

theorem sizeOf_lt_of_mem_kids {c} (h : c ∈ t.kids) : sizeOf c < sizeOf t := by
  cases t with
  | leaf a => cases h
  | node s ts =>
    have := sizeOf_lt_of_mem (show c ∈ ts from h)
    simp only [node.sizeOf_spec]
    omega
  | map es =>
    obtain ⟨⟨k, v⟩, he, hc⟩ := mem_flatMap.mp h
    have := sizeOf_lt_of_mem he
    have hpair : sizeOf c < sizeOf (k, v) := by
      simp only [mem_cons, not_mem_nil, or_false] at hc
      rcases hc with rfl | rfl <;> simp only [Prod.mk.sizeOf_spec] <;> omega
    simp only [map.sizeOf_spec]
    omega
  | set ts =>
    have := sizeOf_lt_of_mem (show c ∈ ts from h)
    simp only [set.sizeOf_spec]
    omega

theorem induct {P : Tree → Prop} (h : ∀ t, (∀ c ∈ t.kids, P c) → P t) (t) : P t := h t fun c hc =>
    have := sizeOf_lt_of_mem_kids hc
    induct h c
termination_by sizeOf t

/-- `p` holds of every part. -/
inductive All (p : Tree → Prop) : Tree → Prop where
  | intro {t : Tree} (here : p t) (parts : ∀ c ∈ t.kids, All p c) : All p t

theorem All.here (h : t.All p) : p t := by
  cases h
  assumption

theorem All.part {c} (h : t.All p) (hc : c ∈ t.kids) : c.All p := by
  cases h with
  | intro _ hparts => exact hparts c hc

theorem all_iff : t.All p ↔ p t ∧ ∀ c ∈ t.kids, c.All p :=
  ⟨fun h => ⟨h.here, fun _ hc => h.part hc⟩, fun h => .intro h.1 h.2⟩

theorem All.mono {q} (hpq : ∀ t, p t → q t) (h : t.All p) : t.All q := by
  induction h with
  | intro here _ ih => exact .intro (hpq _ here) ih

end Tree

/-! ## Equal contents -/

/-- What a leaf is compared by.  A NaN is equal to itself alone, as one box. -/
inductive Norm where
  | num (units : Int)
  | nan (box : Handle) (bits : BitVec 64)
  | bool (b : Bool)
  | nil
  | str (s : List UInt8)
  | bytes (b : List UInt8)
  | builtin (name : String)
  | core (kind : CoreKind) (addr : Nat)
  | slot (h : Handle)
  deriving DecidableEq

def Num.norm : Num → Norm
  | .int n => .num (n.toInt * F64.one)
  | .float box w => if F64.isNan w then .nan box w else .num (F64.units w)

def Leaf.norm : Leaf → Norm
  | .num x => x.norm
  | .bool b => .bool b
  | .nil => .nil
  | .str s => .str s
  | .bytes b => .bytes b
  | .byteArray b => .bytes b
  | .builtin name => .builtin name
  | .core kind addr => .core kind addr
  | .slot h => .slot h

namespace Tree

mutual

/-- Equal contents. -/
def same : Tree → Tree → Bool
  | .leaf a, .leaf b => decide (a.norm = b.norm)
  | .node s xs, .node t ys => decide (s = t) && sameAll xs ys
  | .map xs, .map ys => decide (xs.length = ys.length) && coverEntries xs ys
  | .set xs, .set ys => decide (xs.length = ys.length) && coverElems xs ys
  | _, _ => false
termination_by structural t => t

def sameAll : List Tree → List Tree → Bool
  | [], [] => true
  | x :: xs, y :: ys => same x y && sameAll xs ys
  | _, _ => false
termination_by structural t => t

def coverEntries : List (Tree × Tree) → List (Tree × Tree) → Bool
  | [], _ => true
  | e :: xs, ys => ys.any (fun f => sameEntry e f) && coverEntries xs ys
termination_by structural t => t

def sameEntry : Tree × Tree → Tree × Tree → Bool
  | (k, v), f => same k f.1 && same v f.2
termination_by structural t => t

def coverElems : List Tree → List Tree → Bool
  | [], _ => true
  | x :: xs, ys => ys.any (fun y => same x y) && coverElems xs ys
termination_by structural t => t

end

attribute [local simp] same

/-- Equal contents, as a relation. -/
def Same (a b : Tree) : Prop := same a b = true

instance (a b : Tree) : Decidable (Same a b) := inferInstanceAs (Decidable (_ = _))

/-- Equal keys and equal values. -/
def SameEntry (e f : Tree × Tree) : Prop := Same e.1 f.1 ∧ Same e.2 f.2

variable {xs : List Tree}

theorem sameAll_iff {ys} : sameAll xs ys = true ↔ Forall₂ Same xs ys := by
  induction xs generalizing ys with
  | nil => cases ys <;> simp [sameAll]
  | cons x xs ih => cases ys <;> simp [sameAll, ih, Same]

theorem coverEntries_eq (xs ys) :
    coverEntries xs ys = xs.all fun e => ys.any fun f => sameEntry e f := by
  induction xs with
  | nil => rfl
  | cons e xs ih => rw [coverEntries, all_cons, ih]

theorem coverElems_eq (xs ys) : coverElems xs ys = xs.all fun x => ys.any fun y => same x y := by
  induction xs with
  | nil => rfl
  | cons x xs ih => rw [coverElems, all_cons, ih]

theorem same_leaf {a} : Same (.leaf a) t ↔ ∃ b, t = .leaf b ∧ a.norm = b.norm := by
  cases t <;> simp [Same]

theorem same_node {s} : Same (.node s xs) t ↔ ∃ ys, t = .node s ys ∧ Forall₂ Same xs ys := by
  cases t with
  | node u ys =>
    rw [Same, same, Bool.and_eq_true, decide_eq_true_iff, sameAll_iff]
    constructor
    · rintro ⟨rfl, h⟩
      exact ⟨ys, rfl, h⟩
    · rintro ⟨zs, heq, h⟩
      cases heq
      exact ⟨rfl, h⟩
  | _ => simp [Same]

theorem same_map {xs} : Same (.map xs) t ↔
      ∃ ys, t = .map ys ∧ xs.length = ys.length ∧ Covers SameEntry xs ys := by
  cases t with
  | map ys => simp [Same, coverEntries_eq, Covers, SameEntry, sameEntry]
  | _ => simp [Same]

theorem same_set :
    Same (.set xs) t ↔ ∃ ys, t = .set ys ∧ xs.length = ys.length ∧ Covers Same xs ys := by
  cases t with
  | set ys => simp [Same, coverElems_eq, Covers]
  | _ => simp [Same]

theorem mem_kids_map {es e} (h : e ∈ es) : e.1 ∈ (Tree.map es).kids ∧ e.2 ∈ (Tree.map es).kids := by
  constructor <;> exact mem_flatMap.mpr ⟨e, h, by simp⟩

theorem same_refl (t) : Same t t := by
  induction t using Tree.induct with
  | h t ih =>
    cases t with
    | leaf a => exact same_leaf.mpr ⟨a, rfl, rfl⟩
    | node s ts => exact same_node.mpr ⟨ts, rfl, forall₂_same.mpr ih⟩
    | map es =>
      refine same_map.mpr ⟨es, rfl, rfl, fun e he => ⟨e, he, ?_⟩⟩
      exact ⟨ih _ (mem_kids_map he).1, ih _ (mem_kids_map he).2⟩
    | set ts => exact same_set.mpr ⟨ts, rfl, rfl, fun x hx => ⟨x, hx, ih x hx⟩⟩

theorem same_trans {a b c : Tree} (hab : Same a b) (hbc : Same b c) : Same a c := by
  induction a using Tree.induct generalizing b c with
  | h a ih =>
    cases a with
    | leaf x =>
      obtain ⟨y, rfl, hxy⟩ := same_leaf.mp hab
      obtain ⟨z, rfl, hyz⟩ := same_leaf.mp hbc
      exact same_leaf.mpr ⟨z, rfl, hxy.trans hyz⟩
    | node s xs =>
      obtain ⟨ys, rfl, hxy⟩ := same_node.mp hab
      obtain ⟨zs, rfl, hyz⟩ := same_node.mp hbc
      refine same_node.mpr ⟨zs, rfl, ?_⟩
      refine forall₂_iff_get.mpr ⟨hxy.length_eq.trans hyz.length_eq, fun i hx hz => ?_⟩
      have hy : i < ys.length := by
        rw [← hxy.length_eq]
        exact hx
      exact ih _ (get_mem _ _) ((forall₂_iff_get.mp hxy).2 i hx hy)
        ((forall₂_iff_get.mp hyz).2 i hy hz)
    | map xs =>
      obtain ⟨ys, rfl, hlen, hxy⟩ := same_map.mp hab
      obtain ⟨zs, rfl, hlen', hyz⟩ := same_map.mp hbc
      refine same_map.mpr ⟨zs, rfl, hlen.trans hlen', hxy.trans hyz fun x hx y _ z _ h h' => ?_⟩
      exact ⟨ih _ (mem_kids_map hx).1 h.1 h'.1, ih _ (mem_kids_map hx).2 h.2 h'.2⟩
    | set xs =>
      obtain ⟨ys, rfl, hlen, hxy⟩ := same_set.mp hab
      obtain ⟨zs, rfl, hlen', hyz⟩ := same_set.mp hbc
      refine same_set.mpr ⟨zs, rfl, hlen.trans hlen', hxy.trans hyz fun x hx y _ z _ h h' => ?_⟩
      exact ih x hx h h'

/-- No two keys of a map, and no two elements of a set, are equal. -/
def KeysApart : Tree → Prop
  | .map es => es.Pairwise fun e f => ¬ Same e.1 f.1
  | .set ts => ts.Pairwise fun x y => ¬ Same x y
  | _ => True

/-- Two entries that share a partner have equal keys, so a cover of a map never uses an
    entry twice. -/
theorem same_symm {a b : Tree} (ha : a.All KeysApart) (hab : Same a b) : Same b a := by
  induction a using Tree.induct generalizing b with
  | h a ih =>
    have ih' : ∀ c ∈ a.kids, ∀ {d}, Same c d → Same d c := fun c hc _ => ih c hc (ha.part hc)
    cases a with
    | leaf x =>
      obtain ⟨y, rfl, hxy⟩ := same_leaf.mp hab
      exact same_leaf.mpr ⟨x, rfl, hxy.symm⟩
    | node s xs =>
      obtain ⟨ys, rfl, hxy⟩ := same_node.mp hab
      refine same_node.mpr ⟨xs, rfl, ?_⟩
      refine forall₂_iff_get.mpr ⟨hxy.length_eq.symm, fun i hy hx => ?_⟩
      exact ih' _ (get_mem _ _) ((forall₂_iff_get.mp hxy).2 i hx hy)
    | map xs =>
      obtain ⟨ys, rfl, hlen, hxy⟩ := same_map.mp hab
      have hapart : xs.Pairwise fun e f => ∀ g, SameEntry e g → ¬ SameEntry f g := by
        refine List.Pairwise.imp_of_mem ?_ ha.here
        intro e f _ hf hne g heg hfg
        exact hne (same_trans heg.1 (ih' _ (mem_kids_map hf).1 hfg.1))
      refine same_map.mpr ⟨xs, rfl, hlen.symm, fun f hf => ?_⟩
      obtain ⟨e, he, hef⟩ := cover_symm hlen hxy hapart f hf
      exact ⟨e, he, ih' _ (mem_kids_map he).1 hef.1, ih' _ (mem_kids_map he).2 hef.2⟩
    | set xs =>
      obtain ⟨ys, rfl, hlen, hxy⟩ := same_set.mp hab
      have hapart : xs.Pairwise fun e f => ∀ g, Same e g → ¬ Same f g := by
        refine List.Pairwise.imp_of_mem ?_ ha.here
        intro e f _ hf hne g heg hfg
        exact hne (same_trans heg (ih' _ hf hfg))
      refine same_set.mpr ⟨xs, rfl, hlen.symm, fun f hf => ?_⟩
      obtain ⟨e, he, hef⟩ := cover_symm hlen hxy hapart f hf
      exact ⟨e, he, ih' _ he hef⟩

end Tree

/-! ## Reading a content off the heap -/

/-- Two by two. -/
def pairs {α : Type} : List α → List (α × α)
  | a :: b :: rest => (a, b) :: pairs rest
  | _ => []

/-- The content of the object `h`, given the contents of its children. -/
def Obj.tree (h : Handle) : Obj → List Tree → Tree
  | .str s, _ => .leaf (.str s)
  | .bytes b, _ => .leaf (.bytes b)
  | .byteArray b, _ => .leaf (.byteArray b)
  | .bigInt n _, _ => .leaf (.num (.int n))
  | .list _, ts => .node .list ts
  | .tuple _, ts => .node .tuple ts
  | .map _, ts => .map (pairs ts)
  | .set _, ts => .set ts
  | .struct tid _, ts => .node (.struct tid) ts
  | .enum variantId _, ts => .node (.enum variantId) ts
  | .builtin name, _ => .leaf (.builtin name)
  | .core kind addr, _ => .leaf (.core kind addr)
  | .slot _, _ => .leaf (.slot h)

namespace Heap

def content (H : Heap) : Nat → Value → Option Tree
  | 0, _ => none
  | _ + 1, .int n _ => some (.leaf (.num (.int n)))
  | _ + 1, .bool b => some (.leaf (.bool b))
  | _ + 1, .nil => some (.leaf .nil)
  | _ + 1, .float box w => some (.leaf (.num (.float box w)))
  | n + 1, .obj h => ((H.obj h).children.mapM (H.content n)).map ((H.obj h).tree h)

/-- The handles a value reaches. -/
inductive Reaches (H : Heap) : Value → Handle → Prop where
  | here (h : Handle) : Reaches H (.obj h) h
  | child {h k : Handle} {c : Value} (hc : c ∈ (H.obj h).children) (hk : Reaches H c k) :
      Reaches H (.obj h) k

variable {H : Heap} {v : Value}

theorem content_obj {n h} : H.content (n + 1) (.obj h) = some t ↔
      ∃ ts, Forall₂ (fun c t => H.content n c = some t) (H.obj h).children ts ∧
        (H.obj h).tree h ts = t := by
  rw [content, map_eq_some_iff]
  simp only [mapM_eq_some_iff]

theorem content_pos {n} (h : H.content n v = some t) : ∃ k, n = k + 1 := by
  cases n with
  | zero => cases h
  | succ n => exact ⟨n, rfl⟩

theorem content_succ {n} (h : H.content n v = some t) : H.content (n + 1) v = some t := by
  induction n generalizing v t with
  | zero => cases h
  | succ n ih =>
    cases v with
    | obj k =>
      obtain ⟨ts, hts, ht⟩ := content_obj.mp h
      exact content_obj.mpr ⟨ts, hts.imp fun _ _ => ih, ht⟩
    | _ => exact h

theorem content_mono {n k} (h : H.content n v = some t) (hle : n ≤ k) : H.content k v = some t := by
  induction hle with
  | refl => exact h
  | step _ ih => exact content_succ ih

theorem content_unique {n k u} (ht : H.content n v = some t) (hu : H.content k v = some u) :
    t = u := by
  rcases Nat.le_total n k with h | h
  · exact some.inj ((content_mono ht h).symm.trans hu)
  · exact some.inj (ht.symm.trans (content_mono hu h))

/-- **A content only depends on the objects its value reaches.** -/
theorem content_frame {H' : Heap} (h : ∀ k, H.Reaches v k → H'.obj k = H.obj k) (n) :
    H'.content n v = H.content n v := by
  induction n generalizing v with
  | zero => rfl
  | succ n ih =>
    cases v with
    | obj k =>
      rw [content, content, h k (.here k)]
      congr 1
      exact mapM_congr fun c hc => ih fun j hj => h j (.child hc hj)
    | _ => rfl

theorem reaches_frame {H' : Heap} (h : ∀ k, H.Reaches v k → H'.obj k = H.obj k) {k}
    (hk : H'.Reaches v k) : H.Reaches v k := by
  induction hk with
  | here j => exact .here j
  | child hc _ ih =>
    rw [h _ (.here _)] at hc
    exact .child hc (ih fun j hj => h j (.child hc hj))

end Heap

theorem pairs_flatMap {α} (es : List (α × α)) : pairs (es.flatMap fun e => [e.1, e.2]) = es := by
  induction es with
  | nil => rfl
  | cons e es ih => rw [flatMap_cons, cons_append, cons_append, pairs, nil_append, ih]

/-- The contents of the keys and values of a map, entry by entry. -/
theorem forall₂_entries {R} {es : List (MapEntry Value Value)} {ts}
    (h : Forall₂ R (es.flatMap fun e => [e.key, e.val]) ts) :
    ∃ fs : List (Tree × Tree), ts = fs.flatMap (fun f => [f.1, f.2]) ∧
      Forall₂ (fun e f => R e.key f.1 ∧ R e.val f.2) es fs := by
  induction es generalizing ts with
  | nil =>
    rw [flatMap_nil, forall₂_nil_left_iff] at h
    exact ⟨[], h, .nil⟩
  | cons e es ih =>
    rw [flatMap_cons] at h
    rcases h with _ | ⟨hk, _ | ⟨hv, hrest⟩⟩
    obtain ⟨fs, rfl, hfs⟩ := ih hrest
    exact ⟨(_, _) :: fs, rfl, .cons ⟨hk, hv⟩ hfs⟩

/-- The kids of a content are the contents of the children. -/
theorem Obj.kids_tree {R} {o : Obj} {h} {ts : List Tree} (hts : Forall₂ R o.children ts) :
    (o.tree h ts).kids = ts := by
  cases o with
  | map m =>
    obtain ⟨fs, rfl, -⟩ := forall₂_entries hts
    rw [Obj.tree, pairs_flatMap]
    rfl
  | _ => first | rfl | exact (forall₂_nil_left_iff.mp hts).symm

end ChezziLang.Vm
