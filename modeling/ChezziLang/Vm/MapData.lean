/-
  The hash map and set payloads of the VM (`src/vm/map_data.rs`), as seen by one thread.

  A table keeps its entries in insertion order and an open-addressing index of 64-bit slot
  words: a hash tag in the high 24 bits, `position + 1` in the low 40, a zero word for an
  empty slot. `RVec` is a list here: its retired blocks and atomics matter only to a racing
  reader, and no operation below reads one.

  A fault is the panic of `slot_word` past the position field, or `spin`: the unbounded
  `while` of `build` over a table with no empty slot. `Vm.MapIndex` proves that `spin` is
  never reached.
-/
import Mathlib.Data.Nat.Bitwise

namespace ChezziLang.Vm.HashIndex

abbrev Word := BitVec 64

/-- Why an operation on a table does not return. -/
inductive Fault where
  /-- `rvec::capacity_overflow`: a position past the position field. -/
  | capacityOverflow
  /-- The probe loop of `build` found no empty slot and runs forever. -/
  | spin
  deriving DecidableEq, Repr

def posBits : Nat := 40
def tagBits : Nat := 64 - posBits
def posMask : Word := (1 <<< posBits) - 1

/-- The Fibonacci-hashing multiplier. -/
def spread : Word := 0x9e3779b97f4a7c15

/-- `usize::trailing_zeros`: the least set bit, 64 for zero. -/
def trailingZeros (n : Nat) : Nat := ((List.range 64).find? (fun i => n.testBit i)).getD 64

/-- `usize::next_power_of_two`; 2^64 stands for its overflow. -/
def nextPowerOfTwo (n : Nat) : Nat :=
  2 ^ ((List.range 64).find? (fun b => decide (n ≤ 2 ^ b))).getD 64

/-- `usize::saturating_mul(2)`. -/
def saturatingDouble (n : Nat) : Nat := min (n * 2) (2 ^ 64 - 1)

/-- First slot and tag of hash `h` in a table of `cap` slots. -/
def place (h : Word) (cap : Nat) : Nat × Word :=
  let x := h * spread
  let b := trailingZeros cap
  ((x >>> (64 - b)).toNat, (x <<< b) >>> (64 - tagBits))

def slotWord (tag : Word) (pos : Nat) : Except Fault Word :=
  if pos + 1 > posMask.toNat then .error .capacityOverflow
  else .ok (tag <<< posBits ||| BitVec.ofNat 64 (pos + 1))

/-- The capacity of a table for `n` entries. -/
def tableCap (n : Nat) : Nat := max (nextPowerOfTwo (saturatingDouble n)) 8

/-- The first empty slot from `i` on, among `fuel` slots. -/
def firstEmpty (v : List Word) : Nat → Nat → Option Nat
  | 0, _ => none
  | fuel + 1, i =>
    if v.getD i 0 = 0 then some i else firstEmpty v fuel ((i + 1) &&& (v.length - 1))

/-- One turn of the loop of `build`. A `while` that passes `cap` full slots never ends. -/
def buildStep (cap : Nat) (v : List Word) (key : Word × Nat) : Except Fault (List Word) :=
  let (start, tag) := place key.1 cap
  match firstEmpty v cap start with
  | none => .error .spin
  | some i => do
    let w ← slotWord tag key.2
    return v.set i w

def build (n : Nat) (keys : List (Word × Nat)) : Except Fault (List Word) :=
  let cap := tableCap n
  keys.foldlM (buildStep cap) (List.replicate cap 0)

/-- An entry that caches the hash of its key. -/
class CachedHash (E : Type) where
  hash : E → Word

/-! ## The index -/

/-- `SharedIndex`: the slots of the table, none before the first insert. -/
abbrev SharedIndex := List Word

namespace SharedIndex

def fromHashes (hashes : List Word) : Except Fault SharedIndex :=
  if hashes.isEmpty then .ok [] else build hashes.length hashes.zipIdx

/-- Past half full: a table twice the size, from the cached hashes of the first `pos`
    entries and the new one. -/
def grow {E : Type} [CachedHash E] (v : SharedIndex) (entries : List E) (h : Word) (pos : Nat) :
    Except Fault SharedIndex :=
  let old := ((entries.take pos).map CachedHash.hash).zipIdx
  build (max v.length (pos + 1)) (old ++ [(h, pos)])

/-- Record that entry `pos` hashed to `h`. -/
def insert {E : Type} [CachedHash E] (v : SharedIndex) (entries : List E) (h : Word)
    (pos : Nat) : Except Fault SharedIndex :=
  let cap := v.length
  if (pos + 1) * 2 ≤ cap then
    let (start, tag) := place h cap
    match firstEmpty v cap start with
    | some i => do
      let w ← slotWord tag pos
      return v.set i w
    | none => grow v entries h pos
  else grow v entries h pos

def rebuild (hashes : List Word) : Except Fault SharedIndex :=
  if hashes.isEmpty then .ok [] else build hashes.length hashes.zipIdx

end SharedIndex

/-! ## Candidates -/

/-- A probe under way over the snapshots `v` and `entries`. -/
structure Candidates (E : Type) where
  v : List Word
  entries : List E
  h : Word
  tag : Word
  i : Nat
  left : Nat

def SharedIndex.candidates {E : Type} (v : SharedIndex) (h : Word) (entries : List E) :
    Candidates E :=
  let cap := v.length
  let (i, tag) := if cap = 0 then (0, 0) else place h cap
  { v, entries, h, tag, i, left := cap }

namespace Candidates

variable {E : Type} [CachedHash E]

/-- The entry position a non-empty slot word names. -/
def wordPos (s : Word) : Nat := ((s &&& posMask) - 1).toNat

/-- The slot word `s` is a hit of the probe `c`: tag, range, then the full cached hash. -/
def isHit (c : Candidates E) (s : Word) : Bool :=
  s >>> posBits == c.tag && (c.entries[wordPos s]?).any (fun e => CachedHash.hash e == c.h)

/-- The loop of `next`, over the `left` slots from `i` on. -/
def nextFrom (c : Candidates E) : Nat → Nat → Option Nat × Candidates E
  | 0, i => (none, { c with i, left := 0 })
  | left + 1, i =>
    let s := c.v.getD i 0
    let i' := (i + 1) &&& (c.v.length - 1)
    if s = 0 then (none, { c with i := i', left := 0 })
    else if c.isHit s then (some (wordPos s), { c with i := i', left })
    else nextFrom c left i'

def next (c : Candidates E) : Option Nat × Candidates E := c.nextFrom c.left c.i

/-- Calls `next` at most `n` times and keeps what it yields. -/
def collect : Nat → Candidates E → List Nat
  | 0, _ => []
  | n + 1, c =>
    match c.next with
    | (none, _) => []
    | (some pos, c') => pos :: collect n c'

end Candidates

/-! ## Tables, maps and sets -/

/-- What `MapData` and `SetData` share: the entries, their index and the version. -/
structure Table (E : Type) where
  entries : List E
  index : SharedIndex
  version : Word

namespace Table

variable {E : Type} [CachedHash E]

def fromEntries (entries : List E) : Except Fault (Table E) := do
  let index ← SharedIndex.fromHashes (entries.map CachedHash.hash)
  return { entries, index, version := 0 }

def candidates (t : Table E) (h : Word) : Candidates E := t.index.candidates h t.entries

def push (t : Table E) (e : E) : Except Fault (Table E) := do
  let pos := t.entries.length
  let entries := t.entries ++ [e]
  let index ← t.index.insert entries (CachedHash.hash e) pos
  return { entries, index, version := t.version + 1 }

/-- The removed entry and the table without it; `none`, and no change, past the end. -/
def removeAt (t : Table E) (i : Nat) : Except Fault (Option E × Table E) :=
  match t.entries[i]? with
  | none => .ok (none, t)
  | some removed => do
    let es := t.entries.eraseIdx i
    let index ← SharedIndex.rebuild (es.map CachedHash.hash)
    return (some removed, { entries := es, index, version := t.version + 1 })

end Table

/-- A map entry: cached hash, key, value. -/
structure MapEntry (K V : Type) where
  hash : Word
  key : K
  val : V
  deriving DecidableEq, Repr

/-- A set entry: cached hash, element. -/
structure SetEntry (K : Type) where
  hash : Word
  elem : K
  deriving DecidableEq, Repr

instance (K V : Type) : CachedHash (MapEntry K V) := ⟨MapEntry.hash⟩
instance (K : Type) : CachedHash (SetEntry K) := ⟨SetEntry.hash⟩

abbrev MapData (K V : Type) := Table (MapEntry K V)
abbrev SetData (K : Type) := Table (SetEntry K)

namespace MapData

variable {K V : Type}

def push (m : MapData K V) (h : Word) (k : K) (v : V) : Except Fault (MapData K V) :=
  Table.push m ⟨h, k, v⟩

/-- Overwrite the value of entry `i`, keeping its hash, key and position. -/
def setValue (m : MapData K V) (i : Nat) (v : V) : Option V × MapData K V :=
  match m.entries[i]? with
  | none => (none, m)
  | some e => (some e.val, { m with entries := m.entries.set i { e with val := v } })

/-- One operation of a client that owns the map. -/
inductive Op (K V : Type) where
  | push (h : Word) (k : K) (v : V)
  | setValue (i : Nat) (v : V)
  | removeAt (i : Nat)

def step (m : MapData K V) : Op K V → Except Fault (MapData K V)
  | .push h k v => m.push h k v
  | .setValue i v => .ok (m.setValue i v).2
  | .removeAt i => do return (← m.removeAt i).2

/-- Build from entries, then run the operations in order. -/
def run (entries : List (MapEntry K V)) (ops : List (Op K V)) : Except Fault (MapData K V) := do
  ops.foldlM step (← Table.fromEntries entries)

end MapData

namespace SetData

variable {K : Type}

def push (s : SetData K) (h : Word) (e : K) : Except Fault (SetData K) := Table.push s ⟨h, e⟩

inductive Op (K : Type) where
  | push (h : Word) (e : K)
  | removeAt (i : Nat)

def step (s : SetData K) : Op K → Except Fault (SetData K)
  | .push h e => s.push h e
  | .removeAt i => do return (← s.removeAt i).2

def run (entries : List (SetEntry K)) (ops : List (Op K)) : Except Fault (SetData K) := do
  ops.foldlM step (← Table.fromEntries entries)

end SetData

end ChezziLang.Vm.HashIndex
