/-
  The VM's heap as its structural walks see it: the value words of `vm/value.rs`, the
  objects of `vm/heap.rs`, and the hooks a program declares.

  A float is boxed; its box is never written, so the word carries the number, and two words
  are one word when they are one box.  An int past 62 bits is an object.  Objects that are
  compared by their slot or by the core they wrap (functions, generators, channels, ...)
  have no content here: no walk reads it.  Collections and memory limits are left out.
-/
import ChezziLang.Lib.Act
import ChezziLang.Vm.Arith
import ChezziLang.Vm.MapData

namespace ChezziLang.Vm

open Lib HashIndex Function

/-! ## Values and objects -/

/-- `GcRef`. -/
abbrev Handle := Nat

/-- A value word. -/
inductive Value where
  | int (n : Int64) (inline : Inline n)
  | bool (b : Bool)
  | nil
  | float (box : Handle) (bits : BitVec 64)
  | obj (h : Handle)
  deriving DecidableEq

/-- `as_obj`: a float is not object-tagged. -/
def Value.asObj : Value → Option Handle
  | .obj h => some h
  | _ => none

def Value.asBool : Value → Option Bool
  | .bool b => some b
  | _ => none

/-- Handles around a shared core. -/
inductive CoreKind where
  | ptr
  | channel
  | shared
  | rwShared
  | atomic
  | atomicInt
  | executor
  | socket
  | listener
  | writer
  | reader
  deriving DecidableEq, Repr

inductive Obj where
  /-- A string, as its bytes. -/
  | str (s : List UInt8)
  | bytes (b : List UInt8)
  | byteArray (b : List UInt8)
  | bigInt (n : Int64) (wide : ¬ Inline n)
  | list (items : List Value)
  | tuple (items : List Value)
  | map (m : MapData Value Value)
  | set (s : SetData Value)
  | struct (tid : Nat) (fields : List Value)
  | enum (variantId : Nat) (payload : List Value)
  | builtin (name : String)
  /-- `Identity::Core`. -/
  | core (kind : CoreKind) (addr : Nat)
  /-- `Identity::Slot`: iterators, cells, functions, modules, generators. -/
  | slot (typeName : String)

structure Heap where
  obj : Handle → Obj
  next : Handle

namespace Heap

def alloc (H : Heap) (o : Obj) : Handle × Heap :=
  (H.next, ⟨update H.obj H.next o, H.next + 1⟩)

def write (H : Heap) (h : Handle) (o : Obj) : Heap := { H with obj := update H.obj h o }

variable (H : Heap)

@[simp] theorem write_self (h : Handle) (o) : (H.write h o).obj h = o := update_self ..

theorem write_of_ne {h k} (o) (hne : k ≠ h) : (H.write h o).obj k = H.obj k := update_of_ne hne ..

@[simp] theorem alloc_self (o) : (H.alloc o).2.obj H.next = o := update_self ..

theorem alloc_of_lt {k} (o) (hlt : k < H.next) : (H.alloc o).2.obj k = H.obj k :=
  update_of_ne hlt.ne ..

/-- A value as the operators on numbers see it. -/
def load (H : Heap) : Value → Val Handle
  | .int n inline => .int n inline
  | .bool b => .bool b
  | .nil => .nil
  | .float _ bits => .float bits
  | .obj h =>
    match H.obj h with
    | .bigInt n wide => .bigInt n wide
    | _ => .obj h

end Heap

/-- The values an object holds. -/
def Obj.children : Obj → List Value
  | .list items => items
  | .tuple items => items
  | .map m => m.entries.flatMap fun e => [e.key, e.val]
  | .set s => s.entries.map SetEntry.elem
  | .struct _ fields => fields
  | .enum _ payload => payload
  | _ => []

/-! ## Programs -/

/-- The operators a type can define that a structural walk calls. -/
inductive Hook where
  | eq
  | hash
  deriving DecidableEq, Repr

def Hook.method : Hook → String
  | .eq => "eq"
  | .hash => "hash"

/-- A declared type, as a value names it. -/
inductive TypeKey where
  | struct (tid : Nat)
  | enum (variantId : Nat)
  deriving DecidableEq, Repr

/-- The code of a hook: from the structural depth its caller has used up, and its
    arguments, to a result. -/
abbrev HookCode := Nat → List Value → Span → Act Heap RuntimeError Value

/-- What the walks read of a program and of the host. -/
structure Machine where
  fl : FloatOps
  /-- `DefaultHasher` over bytes. -/
  bytesHash : List UInt8 → Word
  anyEqHook : Bool
  /-- The window of `Atomic.cas`. -/
  eqHookOff : Bool
  /-- `hooks_struct`, `hooks_enum`. -/
  hookBit : Hook → TypeKey → Bool
  hookCode : Hook → TypeKey → Option HookCode
  enumName : Nat → String
  structShown : Nat → String
  enumShown : Nat → String

def Obj.typeKey : Obj → Option TypeKey
  | .struct tid _ => some (.struct tid)
  | .enum variantId _ => some (.enum variantId)
  | _ => none

namespace Machine

/-- `hook_of`. -/
def hookOf (m : Machine) (H : Heap) (v : Value) (hook : Hook) : Bool :=
  match v.asObj with
  | none => false
  | some h =>
    match (H.obj h).typeKey with
    | none => false
    | some key => m.hookBit hook key

/-- `hook_proto`. -/
def hookProto (m : Machine) (H : Heap) (v : Value) (hook : Hook) : Option HookCode :=
  if !m.hookOf H v hook then none
  else
    match v.asObj with
    | none => none
    | some h => (H.obj h).typeKey.bind (m.hookCode hook)

/-- `invoke_hook`, with the depth its caller has used up. -/
def invokeHook (m : Machine) (hook : Hook) (base : Nat) (recv : Value) (args : List Value)
    (span : Span) : Act Heap RuntimeError (Option Value) := fun H =>
  match m.hookProto H recv hook with
  | none => (.ok none, H)
  | some code => (code base (recv :: args) span).andThen (fun v => Act.pure (some v)) H

/-- `carrier_word`. -/
def carrierWord (variantId : Nat) : Option String :=
  if variantId = 2 ∨ variantId = 3 then some "an optional value (`T?`)"
  else if variantId = 0 ∨ variantId = 1 then some "a result value (`T!E`)"
  else none

end Machine

def CoreKind.typeName : CoreKind → String
  | .ptr => "ptr"
  | .channel => "Channel"
  | .shared => "Shared"
  | .rwShared => "RwShared"
  | .atomic => "Atomic"
  | .atomicInt => "AtomicInt"
  | .executor => "Executor"
  | .socket => "Socket"
  | .listener => "Listener"
  | .writer => "Writer"
  | .reader => "Reader"

/-- `type_name`. -/
def Heap.typeName (H : Heap) : Value → String
  | .int _ _ => "int"
  | .bool _ => "bool"
  | .nil => "None"
  | .float _ _ => "float"
  | .obj h =>
    match H.obj h with
    | .str _ => "str"
    | .bytes _ => "bytes"
    | .byteArray _ => "bytearray"
    | .bigInt _ _ => "int"
    | .list _ => "List"
    | .tuple _ => "tuple"
    | .map _ => "Map"
    | .set _ => "Set"
    | .struct _ _ => "struct"
    | .enum variantId _ => (Machine.carrierWord variantId).getD "enum"
    | .builtin _ => "function"
    | .core kind _ => kind.typeName
    | .slot typeName => typeName

end ChezziLang.Vm
