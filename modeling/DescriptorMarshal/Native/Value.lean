import DescriptorMarshal.Host.Value

/-!
Native structures of fixed layout: a type name, a chain pointer and one slot per field.
-/

namespace DescriptorMarshal

structure BlockId where
  number : Nat
  deriving DecidableEq, Repr

structure BufferView where
  data : List UInt8
  /-- Absent for an untyped binding. -/
  kind : Option ArrayKind
  deriving DecidableEq, Repr

namespace BufferView

/-- The number of whole elements of a typed binding, else the number of bytes. -/
def length (view : BufferView) : Nat :=
  match view.kind with
  | some kind => view.data.length / kind.elementSize
  | none => view.data.length

def isEmpty (view : BufferView) : Bool := view.data.isEmpty

end BufferView

mutual

inductive NativeValue where
  | null
  | bool (value : Bool)
  | i32 (value : Int32)
  | u32 (value : UInt32)
  | i64 (value : Int64)
  | u64 (value : UInt64)
  | f32 (value : Binary32)
  | f64 (value : Binary64)
  | enumeration (value : UInt32)
  | bitmask (value : UInt32)
  | handle (value : Handle)
  | struct (value : NativeStruct)
  | pointer (target : BlockId)
  | buffer (view : BufferView)

structure NativeStruct where
  typeName : String
  /-- The chain handed in by the caller, in extensible structures only. -/
  nextInChain : Option Handle
  fields : List (String × NativeValue)

end

deriving instance Repr for NativeValue, NativeStruct

instance : Inhabited NativeValue := ⟨.null⟩

namespace NativeValue

def isNull : NativeValue → Bool
  | null => true
  | _ => false

def toUInt64? : NativeValue → Option UInt64
  | u32 value | enumeration value | bitmask value => some value.toUInt64
  | u64 value => some value
  | i32 value => if 0 ≤ value.toInt then some (UInt64.ofInt value.toInt) else none
  | i64 value => if 0 ≤ value.toInt then some (UInt64.ofInt value.toInt) else none
  | _ => none

def pointer? : NativeValue → Option BlockId
  | pointer target => some target
  | _ => none

def struct? : NativeValue → Option NativeStruct
  | struct value => some value
  | _ => none

end NativeValue

namespace NativeStruct

def empty (typeName : String) : NativeStruct := ⟨typeName, none, []⟩

def get? (native : NativeStruct) (name : String) : Option NativeValue :=
  Entries.get? native.fields name

def set (native : NativeStruct) (name : String) (value : NativeValue) : NativeStruct :=
  { native with fields := Entries.put native.fields name value }

/-- Moves a field out and leaves null behind; a field that is not there reads as null. -/
def take (native : NativeStruct) (name : String) : NativeValue × NativeStruct :=
  match native.get? name with
  | some value => (value, native.set name .null)
  | none => (.null, native)

end NativeStruct

end DescriptorMarshal
