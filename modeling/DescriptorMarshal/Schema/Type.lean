import DescriptorMarshal.Host.ArrayKind
import DescriptorMarshal.Number.Range

/-!
Resolved types: what a member is natively, what the host passes for it, and what a decoded
structure owns through it.
-/

namespace DescriptorMarshal

inductive NumberType where
  | f32
  | f64
  | i8
  | u8
  | i16
  | u16
  | i32
  | u32
  | i64
  | u64
  deriving DecidableEq, Repr

namespace NumberType

/-- The number type of a primitive C type; `size_t` has 64 bits. -/
def ofName? (name : String) : Option NumberType :=
  match name with
  | "float" => some f32
  | "double" => some f64
  | "int8_t" => some i8
  | "uint8_t" => some u8
  | "int16_t" => some i16
  | "uint16_t" => some u16
  | "int32_t" => some i32
  | "uint32_t" => some u32
  | "int64_t" => some i64
  | "uint64_t" | "size_t" => some u64
  | _ => none

def isFloat : NumberType → Bool
  | f32 | f64 => true
  | _ => false

def range? : NumberType → Option IntRange
  | f32 | f64 => none
  | i8 => some .signed8
  | u8 => some .unsigned8
  | i16 => some .signed16
  | u16 => some .unsigned16
  | i32 => some .signed32
  | u32 => some .unsigned32
  | i64 => some .signed64
  | u64 => some .unsigned64

def isWide : NumberType → Bool
  | i64 | u64 => true
  | _ => false

def arrayKind : NumberType → ArrayKind
  | f32 => .float32
  | f64 => .float64
  | i8 => .int8
  | u8 => .uint8
  | i16 => .int16
  | u16 => .uint16
  | i32 => .int32
  | u32 => .uint32
  | i64 => .bigInt64
  | u64 => .bigUint64

end NumberType

inductive TypeKind where
  | number (type : NumberType)
  | boolean
  | string
  | enumeration
  | bitmask
  | object
  | struct
  | function
  /-- Untyped pointers, and methods that return nothing. -/
  | void
  deriving DecidableEq, Repr

def TypeKind.name : TypeKind → String
  | number _ => "number"
  | boolean => "boolean"
  | string => "string"
  | enumeration => "enum"
  | bitmask => "bitmask"
  | object => "object"
  | struct => "structure"
  | function => "function"
  | void => "void"

inductive HostType where
  | undefined
  | number
  | boolean
  | string
  | bigint
  | typedArray (kind : ArrayKind)
  | arrayBuffer
  | wrapper (className : String)
  | plainObject
  | function
  deriving DecidableEq, Repr

def HostType.name : HostType → String
  | undefined => "Undefined"
  | number => "Number"
  | boolean => "Boolean"
  | string => "String"
  | bigint => "BigInt"
  | typedArray kind => kind.className
  | arrayBuffer => "ArrayBuffer"
  | wrapper className => className
  | plainObject => "Object"
  | function => "Function"

inductive Presence where
  | required
  | optional
  deriving DecidableEq, Repr

/-- What a decoded structure owns through a member, and so what destroying it releases. -/
inductive Ownership where
  | value
  /-- Memory owned elsewhere: wrapped handles and host buffers. -/
  | borrowed
  | embedded
  | owned
  /-- A heap array, string buffers included. -/
  | arrayOwned
  | arrayOfPointersOwned
  deriving DecidableEq, Repr

namespace Ownership

def releases : Ownership → Bool
  | value | borrowed => false
  | _ => true

def name : Ownership → String
  | value => "value"
  | borrowed => "borrowed"
  | embedded => "embedded"
  | owned => "owned"
  | arrayOwned => "array-owned"
  | arrayOfPointersOwned => "array-of-pointers-owned"

end Ownership

end DescriptorMarshal
