/-!
The element types of host typed arrays.
-/

namespace DescriptorMarshal

inductive ArrayKind where
  | int8
  | uint8
  | int16
  | uint16
  | int32
  | uint32
  | float32
  | float64
  | bigInt64
  | bigUint64
  deriving DecidableEq, Repr

namespace ArrayKind

def all : List ArrayKind :=
  [int8, uint8, int16, uint16, int32, uint32, float32, float64, bigInt64, bigUint64]

def elementSize : ArrayKind → Nat
  | int8 | uint8 => 1
  | int16 | uint16 => 2
  | int32 | uint32 | float32 => 4
  | float64 | bigInt64 | bigUint64 => 8

def className : ArrayKind → String
  | int8 => "Int8Array"
  | uint8 => "Uint8Array"
  | int16 => "Int16Array"
  | uint16 => "Uint16Array"
  | int32 => "Int32Array"
  | uint32 => "Uint32Array"
  | float32 => "Float32Array"
  | float64 => "Float64Array"
  | bigInt64 => "BigInt64Array"
  | bigUint64 => "BigUint64Array"

def ofClassName? (name : String) : Option ArrayKind :=
  all.find? fun kind => kind.className == name

end ArrayKind

end DescriptorMarshal
