import DescriptorMarshal.Host.ArrayKind
import DescriptorMarshal.Json.Basic

/-!
Values as the host runtime hands them over: dynamically typed, with objects that keep the order of
their keys.
-/

namespace DescriptorMarshal

structure Handle where
  number : UInt64
  deriving DecidableEq, Repr

inductive HostValue where
  | undefined
  | null
  | boolean (value : Bool)
  | number (value : Binary64)
  | bigint (value : Int)
  | string (text : String)
  | array (items : List HostValue)
  | object (members : List (String × HostValue))
  | typedArray (kind : ArrayKind) (data : List UInt8)
  | arrayBuffer (data : List UInt8)
  /-- An instance of the host class `className` around a native object. -/
  | wrapped (className : String) (handle : Handle)
  | function (name : String)
  deriving Repr, Inhabited

namespace HostValue

def isUndefined : HostValue → Bool
  | undefined => true
  | _ => false

def isNull : HostValue → Bool
  | null => true
  | _ => false

def isObject : HostValue → Bool
  | object _ => true
  | _ => false

/-- A property of an object. One that is `undefined` counts as absent. -/
def get? : HostValue → String → Option HostValue
  | object members, key => (Entries.get? members key).filter (!·.isUndefined)
  | _, _ => none

def typeName : HostValue → String
  | undefined => "undefined"
  | null => "null"
  | boolean _ => "boolean"
  | number _ => "number"
  | bigint _ => "bigint"
  | string _ => "string"
  | array _ => "Array"
  | object _ => "Object"
  | typedArray kind _ => kind.className
  | arrayBuffer _ => "ArrayBuffer"
  | wrapped _ _ => "wrapped object"
  | function _ => "function"

mutual

/-- JSON as a host value; every number becomes a double. -/
def ofJson : Json → HostValue
  | .null => null
  | .bool value => boolean value
  | .integer value => number (.ofInt value)
  | .double value => number value
  | .string text => string text
  | .array items => array (ofItems items)
  | .object members => object (ofMembers members)

def ofItems : List Json → List HostValue
  | [] => []
  | item :: rest => ofJson item :: ofItems rest

def ofMembers : List (String × Json) → List (String × HostValue)
  | [] => []
  | (key, value) :: rest => (key, ofJson value) :: ofMembers rest

end

def littleEndian : (count : Nat) → Nat → List UInt8
  | 0, _ => []
  | count + 1, n => UInt8.ofNat n :: littleEndian count (n / 256)

def uint32Array (values : List UInt32) : HostValue :=
  typedArray .uint32 (values.flatMap fun value => littleEndian 4 value.toNat)

def float32Array (values : List Binary32) : HostValue :=
  typedArray .float32 (values.flatMap fun value => littleEndian 4 value.bits.toNat)

end HostValue

end DescriptorMarshal
