import DescriptorMarshal.Codec.Context
import DescriptorMarshal.Codec.Number
import DescriptorMarshal.Plan.Set

/-!
Host values as native values, one at a time and without the heap. A conversion names the root of
the decode and the path to the value in its errors.
-/

namespace DescriptorMarshal

structure Place where
  root : String
  path : String
  deriving DecidableEq, Repr

namespace Place

def member (place : Place) (name : String) : Place :=
  { place with path := if place.path = "" then name else place.path ++ "." ++ name }

def element (place : Place) (index : Nat) : Place :=
  { place with path := place.path ++ "[" ++ toString index ++ "]" }

def mismatch (place : Place) (expected : String) (found : HostValue) : DecodeError :=
  .mismatch place.root place.path expected found.typeName

def missing (place : Place) : DecodeError := .missing place.root place.path

end Place

/-- The handle of a wrapped object of exactly the class. -/
def convertWrapped (className : String) (input : HostValue) (place : Place) :
    Except DecodeError NativeValue :=
  match input with
  | .wrapped actual handle =>
    if actual = className then .ok (.handle handle) else .error (place.mismatch className input)
  | _ => .error (place.mismatch className input)

def PlanSet.convertName (set : PlanSet) (enumeration : String) (input : HostValue)
    (place : Place) : Except DecodeError NativeValue :=
  match input with
  | .string text =>
    match set.tableOf? enumeration with
    | some table =>
      match table.value? text with
      | some value => .ok (.enumeration value)
      | none => .error (.unknownEnumValue place.root place.path table.externalName text)
    | none => .error (.unknownEnumValue place.root place.path enumeration text)
  | _ => .error (place.mismatch "String" input)

def convertBits (input : HostValue) (place : Place) : Except DecodeError NativeValue :=
  match input with
  | .number x => .ok (.bitmask x.toUInt32)
  | _ => .error (place.mismatch "Number" input)

def convertBoolean (input : HostValue) (place : Place) : Except DecodeError NativeValue :=
  match input with
  | .boolean value => .ok (.bool value)
  | _ => .error (place.mismatch "Boolean" input)

/-- Numbers convert to any number type. A wide integer may also be a big integer, which has to
fit. -/
def convertNumber (type : NumberType) (input : HostValue) (place : Place) :
    Except DecodeError NativeValue :=
  match type, input with
  | _, .number x => .ok (.ofDouble type x)
  | .i64, .bigint n =>
    if IntRange.signed64.contains n then .ok (.i64 (Int64.ofInt n))
    else .error (place.mismatch "BigInt within int64_t" input)
  | .u64, .bigint n =>
    if IntRange.unsigned64.contains n then .ok (.u64 (UInt64.ofInt n))
    else .error (place.mismatch "BigInt within uint64_t" input)
  | _, _ => .error (place.mismatch (if type.isWide then "BigInt" else "Number") input)

/-- Host memory of exactly the kind, bound as it is. -/
def convertBuffer (kind : Option ArrayKind) (input : HostValue) (place : Place) :
    Except DecodeError BufferView :=
  match kind, input with
  | some expected, .typedArray actual data =>
    if actual = expected then .ok ⟨data, some actual⟩
    else .error (place.mismatch expected.className input)
  | none, .arrayBuffer data => .ok ⟨data, none⟩
  | some expected, _ => .error (place.mismatch expected.className input)
  | none, _ => .error (place.mismatch "ArrayBuffer" input)

end DescriptorMarshal
