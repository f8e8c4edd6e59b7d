import DescriptorMarshal.Schema.Literal
import DescriptorMarshal.Schema.Type

/-!
Plans: for each structure, how its members are marshaled, what they own, and what every field is
reset to. The same plan is executed in process and rendered as C++.
-/

namespace DescriptorMarshal

/-- How one member is marshaled. Names of structures and enumerations are declaration names. -/
inductive Marshal where
  | unwrap (className : String)
  | unwrapArray (className : String)
  | nested (name : String) (byReference : Bool)
  | nestedArray (name : String) (ofPointers : Bool)
  | number (type : NumberType)
  | boolean
  | enumeration (name : String)
  | enumerationArray (name : String)
  | bitmask
  | bitmaskArray
  | string
  /-- Host memory bound without a copy; a typed array, or any bytes. -/
  | buffer (kind : Option ArrayKind)
  deriving DecidableEq, Repr

structure LengthField where
  name : String
  type : NumberType
  deriving DecidableEq, Repr

structure MemberPlan where
  name : String
  /-- A required member must be there; an optional one may be absent or null. -/
  presence : Presence
  marshal : Marshal
  ownership : Ownership
  length : Option LengthField
  nativeType : String
  deriving DecidableEq, Repr

inductive FieldInit where
  | null
  | bool (value : Bool)
  | number (type : NumberType) (value : DefaultValue)
  | enumeration (value : UInt32)
  | bitmask (value : UInt32)
  | embedded (name : String)
  deriving DecidableEq, Repr

structure FieldPlan where
  name : String
  nativeType : String
  init : FieldInit
  deriving DecidableEq, Repr

structure StructPlan where
  name : String
  externalName : String
  extensible : Bool
  /-- The marshaled members in order; internal members and array lengths are not among them. -/
  members : List MemberPlan
  fields : List FieldPlan
  deriving DecidableEq, Repr

namespace StructPlan

def member? (plan : StructPlan) (name : String) : Option MemberPlan :=
  plan.members.find? fun member => member.name == name

def owningMembers (plan : StructPlan) : List MemberPlan :=
  plan.members.filter fun member => member.ownership.releases

end StructPlan

end DescriptorMarshal
