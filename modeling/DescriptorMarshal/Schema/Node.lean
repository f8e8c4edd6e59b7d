import DescriptorMarshal.Idl.Document
import DescriptorMarshal.Schema.Literal
import DescriptorMarshal.Schema.Type

/-!
The nodes of an assembled schema, with every type resolved.
-/

namespace DescriptorMarshal

structure TypeDescriptor where
  rawType : String
  kind : TypeKind
  /-- The declaration name of a node, or the C type of a primitive. -/
  nativeType : String
  isArray : Bool
  isReference : Bool
  isArrayOfPointers : Bool
  /-- A string, whose length is found by its NUL. -/
  isDynamicLength : Bool
  presence : Presence
  /-- The camel-cased sibling that holds the number of elements. -/
  length : Option String
  hostType : HostType
  /-- The declared default, or zero, of plain numbers and booleans. -/
  initialValue : Option DefaultValue
  ownership : Ownership
  deriving DecidableEq, Repr

def TypeDescriptor.numberType? (type : TypeDescriptor) : Option NumberType :=
  match type.kind with
  | .number number => some number
  | _ => none

structure NodeHeader where
  textName : String
  declarationName : String
  externalName : String
  deriving DecidableEq, Repr

structure NamedValue where
  /-- The name the host uses: as written for enums, upper snake case for bitmasks. -/
  name : String
  textName : String
  value : UInt32
  deriving DecidableEq, Repr

structure ValueSet where
  header : NodeHeader
  values : List NamedValue
  deriving DecidableEq, Repr

/-- The first value under a host name or under a name as written. -/
def ValueSet.valueOf? (set : ValueSet) (name : String) : Option UInt32 :=
  (set.values.find? fun value => value.name == name || value.textName == name).map (·.value)

structure Member where
  name : String
  type : TypeDescriptor
  default : Option DefaultValue
  isInternal : Bool
  deriving DecidableEq, Repr

structure Method where
  name : String
  returns : TypeDescriptor
  args : List Member
  deriving DecidableEq, Repr

structure ObjectNode where
  header : NodeHeader
  methods : List Method
  deriving DecidableEq, Repr

structure StructureNode where
  header : NodeHeader
  extensible : Bool
  members : List Member
  deriving DecidableEq, Repr

namespace StructureNode

def member? (node : StructureNode) (name : String) : Option Member :=
  node.members.find? fun member => member.name == name

def isLengthMember (node : StructureNode) (name : String) : Bool :=
  node.members.any fun member => member.type.isArray && member.type.length == some name

end StructureNode

inductive SchemaNode where
  | enumeration (node : ValueSet)
  | bitmask (node : ValueSet)
  | object (node : ObjectNode)
  | struct (node : StructureNode)
  deriving DecidableEq, Repr

namespace SchemaNode

def header : SchemaNode → NodeHeader
  | enumeration node | bitmask node => node.header
  | object node => node.header
  | struct node => node.header

def category : SchemaNode → Idl.Category
  | enumeration _ => .enumeration
  | bitmask _ => .bitmask
  | object _ => .object
  | struct _ => .struct

end SchemaNode

end DescriptorMarshal
