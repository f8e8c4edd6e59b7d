import DescriptorMarshal.Plan.Basic
import DescriptorMarshal.Schema.Basic
import DescriptorMarshal.Schema.Error

/-!
Building the plan of a structure. A member shape without a marshaling rule is an error, so no
member is dropped silently.
-/

namespace DescriptorMarshal

def marshalOf (schema : Schema) (owner : String) (member : Member) :
    Except SchemaError Marshal :=
  let type := member.type
  let isScalarReference := type.isReference && !type.isArray
  let refuse (shape : Unsupported) : Except SchemaError Marshal :=
    .error (.unsupportedShape owner member.name shape)
  let className := match type.hostType with
    | .wrapper className => className
    | _ => type.nativeType
  if type.isArrayOfPointers ∧ type.kind ≠ .struct then refuse .pointerArray
  else match type.kind with
    | .object =>
      if type.isArray then .ok (.unwrapArray className)
      else if isScalarReference then refuse .objectReference
      else .ok (.unwrap className)
    | .struct =>
      if (schema.structure? type.nativeType).isNone then
        .error (.unresolved owner member.name type.nativeType)
      else if type.isArray then .ok (.nestedArray type.nativeType type.isArrayOfPointers)
      else .ok (.nested type.nativeType type.isReference)
    | .number number =>
      if type.isArray then .ok (.buffer (some number.arrayKind))
      else if isScalarReference then refuse .numberReference
      else .ok (.number number)
    | .boolean =>
      if type.isArray then refuse .booleanArray
      else if isScalarReference then refuse .booleanReference
      else .ok .boolean
    | .enumeration =>
      if type.isArray then .ok (.enumerationArray type.nativeType)
      else if isScalarReference then refuse .enumReference
      else .ok (.enumeration type.nativeType)
    | .bitmask =>
      if type.isArray then .ok .bitmaskArray
      else if isScalarReference then refuse .bitmaskReference
      else .ok .bitmask
    | .string => if type.isDynamicLength then .ok .string else refuse .fixedLengthString
    | .void => if type.isReference then .ok (.buffer none) else refuse .voidMember
    | .function => refuse .functionMember

def lengthFieldOf (node : StructureNode) (member : Member) (name : String) :
    Except SchemaError LengthField :=
  match (node.member? name).bind (·.type.numberType?) with
  | some type =>
    if type.isFloat then .error (.unknownLength node.header.externalName member.name name)
    else .ok ⟨name, type⟩
  | none => .error (.unknownLength node.header.externalName member.name name)

def defaultBits (owner : String) (member : Member) : Except SchemaError UInt32 :=
  match member.default with
  | none => .ok 0
  | some (.integer n) =>
    if IntRange.unsigned32.contains n then .ok (UInt32.ofInt n)
    else .error (.defaultValue owner member.name (toString n) (.outOfRange member.type.nativeType))
  | some other => .error (.defaultValue owner member.name other.text .notInteger)

/-- Pointers start as null, and a number that counts an array as zero whatever its default. -/
def fieldInitOf (owner : String) (member : Member) (isLength : Bool) :
    Except SchemaError FieldInit :=
  let type := member.type
  if type.isReference ∨ type.isArray then .ok .null
  else match type.kind with
    | .number number =>
      if isLength then .ok (.number number (.integer 0))
      else .ok (.number number (type.initialValue.getD (.integer 0)))
    | .boolean => .ok (.bool (type.initialValue == some (.bool true)))
    | .enumeration => (defaultBits owner member).map .enumeration
    | .bitmask => (defaultBits owner member).map .bitmask
    | .struct => .ok (.embedded type.nativeType)
    | .object | .string | .function | .void => .ok .null

def memberPlanOf (schema : Schema) (node : StructureNode) (member : Member) :
    Except SchemaError MemberPlan := do
  let marshal ← marshalOf schema node.header.externalName member
  let length ← match member.type.length with
    | some name =>
      if member.type.isArray then (lengthFieldOf node member name).map some else pure none
    | none => pure none
  return {
    name := member.name
    presence := member.type.presence
    marshal
    ownership := member.type.ownership
    length
    nativeType := member.type.nativeType }

/-- The field of one member and, unless it is internal or counts an array, its plan. -/
def fieldAndMemberOf (schema : Schema) (node : StructureNode) (member : Member) :
    Except SchemaError (FieldPlan × Option MemberPlan) := do
  let isLength := node.isLengthMember member.name
  let init ← fieldInitOf node.header.externalName member isLength
  let field : FieldPlan := ⟨member.name, member.type.nativeType, init⟩
  if member.isInternal ∨ isLength then return (field, none)
  else return (field, some (← memberPlanOf schema node member))

def buildPlan (schema : Schema) (node : StructureNode) : Except SchemaError StructPlan := do
  let parts ← node.members.mapM (fieldAndMemberOf schema node)
  return {
    name := node.header.declarationName
    externalName := node.header.externalName
    extensible := node.extensible
    members := parts.filterMap (·.2)
    fields := parts.map (·.1) }

end DescriptorMarshal
