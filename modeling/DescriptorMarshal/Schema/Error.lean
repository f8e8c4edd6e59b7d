import DescriptorMarshal.Schema.Type

/-!
What can be wrong with an interface description. In every cause the owner is the external name of
the structure or object that declares the member.
-/

namespace DescriptorMarshal

/-- Why a default does not fit its member. -/
inductive DefaultFault where
  | pointerMember
  | notBoolean
  | integerType (typeName : String)
  | outOfRange (typeName : String)
  | notNumber
  | notName
  | unknownName (name typeName : String)
  | noDefault (kind : TypeKind)
  | notInteger
  deriving DecidableEq, Repr

def DefaultFault.message : DefaultFault → String
  | pointerMember => "pointer members only take 'undefined' or 'nullptr'"
  | notBoolean => "expected a boolean literal"
  | integerType typeName => s!"'{typeName}' is an integer type"
  | outOfRange typeName => s!"outside the range of '{typeName}'"
  | notNumber => "expected a numeric literal"
  | notName => "expected a value name"
  | unknownName name typeName => s!"no value named '{name}' in '{typeName}'"
  | noDefault kind => s!"{kind.name} members take no default"
  | notInteger => "expected an integer"

inductive Unsupported where
  | fixedSizeArray
  | stringWithoutLength
  | strlenOfOther
  | pointerArray
  | objectReference
  | numberReference
  | booleanArray
  | booleanReference
  | enumReference
  | bitmaskReference
  | fixedLengthString
  | voidMember
  | functionMember
  | selfEmbedding
  deriving DecidableEq, Repr

def Unsupported.message : Unsupported → String
  | fixedSizeArray => "fixed-size arrays are not supported, length must name a member"
  | stringWithoutLength => "fixed-length strings are not supported"
  | strlenOfOther => "'strlen' length on a non-string member"
  | pointerArray => "arrays of pointers are only supported for structures"
  | objectReference => "scalar references to objects"
  | numberReference => "scalar references to numbers"
  | booleanArray => "boolean arrays"
  | booleanReference => "scalar references to booleans"
  | enumReference => "scalar references to enums"
  | bitmaskReference => "scalar references to bitmasks"
  | fixedLengthString => "fixed-length strings"
  | voidMember => "void members"
  | functionMember => "function members in structures"
  | selfEmbedding => "structure embeds itself by value"

inductive SchemaError where
  | parse
  | record (name : String)
  | duplicateName (declarationName first second : String)
  | unresolved (owner member typeName : String)
  | defaultValue (owner member value : String) (fault : DefaultFault)
  | unsupportedShape (owner member : String) (shape : Unsupported)
  | unknownIndirection (owner member text : String)
  | missingLength (owner member : String)
  | unknownLength (owner member length : String)
  | valueRange (owner name : String) (value : Int)
  deriving DecidableEq, Repr

def SchemaError.message : SchemaError → String
  | parse => "failed to parse IDL document"
  | record name => s!"malformed record '{name}'"
  | duplicateName declarationName first second =>
    s!"records '{first}' and '{second}' both map to '{declarationName}'"
  | unresolved owner member typeName =>
    s!"cannot resolve type '{typeName}' of '{owner}'.'{member}'"
  | defaultValue owner member value fault =>
    s!"invalid default {value} for '{owner}'.'{member}': {fault.message}"
  | unsupportedShape owner member shape =>
    s!"unsupported member '{owner}'.'{member}': {shape.message}"
  | unknownIndirection owner member text =>
    s!"unknown annotation '{text}' on '{owner}'.'{member}'"
  | missingLength owner member => s!"array member '{owner}'.'{member}' has no length member"
  | unknownLength owner member length =>
    s!"length member '{length}' of '{owner}'.'{member}' is not an integer sibling"
  | valueRange owner name value => s!"value '{name}' = {value} of '{owner}' is outside uint32_t"

end DescriptorMarshal
