import DescriptorMarshal.Schema.Index
import DescriptorMarshal.Schema.Node

/-!
Resolving the type of a member. Its type name gives the kind: a primitive, a callback, or a record
of the document. Its indirection says how the type is pointed to, and a length turns a pointer
into an array.
-/

namespace DescriptorMarshal

inductive Indirection where
  | none
  | mutable
  | const
  | constArrayOfPointers
  deriving DecidableEq, Repr

namespace Indirection

def ofText? (text : Option String) : Option Indirection :=
  match text with
  | .none | some "" | some "value" => some none
  | some "*" => some mutable
  | some "const*" => some const
  | some "const*const*" => some constArrayOfPointers
  | _ => .none

def spell (nativeType : String) : Indirection → String
  | none => nativeType
  | mutable => nativeType ++ "*"
  | const => "const " ++ nativeType ++ "*"
  | constArrayOfPointers => "const " ++ nativeType ++ "* const *"

end Indirection

inductive LengthSource where
  | none
  | strlen
  | member (name : String)
  deriving DecidableEq, Repr

namespace LengthSource

/-- Is the text, blanks aside, a count of 64 bits? -/
def isCount (text : String) : Bool :=
  let digits := match trim text.toList with
    | '+' :: rest => rest
    | plain => plain
  (readDigits? digits).any fun n => IntRange.unsigned64.contains n

/-- A length names a sibling or is `strlen`; a fixed count has no source. -/
def ofJson? (length : Option Json) : Option LengthSource :=
  match length with
  | .none | some .null => some none
  | some (.string text) =>
    if text = "strlen" then some strlen
    else if isCount text then .none
    else some (member (camelCase text))
  | _ => .none

def member? : LengthSource → Option String
  | member name => some name
  | _ => .none

end LengthSource

structure NamedType where
  kind : TypeKind
  nativeType : String
  wrapper : Option String
  deriving DecidableEq, Repr

structure Resolver where
  index : NodeIndex
  naming : Naming
  callbacks : List String
  deriving Repr

def kindOfCategory : Idl.Category → TypeKind
  | .enumeration => .enumeration
  | .bitmask => .bitmask
  | .object => .object
  | .struct => .struct

namespace Resolver

/-- Primitives come before callbacks, and callbacks before records. -/
def classify? (resolver : Resolver) (typeName : String) : Option NamedType :=
  match NumberType.ofName? typeName with
  | some number => some ⟨.number number, typeName, none⟩
  | none =>
    match typeName with
    | "bool" => some ⟨.boolean, "bool", none⟩
    | "char" => some ⟨.string, "char", none⟩
    | "void" => some ⟨.void, "void", none⟩
    | _ =>
      if resolver.callbacks.contains typeName then
        some ⟨.function, resolver.naming.declarationName typeName, none⟩
      else
        (resolver.index.get? typeName).map fun entry =>
          ⟨kindOfCategory entry.category, entry.declarationName,
            if entry.category = .object then some entry.externalName else none⟩

end Resolver

def hostTypeOf (kind : TypeKind) (isArray isReference : Bool) (wrapper : Option String) :
    HostType :=
  match kind with
  | .number number =>
    if isArray then .typedArray number.arrayKind
    else if number.isWide then .bigint
    else .number
  | .bitmask => .number
  | .boolean => .boolean
  | .string | .enumeration => .string
  | .object =>
    match wrapper with
    | some className => .wrapper className
    | none => .plainObject
  | .struct => .plainObject
  | .function => .function
  | .void => if isReference then .arrayBuffer else .undefined

def ownershipOf (kind : TypeKind) (isArray isReference isArrayOfPointers : Bool) : Ownership :=
  match kind with
  | .struct =>
    if isArrayOfPointers then .arrayOfPointersOwned
    else if isArray then .arrayOwned
    else if isReference then .owned
    else .embedded
  | .object => if isArray then .arrayOwned else .borrowed
  | .enumeration | .bitmask => if isArray then .arrayOwned else .value
  | .number _ | .void => if isReference then .borrowed else .value
  | .string => .arrayOwned
  | .boolean | .function => .value

namespace Resolver

/-- Resolves a member of `owner`; `member` is its camel-cased name. Strings must be pointers
counted by `strlen`, and nothing else may be. -/
def resolve (resolver : Resolver) (owner member : String) (raw : Idl.Member) :
    Except SchemaError TypeDescriptor := do
  let some named := resolver.classify? raw.typeName
    | .error (.unresolved owner member raw.typeName)
  let some indirection := Indirection.ofText? raw.indirection
    | .error (.unknownIndirection owner member (raw.indirection.getD ""))
  let some length := LengthSource.ofJson? raw.length
    | .error (.unsupportedShape owner member .fixedSizeArray)
  let isReference := indirection != .none
  let isArrayOfPointers := indirection == .constArrayOfPointers
  let isString := named.kind == .string
  if isString ∧ ¬(length = .strlen ∧ isReference ∧ ¬isArrayOfPointers) then
    .error (.unsupportedShape owner member .stringWithoutLength)
  if ¬isString ∧ length = .strlen then
    .error (.unsupportedShape owner member .strlenOfOther)
  let counter := length.member?
  if isArrayOfPointers ∧ counter = none then
    .error (.missingLength owner member)
  let isArray := !isString && (isArrayOfPointers || (isReference && counter.isSome))
  return {
    rawType := indirection.spell named.nativeType
    kind := named.kind
    nativeType := named.nativeType
    isArray
    isReference
    isArrayOfPointers
    isDynamicLength := isString
    presence := if raw.isOptional || raw.default.isSome then .optional else .required
    length := if isArray then counter else none
    hostType := hostTypeOf named.kind isArray isReference named.wrapper
    initialValue := none
    ownership := ownershipOf named.kind isArray isReference isArrayOfPointers }

end Resolver

end DescriptorMarshal
