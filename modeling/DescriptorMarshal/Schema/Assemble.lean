import DescriptorMarshal.Json.Writer
import DescriptorMarshal.Schema.Basic
import DescriptorMarshal.Schema.Resolve

/-!
Assembling a schema: the records of a document are normalized, indexed and resolved in document
order, and the first thing wrong is reported.
-/

namespace DescriptorMarshal

def standardCallbacks : List String :=
  ["error callback", "buffer map read callback", "buffer map write callback",
    "buffer create mapped callback", "fence on completion callback"]

structure SchemaOptions where
  naming : Naming
  callbacks : List String
  deriving DecidableEq, Repr

def SchemaOptions.standard : SchemaOptions := ⟨.standard, standardCallbacks⟩

/-- The constant a symbolic default names: as written, or in upper snake case. -/
def findConstant? (values : List Idl.Constant) (name : String) : Option Idl.Constant :=
  values.find? fun value => value.name == name || upperSnakeCase value.name == name

/-- A default is the value its literal or name stands for in the member's type. `undefined` is no
default, and neither is `nullptr` for a pointer. -/
def readDefault (stubs : List Idl.Stub) (index : NodeIndex) (typeName : String)
    (type : TypeDescriptor) (value : Json) : Except DefaultFault (Option DefaultValue) :=
  let text := value.string?
  if text = some "undefined" ∨ (type.isReference ∧ text = some "nullptr") then .ok none
  else if type.isArray ∨ type.isReference then .error .pointerMember
  else match type.kind with
    | .boolean =>
      match value with
      | .bool b => .ok (some (.bool b))
      | .string "true" => .ok (some (.bool true))
      | .string "false" => .ok (some (.bool false))
      | _ => .error .notBoolean
    | .number number =>
      match Literal.ofJson? value with
      | none => .error .notNumber
      | some (.integer n) =>
        match number.range? with
        | none => .ok (some (.float (.ofInt n)))
        | some range =>
          if range.contains n then .ok (some (.integer n)) else .error (.outOfRange typeName)
      | some literal =>
        if number.isFloat then .ok (some literal) else .error (.integerType typeName)
    | .enumeration | .bitmask =>
      match Literal.ofJson? value, text with
      | some (.integer n), _ => .ok (some (.integer n))
      | _, none => .error .notName
      | _, some name =>
        let constant? := do
          let entry ← index.get? typeName
          let stub ← stubs[entry.position]?
          findConstant? stub.record.values name
        match constant? with
        | some constant => .ok (some (.integer constant.value))
        | none => .error (.unknownName name typeName)
    | kind => .error (.noDefault kind)

def initialOf (kind : TypeKind) (default : Option DefaultValue) : Option DefaultValue :=
  match kind with
  | .number number =>
    some (default.getD (if number.isFloat then .float .zero else .integer 0))
  | .boolean => some (default.getD (.bool false))
  | _ => none

def assembleValues (owner : String) (isBitmask : Bool) (values : List Idl.Constant) :
    Except SchemaError (List NamedValue) :=
  values.mapM fun raw =>
    if IntRange.unsigned32.contains raw.value then
      .ok {
        name := if isBitmask then upperSnakeCase raw.name else raw.name
        textName := raw.name
        value := UInt32.ofInt raw.value }
    else .error (.valueRange owner raw.name raw.value)

def hasCounter (members : List Member) (name : String) : Bool :=
  members.any fun member =>
    member.name == name && !member.type.isReference &&
      member.type.numberType?.any fun number => !number.isFloat

/-- Every array needs a plain integer sibling that holds its length. -/
def checkLengths (owner : String) (members : List Member) : Except SchemaError Unit :=
  (members.filter fun member => member.type.isArray).forM fun member =>
    match member.type.length with
    | none => .error (.missingLength owner member.name)
    | some length =>
      if hasCounter members length then .ok ()
      else .error (.unknownLength owner member.name length)

structure Assembler where
  stubs : List Idl.Stub
  resolver : Resolver
  deriving Repr

namespace Assembler

def member (assembler : Assembler) (owner : String) (raw : Idl.Member) :
    Except SchemaError Member := do
  let name := camelCase raw.name
  let type ← assembler.resolver.resolve owner name raw
  let default ← match raw.default with
    | none => pure none
    | some value =>
      match readDefault assembler.stubs assembler.resolver.index raw.typeName type value with
      | .ok default => pure default
      | .error fault => .error (.defaultValue owner name value.write fault)
  let initialValue :=
    if type.isReference || type.isArray then none else initialOf type.kind default
  return { name, type := { type with initialValue }, default, isInternal := raw.isInternal }

def members (assembler : Assembler) (owner : String) (raw : List Idl.Member) :
    Except SchemaError (List Member) := do
  let members ← raw.mapM (assembler.member owner)
  checkLengths owner members
  return members

/-- A method's result is a bare type, `void` when none is given. -/
def method (assembler : Assembler) (owner : String) (raw : Idl.Method) :
    Except SchemaError Method := do
  let name := camelCase raw.name
  let returns ← assembler.resolver.resolve owner name
    (.ofType raw.name (raw.returns.getD "void"))
  let args ← assembler.members owner raw.args
  return { name, returns, args }

def node (assembler : Assembler) (stub : Idl.Stub) : Except SchemaError SchemaNode := do
  let naming := assembler.resolver.naming
  let header : NodeHeader :=
    ⟨stub.textName, naming.declarationName stub.textName, naming.externalName stub.textName⟩
  let owner := header.externalName
  match stub.category with
  | .enumeration => return .enumeration ⟨header, ← assembleValues owner false stub.record.values⟩
  | .bitmask => return .bitmask ⟨header, ← assembleValues owner true stub.record.values⟩
  | .object => return .object ⟨header, ← stub.record.methods.mapM (assembler.method owner)⟩
  | .struct =>
    return .struct ⟨header, stub.record.extensible,
      ← assembler.members owner stub.record.members⟩

end Assembler

def assemble (options : SchemaOptions) (document : Idl.Document) : Except SchemaError Schema := do
  let normalized ← Idl.normalize document
  let index ← NodeIndex.build options.naming normalized.stubs
  let resolver : Resolver := ⟨index, options.naming, options.callbacks ++ normalized.callbacks⟩
  let nodes ← normalized.stubs.mapM (Assembler.node ⟨normalized.stubs, resolver⟩)
  return ⟨options.naming, nodes, index⟩

end DescriptorMarshal
