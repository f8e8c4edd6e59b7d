import DescriptorMarshal.Schema.Basic

/-!
The assembled tables as readable text: one block per node in document order, one line per member.
-/

namespace DescriptorMarshal

namespace Listing

def spaces (count : Nat) : String := String.ofList (List.replicate count ' ')

def ofLines (lines : List String) : String := String.join (lines.map (· ++ "\n"))

def braced (text : String) : String := "\x7b " ++ text ++ " \x7d"

def valueSetLines (label : String) (node : ValueSet) : List String :=
  [s!"{label} {node.header.externalName}:",
    s!"    declaration: {node.header.declarationName}",
    "    values:"] ++
    node.values.map fun value => s!"        {value.name}: {value.value.toNat}"

def memberLine (indent : Nat) (member : Member) : String :=
  let type := member.type
  let presence := match type.presence with
    | .optional => "optional"
    | .required => "required"
  let default := match member.default with
    | some value => ", default: " ++ value.text
    | none => ""
  let length := match type.length with
    | some name => ", length: " ++ name
    | none => ""
  let isInternal := if member.isInternal then ", internal" else ""
  spaces indent ++ member.name ++ ": " ++
    braced (s!"type: {type.rawType}, js: {type.hostType.name}, {presence}" ++ default ++ length ++
      isInternal ++ s!", ownership: {type.ownership.name}")

def returnsLine (indent : Nat) (type : TypeDescriptor) : String :=
  spaces indent ++ "returns: " ++ braced s!"type: {type.rawType}, js: {type.hostType.name}"

def methodLines (method : Method) : List String :=
  [s!"        {method.name}:", returnsLine 12 method.returns] ++
    if method.args.isEmpty then []
    else "            args:" :: method.args.map (memberLine 16)

def objectLines (node : ObjectNode) : List String :=
  [s!"object {node.header.externalName}:",
    s!"    declaration: {node.header.declarationName}"] ++
    if node.methods.isEmpty then [] else "    methods:" :: node.methods.flatMap methodLines

def structureLines (node : StructureNode) : List String :=
  [s!"structure {node.header.externalName}:",
    s!"    declaration: {node.header.declarationName}",
    s!"    extensible: {node.extensible}",
    "    members:"] ++ node.members.map (memberLine 8)

def nodeLines : SchemaNode → List String
  | .enumeration node => valueSetLines "enum" node
  | .bitmask node => valueSetLines "bitmask" node
  | .object node => objectLines node
  | .struct node => structureLines node

end Listing

def Schema.listing (schema : Schema) : String :=
  Listing.ofLines (schema.nodes.flatMap Listing.nodeLines)

end DescriptorMarshal
