import DescriptorMarshal.Schema.Index
import DescriptorMarshal.Schema.Node

/-!
The assembled schema: the nodes in document order and the index that finds them.
-/

namespace DescriptorMarshal

structure Schema where
  naming : Naming
  nodes : List SchemaNode
  index : NodeIndex
  deriving Repr

namespace Schema

def enums (schema : Schema) : List ValueSet :=
  schema.nodes.filterMap fun
    | .enumeration node => some node
    | _ => none

def bitmasks (schema : Schema) : List ValueSet :=
  schema.nodes.filterMap fun
    | .bitmask node => some node
    | _ => none

def objects (schema : Schema) : List ObjectNode :=
  schema.nodes.filterMap fun
    | .object node => some node
    | _ => none

def structures (schema : Schema) : List StructureNode :=
  schema.nodes.filterMap fun
    | .struct node => some node
    | _ => none

def node? (schema : Schema) (textName : String) : Option SchemaNode := do
  schema.nodes[(← schema.index.get? textName).position]?

def byDeclaration? (schema : Schema) (declarationName : String) : Option SchemaNode := do
  schema.nodes[(← schema.index.byDeclaration? declarationName).position]?

def structure? (schema : Schema) (declarationName : String) : Option StructureNode :=
  match schema.byDeclaration? declarationName with
  | some (.struct node) => some node
  | _ => none

def valueSet? (schema : Schema) (declarationName : String) : Option ValueSet :=
  match schema.byDeclaration? declarationName with
  | some (.enumeration node) | some (.bitmask node) => some node
  | _ => none

end Schema

end DescriptorMarshal
