import DescriptorMarshal.Entries
import DescriptorMarshal.Schema.Node

/-!
Name tables of enums and bitmasks. By name, a repeated name keeps its place and takes its last
value; by value, the first name declared for a value stays.
-/

namespace DescriptorMarshal

structure NameTable where
  externalName : String
  declarationName : String
  byName : Entries UInt32
  /-- One name per value, by ascending value. -/
  byValue : List (UInt32 × String)
  deriving DecidableEq, Repr

namespace NameTable

/-- Adds a name for a value unless the value has one, keeping the values ascending. -/
def addAlias : List (UInt32 × String) → UInt32 → String → List (UInt32 × String)
  | [], value, name => [(value, name)]
  | (first, known) :: rest, value, name =>
    if value = first then (first, known) :: rest
    else if value < first then (value, name) :: (first, known) :: rest
    else (first, known) :: addAlias rest value name

def ofValueSet (set : ValueSet) : NameTable where
  externalName := set.header.externalName
  declarationName := set.header.declarationName
  byName := Entries.ofList (set.values.map fun value => (value.name, value.value))
  byValue := set.values.foldl (fun aliases value => addAlias aliases value.value value.name) []

def value? (table : NameTable) (name : String) : Option UInt32 :=
  Entries.get? table.byName name

def name? (table : NameTable) (value : UInt32) : Option String :=
  (table.byValue.find? fun row => row.1 == value).map (·.2)

def size (table : NameTable) : Nat := table.byName.length

end NameTable

end DescriptorMarshal
