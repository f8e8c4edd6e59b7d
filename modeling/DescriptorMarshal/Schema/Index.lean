import DescriptorMarshal.Entries
import DescriptorMarshal.Idl.Document
import DescriptorMarshal.Naming

/-!
The index of a document: where each record is, by text name and by declaration name. Records whose
names meet in one declaration name are refused.
-/

namespace DescriptorMarshal

open Idl (Category Stub)

structure IndexEntry where
  textName : String
  position : Nat
  category : Category
  declarationName : String
  externalName : String
  deriving DecidableEq, Repr

/-- The entries by text name, and by declaration name the text names that they are under. -/
structure NodeIndex where
  byTextName : Entries IndexEntry
  textNames : Entries String
  deriving DecidableEq, Repr

namespace NodeIndex

def entries (index : NodeIndex) : List IndexEntry := index.byTextName.map (·.2)

def get? (index : NodeIndex) (textName : String) : Option IndexEntry :=
  index.byTextName.get? textName

def byDeclaration? (index : NodeIndex) (declarationName : String) : Option IndexEntry :=
  (index.textNames.get? declarationName).bind index.get?

def size (index : NodeIndex) : Nat := index.byTextName.length

def add (naming : Naming) (index : NodeIndex) (stub : Stub) (position : Nat) :
    Except SchemaError NodeIndex :=
  let declarationName := naming.declarationName stub.textName
  match index.textNames.get? declarationName with
  | some first => .error (.duplicateName declarationName first stub.textName)
  | none => .ok ⟨index.byTextName.put stub.textName {
        textName := stub.textName
        position := position
        category := stub.category
        declarationName := declarationName
        externalName := naming.externalName stub.textName },
      index.textNames.put declarationName stub.textName⟩

def build (naming : Naming) (stubs : List Stub) : Except SchemaError NodeIndex :=
  stubs.zipIdx.foldlM (fun index (stub, position) => add naming index stub position) ⟨[], []⟩

end NodeIndex

end DescriptorMarshal
