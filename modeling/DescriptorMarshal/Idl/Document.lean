import DescriptorMarshal.Idl.Record
import DescriptorMarshal.Schema.Error

/-!
Documents: keyed records of which four categories matter. Normalizing keeps those in document
order, notes the callbacks among the rest and counts what it sets aside.
-/

namespace DescriptorMarshal.Idl

abbrev Document := Entries Json

def Document.ofJson? (value : Json) : Except SchemaError Document :=
  match value with
  | .object records => .ok records
  | _ => .error .parse

inductive Category where
  | enumeration
  | bitmask
  | object
  | struct
  deriving DecidableEq, Repr

namespace Category

def name : Category → String
  | enumeration => "enum"
  | bitmask => "bitmask"
  | object => "object"
  | struct => "structure"

def ofName? (text : String) : Option Category :=
  [enumeration, bitmask, object, struct].find? fun category => category.name == text

end Category

structure Stub where
  textName : String
  category : Category
  record : Record
  deriving Repr

structure Normalized where
  stubs : List Stub
  callbacks : List String
  /-- How many records were set aside, keys for remarks not counted. -/
  skipped : Nat
  deriving Repr

/-- Keys that start with an underscore hold remarks. -/
def isRemark (key : String) : Bool := key.toList.head? == some '_'

def categoryName (value : Json) : String :=
  ((value.get? "category").bind Json.string?).getD ""

def Normalized.add (before : Normalized) (name : String) (value : Json) :
    Except SchemaError Normalized :=
  if isRemark name then .ok before
  else
    let written := categoryName value
    match Category.ofName? written with
    | some category =>
      match Record.ofJson? value with
      | some record => .ok { before with stubs := before.stubs ++ [⟨name, category, record⟩] }
      | none => .error (.record name)
    | none =>
      .ok { before with
        callbacks := if written = "callback" then before.callbacks ++ [name] else before.callbacks
        skipped := before.skipped + 1 }

def normalize (document : Document) : Except SchemaError Normalized :=
  document.foldlM (fun before entry => before.add entry.1 entry.2) ⟨[], [], 0⟩

end DescriptorMarshal.Idl
