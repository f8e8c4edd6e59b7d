import DescriptorMarshal.Json.Basic

/-!
The records of an interface description. A record is a JSON object; its values, methods and
members may each be written as an object or as the array of their fields in order. Reading
refuses a field of the wrong JSON type and a missing field that has no default.
-/

namespace DescriptorMarshal.Idl

structure Constant where
  name : String
  value : Int
  deriving Repr

structure Member where
  name : String
  typeName : String
  indirection : Option String
  /-- The sibling that counts an array, `strlen`, or a count. -/
  length : Option Json
  isOptional : Bool
  default : Option Json
  /-- Internal members are reset but never marshaled. -/
  isInternal : Bool
  deriving Repr

structure Method where
  name : String
  returns : Option String
  args : List Member
  deriving Repr

structure Record where
  category : String
  values : List Constant
  methods : List Method
  members : List Member
  extensible : Bool
  deriving Repr

def required {α : Type} (read : Json → Option α) (field : Option Json) : Option α :=
  field.bind read

/-- A field that may be missing, but not null. -/
def defaulted {α : Type} (absent : α) (read : Json → Option α) : Option Json → Option α
  | none => some absent
  | some value => read value

/-- A field that may be missing or null. -/
def nullable {α : Type} (read : Json → Option α) : Option Json → Option (Option α)
  | none | some .null => some none
  | some value => (read value).map some

def listOf? {α : Type} (read : Json → Option α) (value : Json) : Option (List α) :=
  value.array?.bind (·.mapM read)

def signed64? (value : Json) : Option Int :=
  value.integer?.filter IntRange.signed64.contains

namespace Constant

def ofFields? (name value : Option Json) : Option Constant := do
  some ⟨← required Json.string? name, ← required signed64? value⟩

def ofJson? : Json → Option Constant
  | .object fields => ofFields? (Entries.get? fields "name") (Entries.get? fields "value")
  | .array [name, value] => ofFields? (some name) (some value)
  | _ => none

end Constant

namespace Member

def ofType (name typeName : String) : Member := ⟨name, typeName, none, none, false, none, false⟩

def ofFields? (name typeName indirection length isOptional default isInternal : Option Json) :
    Option Member := do
  some {
    name := ← required Json.string? name
    typeName := ← required Json.string? typeName
    indirection := ← nullable Json.string? indirection
    length := ← nullable some length
    isOptional := ← defaulted false Json.bool? isOptional
    default := ← nullable some default
    isInternal := ← defaulted false Json.bool? isInternal }

/-- In array form only the last field may be missing. -/
def ofJson? : Json → Option Member
  | .object fields =>
    let field := Entries.get? fields
    ofFields? (field "name") (field "type") (field "annotation") (field "length")
      (field "optional") (field "default") (field "isInternalProperty")
  | .array [name, typeName, indirection, length, isOptional, default] =>
    ofFields? name typeName indirection length isOptional default none
  | .array [name, typeName, indirection, length, isOptional, default, isInternal] =>
    ofFields? name typeName indirection length isOptional default isInternal
  | _ => none

end Member

namespace Method

def ofFields? (name returns args : Option Json) : Option Method := do
  some ⟨← required Json.string? name, ← nullable Json.string? returns,
    ← defaulted [] (listOf? Member.ofJson?) args⟩

/-- In array form only the arguments may be missing. -/
def ofJson? : Json → Option Method
  | .object fields =>
    let field := Entries.get? fields
    ofFields? (field "name") (field "returns") (field "args")
  | .array [name, returns] => ofFields? name returns none
  | .array [name, returns, args] => ofFields? name returns args
  | _ => none

end Method

def Record.ofJson? (value : Json) : Option Record := do
  some {
    category := ← required Json.string? (value.get? "category")
    values := ← defaulted [] (listOf? Constant.ofJson?) (value.get? "values")
    methods := ← defaulted [] (listOf? Method.ofJson?) (value.get? "methods")
    members := ← defaulted [] (listOf? Member.ofJson?) (value.get? "members")
    extensible := ← defaulted false Json.bool? (value.get? "extensible") }

end DescriptorMarshal.Idl
