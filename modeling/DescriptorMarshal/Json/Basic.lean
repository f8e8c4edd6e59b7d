import DescriptorMarshal.Entries
import DescriptorMarshal.Number.Binary

/-!
JSON values. Objects keep the order of their keys, and a number is an integer exactly when it was
written without fraction and exponent and fits 64 bits.
-/

namespace DescriptorMarshal

inductive Json where
  | null
  | bool (value : Bool)
  /-- Between `-2 ^ 63` and `2 ^ 64 - 1`. -/
  | integer (value : Int)
  | double (value : Binary64)
  | string (text : String)
  | array (items : List Json)
  | object (members : List (String × Json))
  deriving Repr, Inhabited

namespace Json

def get? : Json → String → Option Json
  | object members, key => Entries.get? members key
  | _, _ => none

def string? : Json → Option String
  | string text => some text
  | _ => none

def bool? : Json → Option Bool
  | bool value => some value
  | _ => none

def integer? : Json → Option Int
  | integer value => some value
  | _ => none

def array? : Json → Option (List Json)
  | array items => some items
  | _ => none

end Json

end DescriptorMarshal
