import DescriptorMarshal.Json.Token

/-!
Reading JSON text. Tokens are taken one at a time onto a stack of the containers still open, so
the depth of nesting is the height of the stack.
-/

namespace DescriptorMarshal.Json

/-- A container still open. Items of an array are kept in reverse. -/
inductive Frame where
  | array (items : List Json)
  | object (members : Entries Json) (key : String)
  deriving Repr

inductive Reader where
  | value (stack : List Frame)
  | firstItem (stack : List Frame)
  | firstKey (stack : List Frame)
  | key (members : Entries Json) (stack : List Frame)
  | colon (stack : List Frame)
  /-- A comma or the end of the innermost container, whose last value is complete. -/
  | next (frame : Frame) (stack : List Frame)
  | finished (value : Json)
  deriving Repr

namespace Reader

def complete (item : Json) : List Frame → Reader
  | [] => finished item
  | .array items :: stack => next (.array (item :: items)) stack
  | .object members name :: stack => next (.object (Entries.put members name item) name) stack

def begin (limit : Nat) (stack : List Frame) : Token → Option Reader
  | .scalar item => some (complete item stack)
  | .text text => some (complete (.string text) stack)
  | .openArray => if stack.length < limit then some (firstItem stack) else none
  | .openObject => if stack.length < limit then some (firstKey stack) else none
  | _ => none

/-- The effect of one token. At most `limit` containers may be open at once. -/
def step (limit : Nat) : Reader → Token → Option Reader
  | value stack, token => begin limit stack token
  | firstItem stack, .closeArray => some (complete (.array []) stack)
  | firstItem stack, token => begin limit (.array [] :: stack) token
  | firstKey stack, .closeObject => some (complete (.object []) stack)
  | firstKey stack, .text text => some (colon (.object [] text :: stack))
  | key members stack, .text text => some (colon (.object members text :: stack))
  | colon stack, .colon => some (value stack)
  | next (.array items) stack, .comma => some (value (.array items :: stack))
  | next (.array items) stack, .closeArray => some (complete (.array items.reverse) stack)
  | next (.object members _) stack, .comma => some (key members stack)
  | next (.object members _) stack, .closeObject => some (complete (.object members) stack)
  | _, _ => none

def run (limit : Nat) (reader : Reader) : List Token → Option Json
  | [] =>
    match reader with
    | finished item => some item
    | _ => none
  | token :: rest =>
    match reader.step limit token with
    | some reader => run limit reader rest
    | none => none

end Reader

/-- Reads a text that is one JSON value nested at most `limit` deep. -/
def read? (limit : Nat) (text : String) : Option Json := do
  Reader.run limit (.value []) (← tokens? text.toList)

end DescriptorMarshal.Json
