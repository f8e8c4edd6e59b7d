import DescriptorMarshal.Json.Basic
import DescriptorMarshal.Number.Shortest

/-!
Compact JSON text: no blanks, keys in order, and only the escapes that JSON requires.
-/

namespace DescriptorMarshal

namespace Json

/-- Doubles are positional with a fractional digit from `1e-5` up to `1e16`, and otherwise have a
signed exponent. Values that are not finite have no JSON text. -/
def numberLayout : NumberLayout where
  leastPositional := -5
  mostPositional := 16
  signedExponent := true
  tie := .even
  infinity := "null"
  nan := "null"

def hexDigit (n : Nat) : Char :=
  if n < 10 then Char.ofNat ('0'.toNat + n) else Char.ofNat ('a'.toNat + (n - 10))

/-- Quotes, backslashes and control characters are escaped, nothing else. -/
def escapeChar (c : Char) : List Char :=
  if c = '"' then ['\\', '"']
  else if c = '\\' then ['\\', '\\']
  else if c = '\n' then ['\\', 'n']
  else if c = '\r' then ['\\', 'r']
  else if c = '\t' then ['\\', 't']
  else if c.toNat = 8 then ['\\', 'b']
  else if c.toNat = 12 then ['\\', 'f']
  else if c.toNat < 32 then ['\\', 'u', '0', '0', hexDigit (c.toNat / 16), hexDigit (c.toNat % 16)]
  else [c]

def quote (text : String) : List Char :=
  '"' :: text.toList.flatMap escapeChar ++ ['"']

mutual

def writeBefore (rest : List Char) : Json → List Char
  | null => "null".toList ++ rest
  | bool value => (if value then "true" else "false").toList ++ rest
  | integer value => (toString value).toList ++ rest
  | double value => (numberLayout.render value).toList ++ rest
  | string text => quote text ++ rest
  | array items => '[' :: writeItems (']' :: rest) items
  | object members => '\x7b' :: writeMembers ('\x7d' :: rest) members

def writeItems (rest : List Char) : List Json → List Char
  | [] => rest
  | [item] => writeBefore rest item
  | item :: others => writeBefore (',' :: writeItems rest others) item

def writeMembers (rest : List Char) : List (String × Json) → List Char
  | [] => rest
  | [(key, value)] => quote key ++ ':' :: writeBefore rest value
  | (key, value) :: others =>
    quote key ++ ':' :: writeBefore (',' :: writeMembers rest others) value

end

def write (value : Json) : String := String.ofList (writeBefore [] value)

end Json

end DescriptorMarshal
