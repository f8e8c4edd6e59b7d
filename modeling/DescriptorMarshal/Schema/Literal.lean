import DescriptorMarshal.Json.Basic
import DescriptorMarshal.Number.Shortest
import DescriptorMarshal.Text.Blank

/-!
Member defaults: their values, the literals they are written as, and their text in C.
-/

namespace DescriptorMarshal

inductive DefaultValue where
  | bool (value : Bool)
  /-- An integer of at most 128 bits. -/
  | integer (value : Int)
  | float (value : Binary64)
  deriving DecidableEq, Repr

namespace DefaultValue

/-- Doubles in C literals are positional with a fractional digit from `1e-4` up to `1e16`, and
otherwise have an exponent without plus. -/
def numberLayout : NumberLayout where
  leastPositional := -4
  mostPositional := 16
  signedExponent := false
  tie := .up
  infinity := "inf"
  nan := "NaN"

def text : DefaultValue → String
  | bool value => if value then "true" else "false"
  | integer value => toString value
  | float value => numberLayout.render value

/-- The value as an integer: a double is cut to 128 bits, a truth value is 0 or 1. -/
def toInt : DefaultValue → Int
  | bool value => if value then 1 else 0
  | integer value => value
  | float value => value.clamp .signed128

def toBinary64 : DefaultValue → Binary64
  | bool value => .ofInt (if value then 1 else 0)
  | integer value => .ofInt value
  | float value => value

end DefaultValue

namespace Literal

def readHexDigits? (text : List Char) : Option Nat :=
  if text = [] then none
  else (text.mapM hexValue?).map (·.foldl (fun value digit => 16 * value + digit) 0)

def readHex? (text : List Char) : Option Int :=
  let (negative, digits) := splitSign text
  ((readHexDigits? digits).map fun n => if negative then -(n : Int) else n).filter
    IntRange.signed128.contains

def readDecimal? (text : List Char) : Option Int :=
  (readInteger? text).filter IntRange.signed128.contains

def readNamed? (negative : Bool) (text : List Char) : Option Binary64 :=
  let lower := text.map Char.toLower
  if lower = "inf".toList ∨ lower = "infinity".toList then some (.infinity negative)
  else if lower = "nan".toList then some (.nan negative)
  else none

/-- A floating literal: an optional sign and a decimal or a named value. A decimal too large for
a double is infinite. -/
def readFloat? (text : List Char) : Option Binary64 :=
  let (negative, unsigned) := splitSign text
  match Decimal.readMagnitude? negative unsigned with
  | some decimal => some decimal.toBinary64
  | none => readNamed? negative unsigned

/-- A number literal: hexadecimal after `0x` or `0X`, else a decimal integer, else a floating
literal that starts with a digit, a minus or a point. -/
def readNumber? (text : List Char) : Option DefaultValue :=
  match text with
  | '0' :: 'x' :: digits | '0' :: 'X' :: digits => (readHex? digits).map .integer
  | _ =>
    match readDecimal? text with
    | some n => some (.integer n)
    | none =>
      if text.head?.any fun c => isDigit c || c == '-' || c == '.' then
        (readFloat? text).map .float
      else none

/-- The number a JSON value stands for: a JSON number, or a string that holds a literal between
blanks. -/
def ofJson? : Json → Option DefaultValue
  | .integer value => some (.integer value)
  | .double value => some (.float value)
  | .string text => readNumber? (trim text.toList)
  | _ => none

end Literal

end DescriptorMarshal
