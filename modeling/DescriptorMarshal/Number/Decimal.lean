import DescriptorMarshal.Number.Binary

/-!
Decimal numbers as they are written, with a point and an exponent, and the double nearest to
each. Texts that differ in more than their last digits mean the same rule everywhere: digits,
an optional fraction, an optional exponent.
-/

namespace DescriptorMarshal

structure Decimal where
  negative : Bool
  digits : Nat
  exponent : Int
  deriving DecidableEq, Repr

def isDigit (c : Char) : Bool := '0' ≤ c && c ≤ '9'

def hexValue? (c : Char) : Option Nat :=
  if isDigit c then some (c.toNat - '0'.toNat)
  else if 'a' ≤ c ∧ c ≤ 'f' then some (c.toNat - 'a'.toNat + 10)
  else if 'A' ≤ c ∧ c ≤ 'F' then some (c.toNat - 'A'.toNat + 10)
  else none

def natOfDigits (digits : List Char) : Nat :=
  digits.foldl (fun value c => 10 * value + (c.toNat - '0'.toNat)) 0

def spanDigits (text : List Char) : List Char × List Char :=
  (text.takeWhile isDigit, text.dropWhile isDigit)

def readDigits? (text : List Char) : Option Nat :=
  if text ≠ [] ∧ text.all isDigit then some (natOfDigits text) else none

def splitSign : List Char → Bool × List Char
  | '-' :: rest => (true, rest)
  | '+' :: rest => (false, rest)
  | text => (false, text)

def readInteger? (text : List Char) : Option Int :=
  let (negative, digits) := splitSign text
  (readDigits? digits).map fun n => if negative then -(n : Int) else n

def tenTo (count : Nat) : Nat := Nat.pow 10 count

namespace Decimal

/-- Reads what follows a mantissa: nothing, or `e` and a signed integer. -/
def readExponent? : List Char → Option Int
  | [] => some 0
  | c :: rest => if c = 'e' ∨ c = 'E' then readInteger? rest else none

/-- Reads an unsigned mantissa (digits with at most one point among them) and an exponent. -/
def readMagnitude? (negative : Bool) (text : List Char) : Option Decimal :=
  let (whole, rest) := spanDigits text
  let (fraction, rest) :=
    match rest with
    | '.' :: after => spanDigits after
    | _ => ([], rest)
  if whole = [] ∧ fraction = [] then none
  else (readExponent? rest).map fun exponent =>
    ⟨negative, natOfDigits (whole ++ fraction), exponent - fraction.length⟩

/-- The nearest double, with the sign kept on zero. Exponents far outside the range of doubles
are settled before any power is formed. -/
def toBinary64 (d : Decimal) : Binary64 :=
  let places : Int := (Nat.toDigits 10 d.digits).length + d.exponent
  if d.digits = 0 ∨ places < -330 then .ofMagnitude d.negative 0
  else if 310 < places then .infinity d.negative
  else .ofMagnitude d.negative
    (BinaryFormat.binary64.round (d.digits * tenTo d.exponent.toNat) (tenTo (-d.exponent).toNat))

end Decimal

end DescriptorMarshal
