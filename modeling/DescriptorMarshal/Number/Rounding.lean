/-!
Binary floating-point formats and rounding to them. A magnitude (a number without its sign) is
held as the natural number its bits spell, so that larger bits mean a larger number; `round`
finds the magnitude nearest to a ratio, and `significand` and `exponent` read a magnitude back
as `significand * 2 ^ exponent`.
-/

namespace DescriptorMarshal

/-- The quotient rounded to the nearest integer, a half to the even neighbour. -/
def divHalfEven (num den : Nat) : Nat :=
  let quotient := num / den
  let twice := 2 * (num % den)
  if twice < den then quotient
  else if den < twice then quotient + 1
  else quotient + quotient % 2

/-- The largest `e` with `2 ^ e ≤ num / den`, for positive `num` and `den`. -/
def log2Ratio (num den : Nat) : Int :=
  let guess : Int := num.log2 - den.log2
  if num <<< (-guess).toNat < den <<< guess.toNat then guess - 1 else guess

structure BinaryFormat where
  fractionBits : Nat
  exponentBits : Nat
  deriving DecidableEq, Repr

namespace BinaryFormat

def minExponent (format : BinaryFormat) : Int :=
  2 - (1 <<< (format.exponentBits - 1) : Nat) - format.fractionBits

/-- The bits of infinity; a larger magnitude is not a number. -/
def infinity (format : BinaryFormat) : Nat :=
  (1 <<< format.exponentBits - 1) <<< format.fractionBits

def signBit (format : BinaryFormat) : Nat :=
  1 <<< (format.exponentBits + format.fractionBits)

def quiet (format : BinaryFormat) : Nat :=
  format.infinity + 1 <<< (format.fractionBits - 1)

def exponentField (format : BinaryFormat) (magnitude : Nat) : Nat :=
  magnitude >>> format.fractionBits

def significand (format : BinaryFormat) (magnitude : Nat) : Nat :=
  let unit := 1 <<< format.fractionBits
  if format.exponentField magnitude = 0 then magnitude else magnitude % unit + unit

def exponent (format : BinaryFormat) (magnitude : Nat) : Int :=
  format.minExponent + (format.exponentField magnitude - 1 : Nat)

/-- The magnitude nearest to `num / den`, a half to the even neighbour, and infinity from half
a unit above the largest finite number on. -/
def round (format : BinaryFormat) (num den : Nat) : Nat :=
  if num = 0 then 0
  else
    let scale := max (log2Ratio num den - format.fractionBits) format.minExponent
    let scaled := divHalfEven (num <<< (-scale).toNat) (den <<< scale.toNat)
    min ((scale - format.minExponent).toNat <<< format.fractionBits + scaled) format.infinity

def roundScaled (format : BinaryFormat) (significand : Nat) (exponent : Int) : Nat :=
  format.round (significand <<< exponent.toNat) (1 <<< (-exponent).toNat)

def binary64 : BinaryFormat := ⟨52, 11⟩
def binary32 : BinaryFormat := ⟨23, 8⟩

end BinaryFormat

end DescriptorMarshal
