import DescriptorMarshal.Number.Range
import DescriptorMarshal.Number.Rounding

/-!
Double and single precision numbers, each held as its bits, and their conversions to and from
integers. A finite double stands for exactly `± significand * 2 ^ exponent`, and every
conversion is computed from that integer pair.
-/

namespace DescriptorMarshal

structure Binary64 where
  bits : UInt64
  deriving DecidableEq, Repr, Inhabited

structure Binary32 where
  bits : UInt32
  deriving DecidableEq, Repr, Inhabited

namespace Binary64

open BinaryFormat (binary64 binary32)

def isNegative (x : Binary64) : Bool := binary64.signBit ≤ x.bits.toNat

def magnitude (x : Binary64) : Nat := x.bits.toNat % binary64.signBit

def isNaN (x : Binary64) : Bool := binary64.infinity < x.magnitude
def isFinite (x : Binary64) : Bool := x.magnitude < binary64.infinity
def significand (x : Binary64) : Nat := binary64.significand x.magnitude
def exponent (x : Binary64) : Int := binary64.exponent x.magnitude

def ofMagnitude (negative : Bool) (magnitude : Nat) : Binary64 :=
  ⟨UInt64.ofNat (if negative then binary64.signBit + magnitude else magnitude)⟩

def zero : Binary64 := ofMagnitude false 0
def infinity (negative : Bool) : Binary64 := ofMagnitude negative binary64.infinity

def nan (negative : Bool) : Binary64 := ofMagnitude negative binary64.quiet

def ofInt (n : Int) : Binary64 := ofMagnitude (n < 0) (binary64.round n.natAbs 1)

def trunc (x : Binary64) : Int :=
  let whole := x.significand <<< x.exponent.toNat >>> (-x.exponent).toNat
  if x.isNegative then -whole else whole

/-- The integer part brought into a range: infinities go to its ends, not-a-number to zero. -/
def clamp (x : Binary64) (range : IntRange) : Int :=
  if x.isNaN then 0
  else if x.isFinite then range.clamp x.trunc
  else if x.isNegative then range.least else range.most

def truncated (x : Binary64) : Binary64 :=
  ofMagnitude x.isNegative (binary64.round x.trunc.natAbs 1)

/-- A finite number counted in `2 ^ unit`, where `unit` is at most its exponent. -/
def units (x : Binary64) (unit : Int) : Int :=
  let count := x.significand <<< (x.exponent - unit).toNat
  if x.isNegative then -count else count

def ofUnits (negative : Bool) (n : Nat) (unit : Int) : Binary64 :=
  ofMagnitude negative (binary64.roundScaled n unit)

/-- The remainder of the division of a finite number by a finite number other than zero, with the
sign of the dividend. -/
def remainder (x y : Binary64) : Binary64 :=
  let unit := min x.exponent y.exponent
  ofUnits x.isNegative ((x.units unit).natAbs % (y.units unit).natAbs) unit

/-- The sum of two finite numbers; a zero is negative only when both of them are. -/
def add (x y : Binary64) : Binary64 :=
  let unit := min x.exponent y.exponent
  let sum := x.units unit + y.units unit
  ofUnits (if sum = 0 then x.isNegative && y.isNegative else sum < 0) sum.natAbs unit

def remEuclid (x y : Binary64) : Binary64 :=
  let remainder := x.remainder y
  if remainder.isNegative && remainder.magnitude != 0 then remainder.add y else remainder

def twoTo32 : Binary64 := ofInt 0x100000000

/-- The integer part modulo `2 ^ 32`, and zero for numbers that are not finite. -/
def toUInt32 (x : Binary64) : UInt32 :=
  if x.isFinite then UInt32.ofInt ((x.truncated.remEuclid twoTo32).clamp .unsigned32) else 0

/-- The integer part modulo `2 ^ 32` in the signed range, and zero for numbers that are not
finite. -/
def toInt32 (x : Binary64) : Int32 := x.toUInt32.toInt32

def toBinary32 (x : Binary64) : Binary32 :=
  let magnitude :=
    if x.isFinite then binary32.roundScaled x.significand x.exponent
    else if x.isNaN then binary32.quiet
    else binary32.infinity
  ⟨UInt32.ofNat (if x.isNegative then binary32.signBit + magnitude else magnitude)⟩

end Binary64

namespace Binary32

open BinaryFormat (binary32)

def isNaN (x : Binary32) : Bool := binary32.infinity < x.bits.toNat % binary32.signBit

end Binary32

end DescriptorMarshal
