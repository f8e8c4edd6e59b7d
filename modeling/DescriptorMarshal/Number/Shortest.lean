import DescriptorMarshal.Number.Decimal

/-!
Doubles as text. The digits are the fewest that read back as the same double, and of those the
nearest; a layout says how they are set out.
-/

namespace DescriptorMarshal

/-- Which of two equally near decimals is taken. -/
inductive Tie where
  | even
  | up
  deriving DecidableEq, Repr

structure NumberLayout where
  /-- Scientific exponents from here … -/
  leastPositional : Int
  /-- … up to, but not including, here are written without an exponent. -/
  mostPositional : Int
  signedExponent : Bool
  tie : Tie
  infinity : String
  nan : String
  deriving DecidableEq, Repr

namespace Binary64

/-- Does the positive decimal `digits * 10 ^ exponent` read back as the magnitude of `x`? -/
def readsAs (x : Binary64) (digits : Nat) (exponent : Int) : Bool :=
  (Decimal.toBinary64 ⟨false, digits, exponent⟩).magnitude == x.magnitude

def ratioTo (x : Binary64) (exponent : Int) : Nat × Nat :=
  (x.significand <<< x.exponent.toNat * tenTo (-exponent).toNat,
    tenTo exponent.toNat <<< (-x.exponent).toNat)

/-- The multiple of `10 ^ exponent` that reads back as `x` and is nearest to it, if one of its
two neighbours does. -/
def onGrid? (tie : Tie) (x : Binary64) (exponent : Int) : Option Nat :=
  let (num, den) := x.ratioTo exponent
  let below := num / den
  let twice := 2 * (num % den)
  let aboveNearer := den < twice || (twice == den && (tie == .up || below % 2 == 1))
  match x.readsAs below exponent, x.readsAs (below + 1) exponent with
  | true, true => some (if aboveNearer then below + 1 else below)
  | true, false => some below
  | false, true => some (below + 1)
  | false, false => none

def searchGrids (tie : Tie) (x : Binary64) : Nat → Int → Decimal
  | 0, _ =>
    let (num, den) := x.ratioTo (min 0 x.exponent)
    ⟨x.isNegative, num / den, min 0 x.exponent⟩
  | steps + 1, exponent =>
    match x.onGrid? tie exponent with
    | some digits => ⟨x.isNegative, digits, exponent⟩
    | none => searchGrids tie x steps (exponent - 1)

/-- The decimal with the fewest digits that reads back as `x`, a positive finite number up to
its sign. The first grid is at least as coarse as `x` itself, and a grid seventeen digits finer
always has a hit. -/
def shortest (tie : Tie) (x : Binary64) : Decimal :=
  let coarsest := (x.exponent + x.significand.log2 + 1) * 30103 / 100000 + 1
  x.searchGrids tie 22 coarsest

end Binary64

namespace NumberLayout

def place (layout : NumberLayout) (digits : List Char) (exponent : Int) : List Char :=
  if layout.leastPositional ≤ exponent ∧ exponent < layout.mostPositional then
    if exponent < 0 then
      '0' :: '.' :: List.replicate (-exponent - 1).toNat '0' ++ digits
    else
      let split := exponent.toNat + 1
      let whole := digits.take split ++ List.replicate (split - digits.length) '0'
      let fraction := digits.drop split
      whole ++ '.' :: (if fraction.isEmpty then ['0'] else fraction)
  else
    let fraction := digits.drop 1
    let sign := if layout.signedExponent ∧ 0 ≤ exponent then ['+'] else []
    digits.take 1 ++ (if fraction.isEmpty then [] else '.' :: fraction) ++ 'e' :: sign ++
      (toString exponent).toList

def render (layout : NumberLayout) (x : Binary64) : String :=
  let sign := if x.isNegative then "-" else ""
  if x.isNaN then layout.nan
  else if x.magnitude = 0 then sign ++ "0.0"
  else if x.isFinite then
    let decimal := x.shortest layout.tie
    let digits := Nat.toDigits 10 decimal.digits
    let kept := (digits.reverse.dropWhile (· == '0')).reverse
    sign ++ String.ofList (layout.place kept (decimal.exponent + digits.length - 1))
  else sign ++ layout.infinity

end NumberLayout

end DescriptorMarshal
