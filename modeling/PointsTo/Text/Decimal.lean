import PointsTo.Text.Quotient

/-!
# Decimals and doubles

A decimal is a whole number and a power of ten. It `fits` a double if the
nearest double is finite. It `fitsScaled` if the same holds when the number and
the power are rounded to 53 binary digits before they are multiplied, which a
number just below the limit may fail and one just above it may pass.
-/

namespace PointsTo.Text

/-- The value `significand · 10 ^ exponent`. -/
structure Decimal where
  significand : Nat
  exponent : Int
deriving DecidableEq, Inhabited

/-- The least value that is rounded to infinity: 54 binary ones and 970 zeros. -/
def doubleLimit : Nat := (1 <<< 54 - 1) <<< 970

/-- The largest power of ten that is a double. -/
def maxDoublePower : Nat := 308

namespace Decimal

/-- A power of ten, which is 1 for a negative exponent. -/
def power (exponent : Int) : Nat := Nat.pow 10 exponent.toNat

/-- The position of the first digit: the value lies below this power of ten, and
not below the one before it. -/
def top (d : Decimal) : Int := d.exponent + (Nat.toDigits 10 d.significand).length

/-- Only where the first digit is the first one of the limit do the other digits
count. -/
def fits (d : Decimal) : Bool :=
  if d.significand = 0 ∨ d.top ≤ maxDoublePower then true
  else if (maxDoublePower : Int) + 1 < d.top then false
  else
    decide (d.significand * power d.exponent < doubleLimit * power (-d.exponent))

def fitsScaled (d : Decimal) : Bool :=
  if d.significand = 0 ∨ d.exponent < 0 then true
  else if (maxDoublePower : Int) < d.exponent then false
  else
    let a := toBinary d.significand 1
    let b := toBinary (power d.exponent) 1
    decide (a.num * b.num < doubleLimit * (a.den * b.den))

end Decimal

end PointsTo.Text
