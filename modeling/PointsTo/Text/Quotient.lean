/-!
# Quotients in print

A quotient of two counters is computed in binary with 53 significant digits, as
are the counters themselves, and printed with a fixed number of decimal places.
Both roundings take the nearest value and break a tie towards the even one; all
of it is done in whole numbers.
-/

namespace PointsTo.Text

/-- The nearest whole number to `num / den`, the even one of two. -/
def nearest (num den : Nat) : Nat :=
  let q := num / den
  let r := num % den
  if 2 * r < den then q
  else if den < 2 * r then q + 1
  else q + q % 2

/-- A fraction; its denominator is not zero. -/
structure Fraction where
  num : Nat
  den : Nat
deriving DecidableEq

/-- The nearest fraction to `num / den` that has 53 significant binary digits. -/
def toBinary (num den : Nat) : Fraction :=
  if num = 0 then ⟨0, 1⟩
  else
    let shift : Int := 53 - ((num.log2 : Int) - (den.log2 : Int))
    let scaled (s : Int) : Nat × Nat := (num <<< s.toNat, den <<< (-s).toNat)
    let s := if 1 <<< 53 ≤ (scaled shift).1 / (scaled shift).2 then shift - 1 else shift
    ⟨nearest (scaled s).1 (scaled s).2 <<< (-s).toNat, 1 <<< s.toNat⟩

/-- The quotient of two counters. -/
def quotient (a b : Nat) : Fraction :=
  let a := toBinary a 1
  let b := toBinary b 1
  toBinary (a.num * b.den) (a.den * b.num)

def twoDigits (n : Nat) : String := String.ofList [(n / 10).digitChar, (n % 10).digitChar]

/-- With two decimal places. -/
def Fraction.hundredths (f : Fraction) : String :=
  let n := nearest (100 * f.num) f.den
  toString (n / 100) ++ "." ++ twoDigits (n % 100)

end PointsTo.Text
