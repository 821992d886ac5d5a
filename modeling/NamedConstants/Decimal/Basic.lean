/-!
Unsigned decimal numbers: a coefficient and a power of ten. They carry the digits
of a number between a binary value and its text, in both directions.
-/
namespace NamedConstants

/-- The number `coefficient * 10 ^ exponent`. -/
structure Decimal where
  coefficient : Nat
  exponent : Int
deriving DecidableEq, Repr

namespace Decimal

def digits (d : Decimal) : List Char := Nat.toDigits 10 d.coefficient

def significantDigits (d : Decimal) : List Char :=
  (d.digits.reverse.dropWhile (· = '0')).reverse

/-- How many digits stand before the decimal point; not positive for numbers below 0.1. -/
def pointPosition (d : Decimal) : Int := d.digits.length + d.exponent

/-- Rounds to a number of decimal places, a half going away from zero. -/
def roundTo (d : Decimal) (places : Nat) : Decimal :=
  let dropped := (-d.exponent - places).toNat
  if dropped = 0 then d
  else
    { coefficient := (2 * d.coefficient + Nat.pow 10 dropped) / (2 * Nat.pow 10 dropped)
      exponent := -places }

/-- The double nearest to a decimal, ties going to the even one; infinite beyond the range. -/
def toFloat (d : Decimal) : Float :=
  Float.ofScientific d.coefficient (d.exponent < 0) d.exponent.natAbs

end Decimal

end NamedConstants
