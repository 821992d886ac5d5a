import NamedConstants.Decimal.Basic

/-!
The exact value of a double. A finite double is an integer times a power of two,
read off the fields of its bit pattern, and every such number has a finite decimal
expansion.
-/
namespace NamedConstants

/-- The number `significand * 2 ^ exponent`. -/
structure Binary where
  significand : Nat
  exponent : Int
deriving DecidableEq, Repr

namespace Binary

/-- The exponent shared by the subnormal doubles and the least normal ones. -/
def leastExponent : Int := -1074

/-- The weight of the leading bit of a normal double, which its bit pattern leaves out. -/
def hiddenBit : Nat := Nat.pow 2 52

def ofFloat (x : Float) : Binary :=
  let bits := x.toBits.toNat
  let fraction := bits % hiddenBit
  let biased : Nat := bits / hiddenBit % Nat.pow 2 11
  if biased = 0 then { significand := fraction, exponent := leastExponent }
  else { significand := hiddenBit + fraction, exponent := (biased : Int) - 1075 }

/-- The same number in powers of ten: a negative power of two turns into a power of five. -/
def toDecimal (b : Binary) : Decimal :=
  if 0 ≤ b.exponent then
    { coefficient := b.significand * Nat.pow 2 b.exponent.toNat, exponent := 0 }
  else
    { coefficient := b.significand * Nat.pow 5 b.exponent.natAbs, exponent := b.exponent }

def IsIntegral (b : Binary) : Prop :=
  b.significand % Nat.pow 2 (-b.exponent).toNat = 0

instance (b : Binary) : Decidable b.IsIntegral :=
  inferInstanceAs (Decidable (_ = _))

end Binary

def isNegative (x : Float) : Bool := x.toBits.toNat.testBit 63

def isIntegral (x : Float) : Bool := x.isFinite && decide (Binary.ofFloat x).IsIntegral

end NamedConstants
