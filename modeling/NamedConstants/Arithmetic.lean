import NamedConstants.Decimal.Basic

/-!
The number systems that expressions are evaluated in. Evaluation, linearization and
the constant table are written once, over any of them: doubles are what runs, and
the rationals are the exact arithmetic that doubles approximate.
-/
namespace NamedConstants

/-- Field operations, the reading of decimals, and the three tests on values that
evaluation makes. The operations need not obey any law. -/
class Arithmetic (α : Type) extends Add α, Sub α, Mul α, Div α, Neg α where
  zero : α
  one : α
  ofDecimal : Decimal → α
  isFinite : α → Bool
  isZero : α → Bool
  atMost : α → α → Bool

namespace Arithmetic

instance : Arithmetic Float where
  zero := 0
  one := 1
  ofDecimal := Decimal.toFloat
  isFinite := Float.isFinite
  isZero x := x == 0
  atMost x y := x ≤ y

instance : Arithmetic Rat where
  add := Rat.add
  sub := Rat.sub
  mul := Rat.mul
  div := Rat.div
  neg := Rat.neg
  zero := Rat.ofInt 0
  one := Rat.ofInt 1
  ofDecimal d :=
    if 0 ≤ d.exponent then mkRat (d.coefficient * Nat.pow 10 d.exponent.toNat) 1
    else mkRat d.coefficient (Nat.pow 10 d.exponent.natAbs)
  isFinite _ := true
  isZero x := x.num == 0
  atMost x y := !Rat.blt y x

end Arithmetic

end NamedConstants
