import NamedConstants.Decimal.Binary

/-!
The shortest decimal that reads back as a given double. The reals that round to a
double form an interval. Among the decimal grids, from coarse to fine, the first
one with a point in that interval gives the fewest digits; of two such points the
one nearer to the double is taken, and of two equally near the even one.
-/
namespace NamedConstants

/-- The reals that round to a double, scaled by a power of ten so that the bounds
and the double itself are integers. -/
structure RoundingInterval where
  exponent : Int
  lower : Nat
  value : Nat
  upper : Nat
  /-- The bounds themselves round to the double. -/
  closed : Bool

namespace RoundingInterval

/-- The interval reaches half way to each neighbour. The neighbour below a power of
two is only half as far away as the one above, unless both are subnormal spaced. -/
def ofBinary (b : Binary) : RoundingInterval :=
  let quarters (n : Nat) : Decimal :=
    Binary.toDecimal { significand := n, exponent := b.exponent - 2 }
  let below := if b.significand = Binary.hiddenBit ∧ Binary.leastExponent < b.exponent then 1 else 2
  { exponent := (quarters 0).exponent
    lower := (quarters (4 * b.significand - below)).coefficient
    value := (quarters (4 * b.significand)).coefficient
    upper := (quarters (4 * b.significand + 2)).coefficient
    closed := b.significand % 2 = 0 }

def Contains (i : RoundingInterval) (n : Nat) : Prop :=
  if i.closed then i.lower ≤ n ∧ n ≤ i.upper else i.lower < n ∧ n < i.upper

instance (i : RoundingInterval) (n : Nat) : Decidable (i.Contains n) := by
  unfold Contains
  infer_instance

/-- The multiple of `step` that stands for the interval, if it holds one. Only the
two multiples around the value need a look. -/
def pick? (i : RoundingInterval) (step : Nat) : Option Nat :=
  let quotient := i.value / step
  let low := quotient * step
  let high := low + step
  if i.Contains low then
    if i.Contains high then
      let nearHigh := high - i.value < i.value - low
      let tie := high - i.value = i.value - low
      if nearHigh ∨ (tie ∧ quotient % 2 = 1) then some high else some low
    else some low
  else if i.Contains high then some high
  else none

/-- The pick of the coarsest grid `10 ^ s` with one, looking from `s` downwards. -/
def coarsest (i : RoundingInterval) : Nat → Nat
  | 0 => i.value
  | s + 1 => (i.pick? (Nat.pow 10 (s + 1))).getD (i.coarsest s)

def shortest (i : RoundingInterval) : Decimal where
  coefficient := i.coarsest ((Nat.toDigits 10 i.value).length - 1)
  exponent := i.exponent

end RoundingInterval

/-- The fewest digits that read back as the absolute value of a finite nonzero double. -/
def shortestDecimal (x : Float) : Decimal :=
  (RoundingInterval.ofBinary (Binary.ofFloat x)).shortest

end NamedConstants
