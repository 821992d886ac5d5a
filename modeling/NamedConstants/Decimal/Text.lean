import NamedConstants.Decimal.Shortest

/-!
The text of numbers. A number is written with its shortest digits: positionally from
`1e-6` up to below `1e21`, with an exponent elsewhere. Diagnostics round numbers that
are not integers to a few decimal places first.
-/
namespace NamedConstants

namespace Decimal

/-- The powers of ten between which numbers are written without an exponent: the
decimal point stands at most this many places after the first digit, and at most
`5` zeros separate it from the first digit that follows. -/
def longestInteger : Int := 21

def longestZeroRun : Int := 5

private def zeros (n : Int) : List Char := List.replicate n.toNat '0'

private def scientific (digits : List Char) (exponent : Int) : List Char :=
  let mantissa :=
    match digits with
    | first :: second :: rest => first :: '.' :: second :: rest
    | short => short
  let sign := if exponent < 0 then '-' else '+'
  mantissa ++ 'e' :: sign :: Nat.toDigits 10 exponent.natAbs

def text (d : Decimal) : String :=
  let digits := d.significantDigits
  let point := d.pointPosition
  String.ofList <|
    if longestInteger < point ∨ point < -longestZeroRun then scientific digits (point - 1)
    else if point ≤ 0 then '0' :: '.' :: (zeros (-point) ++ digits)
    else if digits.length ≤ point then digits ++ zeros (point - digits.length)
    else digits.take point.toNat ++ '.' :: digits.drop point.toNat

end Decimal

/-- The text of a double; both zeros are written `0`. -/
def numberText (x : Float) : String :=
  if x.isNaN then "NaN"
  else
    let sign := if isNegative x then "-" else ""
    if x.isInf then sign ++ "Infinity"
    else if x == 0 then "0"
    else sign ++ (shortestDecimal x).text

abbrev Places := Fin 101

namespace Places

def standard : Places := 4

inductive Error where
  | outOfRange
deriving DecidableEq, Repr

def Error.message : Error → String
  | .outOfRange => "toFixed() digits argument must be between 0 and 100"

def ofInt? (n : Int) : Option Places :=
  if h : 0 ≤ n ∧ n.toNat < 101 then some ⟨n.toNat, h.2⟩ else none

end Places

def roundToPlaces (places : Places) (x : Float) : Float :=
  let magnitude := ((Binary.ofFloat x).toDecimal.roundTo places).toFloat
  if isNegative x then -magnitude else magnitude

/-- Integers are written in full; other numbers are rounded, and lose trailing zeros. -/
def formatNumber (places : Places) (x : Float) : String :=
  if isIntegral x || !x.isFinite then numberText x
  else numberText (roundToPlaces places x)

/-- Formatting with a requested number of places, which matters only if some number
is not an integer. -/
def withPlaces {α : Type} (places : Int) (numbers : List Float) (format : Places → α) :
    Except Places.Error α :=
  match Places.ofInt? places with
  | some supported => .ok (format supported)
  | none =>
    if numbers.all isIntegral then .ok (format .standard) else .error .outOfRange

end NamedConstants
