/-!
Positions in a source text count 16-bit code units: a character beyond the basic
plane takes two of them.
-/
namespace NamedConstants

def unitLength (c : Char) : Nat := if c.toNat < 0x10000 then 1 else 2

def units : List Char → Nat
  | [] => 0
  | c :: rest => unitLength c + units rest

/-- The first code unit of a character, shown as a character. Half of a pair is not
one, and the replacement character stands for it. -/
def leadingUnit (c : Char) : Char := if c.toNat < 0x10000 then c else '\uFFFD'

/-- Marks that can stand for a position in a source text. -/
class Position (ρ : Type) where
  /-- The column that a mark points at in a text of the given length. -/
  column : ρ → Nat → Nat

instance : Position Nat where
  column position length := min position length

/-- A fractional position is cut off, and one that is not finite points at the start. -/
instance : Position Float where
  column position length :=
    if !position.isFinite || position ≤ 0 then 0
    else if Float.ofNat length ≤ position then length
    else position.toUInt64.toNat

/-- A complaint about a place in a source text: the text is shown below it, with a
caret under the place. -/
def pointAt {ρ : Type} [Position ρ] (source detail : String) (position : ρ) : String :=
  let column := Position.column position (units source.toList)
  detail ++ " at position " ++ toString column ++ "\n  " ++ source ++ "\n" ++
    String.ofList (List.replicate (2 + column) ' ') ++ "^"

end NamedConstants
