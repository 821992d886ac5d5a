import NamedConstants.Linear.Linearize

/-!
The text of linear relations: signed terms in order, the offset unless it is zero,
and the comparison with zero. A coefficient of absolute value one is not written.
-/
namespace NamedConstants

namespace LinearRelation

def signed (first : Bool) (coefficient : Float) (body : String) : String :=
  if first then
    if coefficient < 0 then "-" ++ body else body
  else if coefficient < 0 then "- " ++ body
  else "+ " ++ body

def termBody (places : Places) (term : Term Float) : String :=
  let magnitude := term.coefficient.abs
  if magnitude == 1 then term.name else formatNumber places magnitude ++ " * " ++ term.name

def termTexts (places : Places) : List (Term Float) → List String
  | [] => []
  | first :: rest =>
    signed true first.coefficient (termBody places first) ::
      rest.map fun term => signed false term.coefficient (termBody places term)

def format (places : Places) (r : LinearRelation Float) : String :=
  let offset :=
    if r.offset == 0 then [] else [signed false r.offset (formatNumber places r.offset.abs)]
  " ".intercalate (termTexts places r.terms ++ offset) ++ " " ++ r.relation.symbol ++ " 0"

def numbers (r : LinearRelation Float) : List Float := r.offset :: r.terms.map Term.coefficient

end LinearRelation

end NamedConstants
