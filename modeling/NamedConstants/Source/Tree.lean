import NamedConstants.Constraint

/-!
Expressions as they are written, before anything is known about the names in them.
Each name carries a mark of the place where it stands.
-/
namespace NamedConstants

/-- Written expressions with numbers from `α` and places from `ρ`. -/
inductive SourceTree (α ρ : Type) where
  | number (value : α)
  | name (text : String) (mark : ρ)
  | negate (operand : SourceTree α ρ)
  | binary (op : BinaryOp) (left right : SourceTree α ρ)
deriving DecidableEq, Repr

structure SourceRelation (α ρ : Type) where
  lhs : SourceTree α ρ
  relation : Relation
  rhs : SourceTree α ρ
deriving DecidableEq, Repr

namespace SourceTree

variable {α ρ : Type}

def names : SourceTree α ρ → List (String × ρ)
  | number _ => []
  | name text mark => [(text, mark)]
  | negate operand => operand.names
  | binary _ left right => left.names ++ right.names

end SourceTree

end NamedConstants
