import NamedConstants.Expr.Render

/-!
Constraints as they are stated: two expressions and the relation between them.
-/
namespace NamedConstants

inductive Relation where
  | equal
  | atMost
  | atLeast
deriving DecidableEq, Repr

namespace Relation

def symbol : Relation → String
  | equal => "=="
  | atMost => "<="
  | atLeast => ">="

/-- Whether `offset` stands in the relation to zero, up to the tolerance. -/
def holds {α : Type} [Arithmetic α] (tolerance offset : α) : Relation → Bool
  | equal => Arithmetic.atMost offset tolerance && Arithmetic.atMost (-tolerance) offset
  | atMost => Arithmetic.atMost offset tolerance
  | atLeast => Arithmetic.atMost (-tolerance) offset

end Relation

structure Constraint (α : Type) where
  lhs : Expr α String
  relation : Relation
  rhs : Expr α String
deriving DecidableEq, Repr

namespace Constraint

variable {α : Type}

def constants (c : Constraint α) : InsertionSet ConstantId :=
  .ofList (c.lhs.constantLeaves ++ c.rhs.constantLeaves)

def literals (c : Constraint α) : List α := c.lhs.literals ++ c.rhs.literals

def format (places : Places) (label : ConstantId → String) (c : Constraint Float) : String :=
  c.lhs.format places label ++ " " ++ c.relation.symbol ++ " " ++ c.rhs.format places label

end Constraint

end NamedConstants
