import NamedConstants.Expr.Basic
import NamedConstants.Decimal.Text

/-!
The text of expressions. Parentheses are written only where the tree would otherwise
be read differently: around an operand that binds looser than its parent, and around
a right operand of equal precedence under `-` or `/`.
-/
namespace NamedConstants

def constantTag (id : ConstantId) : String := "#" ++ toString id

namespace Expr

variable {α ν : Type}

def NeedsParens (parent : BinaryOp) (onRight : Bool) : Expr α ν → Prop
  | binary op _ _ =>
    op.precedence < parent.precedence ∨
      (onRight = true ∧ op.precedence = parent.precedence ∧ (parent = .sub ∨ parent = .div))
  | _ => False

instance (parent : BinaryOp) (onRight : Bool) (e : Expr α ν) :
    Decidable (e.NeedsParens parent onRight) := by
  cases e <;> unfold NeedsParens <;> infer_instance

private def enclosed (needed : Bool) (text : String) : String :=
  if needed then "(" ++ text ++ ")" else text

def render (number : α → String) (label : ConstantId → String) (name : ν → String) :
    Expr α ν → String
  | literal value => number value
  | constant id => label id
  | var x => name x
  | binary op left right =>
    enclosed (left.NeedsParens op false) (left.render number label name) ++ " " ++ op.symbol ++
      " " ++ enclosed (right.NeedsParens op true) (right.render number label name)

def format (places : Places) (label : ConstantId → String) (e : Expr Float String) : String :=
  e.render (formatNumber places) label id

end Expr

end NamedConstants
