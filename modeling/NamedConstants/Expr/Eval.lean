import NamedConstants.Expr.Basic

/-!
Evaluation of formulas. Operands are evaluated from left to right and the first
failure wins. Every result of an operation has to be finite; the value that a
constant is looked up to is taken as it is.
-/
namespace NamedConstants

inductive EvalFault (α : Type) where
  | unresolvedConstant (id : ConstantId)
  | divideByZero
  | nonFiniteResult (value : α)
deriving DecidableEq, Repr

variable {α : Type} [Arithmetic α]

def requireFinite (x : α) : Except (EvalFault α) α :=
  if Arithmetic.isFinite x then .ok x else .error (.nonFiniteResult x)

def BinaryOp.eval (op : BinaryOp) (a b : α) : Except (EvalFault α) α :=
  if op = .div ∧ Arithmetic.isZero b then .error .divideByZero
  else requireFinite (op.apply a b)

namespace Expr

def eval (lookup : ConstantId → Option α) : Formula α → Except (EvalFault α) α
  | literal value => requireFinite value
  | constant id =>
    match lookup id with
    | some value => .ok value
    | none => .error (.unresolvedConstant id)
  | binary op left right =>
    match left.eval lookup with
    | .error fault => .error fault
    | .ok a =>
      match right.eval lookup with
      | .error fault => .error fault
      | .ok b => op.eval a b

end Expr

end NamedConstants
