import NamedConstants.Expr.Eval

/-!
Definitions of constants and their resolution to values. A constant is unset, or
defined by a number, or by a formula over other constants.
-/
namespace NamedConstants

inductive Definition (α : Type) where
  | unset
  | literal (value : α)
  | formula (expr : Formula α)
deriving DecidableEq, Repr

inductive ResolutionFault (α : Type) where
  | notSet (id : ConstantId)
  | unresolvedDependency (missing whileSetting : ConstantId)
  | divisionByZero (id : ConstantId)
  | unknownConstant (id whileSetting : ConstantId)
  | selfReference (id : ConstantId)
  | nonFiniteValue (id : ConstantId) (value : α)
deriving DecidableEq, Repr

def EvalFault.resolving {α : Type} (id : ConstantId) : EvalFault α → ResolutionFault α
  | unresolvedConstant missing => .unresolvedDependency missing id
  | divideByZero => .divisionByZero id
  | nonFiniteResult value => .nonFiniteValue id value

namespace Definition

variable {α : Type}

/-- A formula that is only a number defines its constant as a literal. -/
def ofFormula : Formula α → Definition α
  | .literal value => literal value
  | expr => formula expr

def references : Definition α → InsertionSet ConstantId
  | unset => ∅
  | literal _ => ∅
  | formula expr => expr.constants

def resolve [Arithmetic α] (id : ConstantId) (lookup : ConstantId → Option α) :
    Definition α → Except (ResolutionFault α) α
  | unset => .error (.notSet id)
  | literal value => (requireFinite value).mapError (EvalFault.resolving id)
  | formula expr => (expr.eval lookup).mapError (EvalFault.resolving id)

end Definition

end NamedConstants
