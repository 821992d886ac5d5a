import NamedConstants.Constants.Definition
import NamedConstants.Linear.Linearize
import NamedConstants.Solver.Recorder

/-!
The codes of faults and the sentences that describe them. Constants are named by their
labels. A dependency counts as unresolved also when it has a value, but depends on the
constant being set; its description says so.
-/
namespace NamedConstants

/-- Constraints are numbered from 1 in the order in which they were added. -/
abbrev Handle := Int

inductive ConstantFault where
  | resolution (fault : ResolutionFault Float)
  | relinearizationFailed (handle : Handle) (cause : LinearizeFault Float)
deriving DecidableEq, Repr

inductive ErrorCode where
  | invalidConfig
  | constantNotSet
  | unresolvedDependency
  | divisionByZero
  | unknownConstant
  | selfReference
  | nonFiniteValue
  | relinearizationFailed
  | nonlinear
  | noVariables
  | triviallyUnsatisfiable
  | unresolvedConstant
  | nonFiniteCoefficient
  | infeasible
deriving DecidableEq, Repr

namespace ErrorCode

def text : ErrorCode → String
  | invalidConfig => "INVALID_CONFIG"
  | constantNotSet => "CONSTANT_NOT_SET"
  | unresolvedDependency => "UNRESOLVED_DEPENDENCY"
  | divisionByZero => "DIVISION_BY_ZERO"
  | unknownConstant => "UNKNOWN_CONSTANT"
  | selfReference => "SELF_REFERENCE"
  | nonFiniteValue => "NON_FINITE_VALUE"
  | relinearizationFailed => "RELINEARIZATION_FAILED"
  | nonlinear => "NONLINEAR"
  | noVariables => "NO_VARIABLES"
  | triviallyUnsatisfiable => "TRIVIALLY_UNSATISFIABLE"
  | unresolvedConstant => "UNRESOLVED_CONSTANT"
  | nonFiniteCoefficient => "NON_FINITE_COEFFICIENT"
  | infeasible => "INFEASIBLE"

def message (code : ErrorCode) (given : Option String) : String := given.getD code.text

end ErrorCode

structure FaultContext where
  labelOf : ConstantId → String
  valueOf? : ConstantId → Option Float

namespace FaultContext

def quoted (ctx : FaultContext) (id : ConstantId) : String := "\"" ++ ctx.labelOf id ++ "\""

end FaultContext

namespace ResolutionFault

def code {α : Type} : ResolutionFault α → ErrorCode
  | notSet _ => .constantNotSet
  | unresolvedDependency _ _ => .unresolvedDependency
  | divisionByZero _ => .divisionByZero
  | unknownConstant _ _ => .unknownConstant
  | selfReference _ => .selfReference
  | nonFiniteValue _ _ => .nonFiniteValue

def describe (ctx : FaultContext) : ResolutionFault Float → String
  | notSet id => "Constant " ++ ctx.quoted id ++ " is not set."
  | unresolvedDependency missing whileSetting =>
    let base := "Can not set constant " ++ ctx.quoted whileSetting ++ " because " ++
      ctx.quoted missing ++ " is not set."
    if (ctx.valueOf? missing).isSome then
      base ++ " " ++ ctx.quoted missing ++ " depends on " ++ ctx.quoted whileSetting ++
        " and resolves after it."
    else base
  | divisionByZero id => "Can not resolve constant " ++ ctx.quoted id ++ ": division by zero."
  | unknownConstant id whileSetting =>
    if id = whileSetting then "Unknown constant " ++ constantTag id ++ "."
    else
      "Can not set constant " ++ ctx.quoted whileSetting ++
        ": it references undeclared constant " ++ constantTag id ++ "."
  | selfReference id =>
    "Can not set constant " ++ ctx.quoted id ++ ": its formula references itself."
  | nonFiniteValue id value =>
    "Can not resolve constant " ++ ctx.quoted id ++ ": " ++ numberText value ++
      " is not a finite value."

end ResolutionFault

namespace LinearizeFault

def code {α : Type} : LinearizeFault α → ErrorCode
  | nonlinear _ _ => .nonlinear
  | noVariables _ => .noVariables
  | triviallyUnsatisfiable _ _ => .triviallyUnsatisfiable
  | unresolvedConstant _ => .unresolvedConstant
  | divisionByZero => .divisionByZero
  | nonFiniteCoefficient _ => .nonFiniteCoefficient

def describe (ctx : FaultContext) : LinearizeFault Float → String
  | nonlinear _ detail => "Nonlinear constraint: " ++ detail ++ "."
  | noVariables _ => "Constraint contains no decision variables (overconstrained)."
  | triviallyUnsatisfiable offset relation =>
    "Constraint contains no decision variables and can never hold: " ++
      formatNumber .standard offset ++ " " ++ relation.symbol ++ " 0."
  | unresolvedConstant id =>
    "Constraint references constant " ++ ctx.quoted id ++ ", which is not set."
  | divisionByZero => "Constraint divides by a constant expression that evaluates to zero."
  | nonFiniteCoefficient value =>
    "Constraint produced a non-finite coefficient (" ++ numberText value ++ ")."

end LinearizeFault

namespace ConstantFault

def code : ConstantFault → ErrorCode
  | resolution fault => fault.code
  | relinearizationFailed _ _ => .relinearizationFailed

def describe (ctx : FaultContext) : ConstantFault → String
  | resolution fault => fault.describe ctx
  | relinearizationFailed handle cause =>
    "Constraint " ++ toString handle ++ " could not be relinearized: " ++ cause.describe ctx

end ConstantFault

end NamedConstants
