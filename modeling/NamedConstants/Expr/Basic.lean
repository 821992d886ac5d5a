import NamedConstants.Arithmetic
import NamedConstants.InsertionSet

/-!
Expressions over literals, named constants and decision variables. A formula is an
expression without variables; both constants and constraints are defined by such
trees. The constants of a tree are listed in order of first appearance.
-/
namespace NamedConstants

/-- Constants are numbered from 1 in order of declaration; other numbers name none. -/
abbrev ConstantId := Int

inductive BinaryOp where
  | add
  | sub
  | mul
  | div
deriving DecidableEq, Repr

namespace BinaryOp

def symbol : BinaryOp → String
  | add => "+"
  | sub => "-"
  | mul => "*"
  | div => "/"

def precedence : BinaryOp → Nat
  | add => 1
  | sub => 1
  | mul => 2
  | div => 2

def apply {α : Type} [Arithmetic α] : BinaryOp → α → α → α
  | add, a, b => a + b
  | sub, a, b => a - b
  | mul, a, b => a * b
  | div, a, b => a / b

end BinaryOp

/-- Trees with numbers from `α` and decision variables named by `ν`. -/
inductive Expr (α ν : Type) where
  | literal (value : α)
  | constant (id : ConstantId)
  | var (name : ν)
  | binary (op : BinaryOp) (left right : Expr α ν)
deriving DecidableEq, Repr

abbrev Formula (α : Type) := Expr α Empty

namespace Expr

variable {α β ν μ : Type}

def constantLeaves : Expr α ν → List ConstantId
  | literal _ => []
  | constant id => [id]
  | var _ => []
  | binary _ left right => left.constantLeaves ++ right.constantLeaves

def variableLeaves : Expr α ν → List ν
  | literal _ => []
  | constant _ => []
  | var name => [name]
  | binary _ left right => left.variableLeaves ++ right.variableLeaves

def literals : Expr α ν → List α
  | literal value => [value]
  | constant _ => []
  | var _ => []
  | binary _ left right => left.literals ++ right.literals

def constants (e : Expr α ν) : InsertionSet ConstantId := .ofList e.constantLeaves

def bind : Expr α ν → (ν → Expr α μ) → Expr α μ
  | literal value, _ => literal value
  | constant id, _ => constant id
  | var name, f => f name
  | binary op left right, f => binary op (left.bind f) (right.bind f)

def ofFormula (e : Formula α) : Expr α ν := e.bind Empty.elim

def assign (e : Expr α ν) (value : ν → α) : Formula α := e.bind fun name => literal (value name)

end Expr

end NamedConstants
