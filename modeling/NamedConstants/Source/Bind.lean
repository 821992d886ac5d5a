import NamedConstants.Source.Tree
import NamedConstants.Source.Units

/-!
Binding of the names in a written expression. In a formula every name has to be a
constant; in a constraint it may also be a decision variable. Names are bound from left
to right and the first one that has no meaning is reported. A negated number becomes
the negative number, and any other negation a product with minus one.
-/
namespace NamedConstants

inductive NameBinding where
  | constant (id : ConstantId)
  | decision (name : String)
  | ambiguous (candidates : List ConstantId)
  | unknown
deriving DecidableEq, Repr

inductive BindingFault where
  | ambiguous (candidates : Nat)
  | notConstant
  | unknown
deriving DecidableEq, Repr

structure BindingError (ρ : Type) where
  fault : BindingFault
  name : String
  position : ρ
deriving DecidableEq, Repr

namespace BindingError

variable {ρ : Type}

def detail (e : BindingError ρ) : String :=
  let quoted := "\"" ++ e.name ++ "\""
  match e.fault with
  | .ambiguous candidates => "Name " ++ quoted ++ " matches " ++ toString candidates ++ " constants"
  | .notConstant =>
    quoted ++ " is not a constant; constant formulas cannot reference decision variables"
  | .unknown => "Unknown constant " ++ quoted

def message [Position ρ] (source : String) (e : BindingError ρ) : String :=
  pointAt source e.detail e.position

end BindingError

namespace NameBinding

def toFormula {α : Type} : NameBinding → Except BindingFault (Formula α)
  | constant id => .ok (.constant id)
  | decision _ => .error .notConstant
  | ambiguous candidates => .error (.ambiguous candidates.length)
  | unknown => .error .unknown

def toExpr {α : Type} : NameBinding → Except BindingFault (Expr α String)
  | constant id => .ok (.constant id)
  | decision name => .ok (.var name)
  | ambiguous candidates => .error (.ambiguous candidates.length)
  | unknown => .error .unknown

end NameBinding

namespace SourceTree

variable {α ν ρ : Type} [Arithmetic α]

def bindWith (leaf : String → Except BindingFault (Expr α ν)) :
    SourceTree α ρ → Except (BindingError ρ) (Expr α ν)
  | number value => .ok (.literal value)
  | name text mark => (leaf text).mapError fun fault => { fault, name := text, position := mark }
  | negate (number value) => .ok (.literal (-value))
  | negate operand => do
    let bound ← operand.bindWith leaf
    return .binary .mul (.literal (-Arithmetic.one)) bound
  | binary op left right => do
    let l ← left.bindWith leaf
    let r ← right.bindWith leaf
    return .binary op l r

def bindFormula (resolve : String → NameBinding) (tree : SourceTree α ρ) :
    Except (BindingError ρ) (Formula α) :=
  tree.bindWith fun name => (resolve name).toFormula

def bindExpr (resolve : String → NameBinding) (tree : SourceTree α ρ) :
    Except (BindingError ρ) (Expr α String) :=
  tree.bindWith fun name => (resolve name).toExpr

end SourceTree

def SourceRelation.bind {α ρ : Type} [Arithmetic α] (resolve : String → NameBinding)
    (r : SourceRelation α ρ) : Except (BindingError ρ) (Constraint α) := do
  let lhs ← r.lhs.bindExpr resolve
  let rhs ← r.rhs.bindExpr resolve
  return { lhs, relation := r.relation, rhs }

end NamedConstants
