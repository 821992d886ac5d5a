import NamedConstants.Linear.Form

/-!
Reduction of a constraint to a linear form compared with zero. Constants are replaced
by their values. A product of two expressions with variables and a divisor with a
variable are refused, also when the variables would cancel; a constraint left without
any variable is no constraint on the variables and is refused as well.
-/
namespace NamedConstants

inductive LinearizeFault (α : Type) where
  | nonlinear (op : BinaryOp) (detail : String)
  /-- No variable is left, and the relation holds. -/
  | noVariables (offset : α)
  /-- No variable is left, and the relation fails. -/
  | triviallyUnsatisfiable (offset : α) (relation : Relation)
  | unresolvedConstant (id : ConstantId)
  | divisionByZero
  | nonFiniteCoefficient (value : α)
deriving DecidableEq, Repr

structure Term (α : Type) where
  name : String
  coefficient : α
deriving DecidableEq, Repr

/-- The sum of the terms and the offset, compared with zero. -/
structure LinearRelation (α : Type) where
  terms : List (Term α)
  offset : α
  relation : Relation
deriving DecidableEq, Repr

/-- A constraint in the form that a solver takes, with what it was made from. -/
structure LinearConstraint (α σ : Type) extends LinearRelation α where
  strength : σ
  /-- The constants whose values went into the form. -/
  constants : InsertionSet ConstantId
  definition : Constraint α
deriving DecidableEq

variable {α σ : Type} [Arithmetic α]

namespace LinearForm

/-- The offset as a factor or divisor, which has to be finite. -/
def factor (form : LinearForm α) : Except (LinearizeFault α) α :=
  if Arithmetic.isFinite form.offset then .ok form.offset
  else .error (.nonFiniteCoefficient form.offset)

def mul (left right : LinearForm α) : Except (LinearizeFault α) (LinearForm α) :=
  if left.hasVariable && right.hasVariable then
    .error (.nonlinear .mul "product of two decision-variable expressions")
  else
    let (scaled, constant) := if left.hasVariable then (left, right) else (right, left)
    match constant.factor with
    | .error fault => .error fault
    | .ok k => .ok ((scaled.scale (· * k)).reading (left.constants ∪ right.constants))

def div (left right : LinearForm α) : Except (LinearizeFault α) (LinearForm α) :=
  if right.hasVariable then
    .error (.nonlinear .div "divisor contains a decision variable")
  else
    match right.factor with
    | .error fault => .error fault
    | .ok k =>
      if Arithmetic.isZero k then .error .divisionByZero
      else .ok ((left.scale (· / k)).reading (left.constants ∪ right.constants))

def ofBinary (op : BinaryOp) (left right : LinearForm α) :
    Except (LinearizeFault α) (LinearForm α) :=
  match op with
  | .add => .ok (combine Arithmetic.one left right)
  | .sub => .ok (combine (-Arithmetic.one) left right)
  | .mul => left.mul right
  | .div => left.div right

end LinearForm

def Expr.linearForm (lookup : ConstantId → Option α) :
    Expr α String → Except (LinearizeFault α) (LinearForm α)
  | literal value => .ok (.ofNumber value)
  | constant id =>
    match lookup id with
    | some value => .ok (.ofConstant id value)
    | none => .error (.unresolvedConstant id)
  | var name => .ok (.ofVariable name)
  | binary op left right =>
    match left.linearForm lookup with
    | .error fault => .error fault
    | .ok l =>
      match right.linearForm lookup with
      | .error fault => .error fault
      | .ok r => LinearForm.ofBinary op l r

def nonzeroTerms : List (String × α) → Except (LinearizeFault α) (List (Term α))
  | [] => .ok []
  | (name, coefficient) :: rest =>
    if !Arithmetic.isFinite coefficient then .error (.nonFiniteCoefficient coefficient)
    else
      match nonzeroTerms rest with
      | .error fault => .error fault
      | .ok terms =>
        if Arithmetic.isZero coefficient then .ok terms else .ok ({ name, coefficient } :: terms)

/-- The slack within which a relation without variables counts as satisfied. -/
def defaultTolerance : Float := 1e-8

namespace Constraint

/-- The linear form of a constraint, with everything moved to the left side. Adding
zero to the offset turns a negative zero into a positive one. -/
def linearize (tolerance : α) (lookup : ConstantId → Option α) (strength : σ) (c : Constraint α) :
    Except (LinearizeFault α) (LinearConstraint α σ) :=
  match c.lhs.linearForm lookup with
  | .error fault => .error fault
  | .ok lhs =>
    match c.rhs.linearForm lookup with
    | .error fault => .error fault
    | .ok rhs =>
      let reduced := LinearForm.combine (-Arithmetic.one) lhs rhs
      let offset := reduced.offset + Arithmetic.zero
      if !Arithmetic.isFinite offset then .error (.nonFiniteCoefficient offset)
      else
        match nonzeroTerms reduced.coefficients.entries with
        | .error fault => .error fault
        | .ok [] =>
          if c.relation.holds tolerance offset then .error (.noVariables offset)
          else .error (.triviallyUnsatisfiable offset c.relation)
        | .ok terms =>
          .ok
            { terms, offset, strength
              relation := c.relation
              constants := reduced.constants
              definition := c }

end Constraint

end NamedConstants
