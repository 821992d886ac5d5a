import NamedConstants.Engine.Basic

/-!
A readable account of an engine: every constant with its rendered definition, and every
tracked constraint with the text of its definition and of its linear form.
-/
namespace NamedConstants

structure ConstantAccount where
  id : ConstantId
  label : String
  definition : Definition Float
  /-- The rendered definition; an unset constant has none. -/
  text : Option String
  value : Option Float
  dependents : List ConstantId
  constraints : List Handle

structure ConstraintAccount (σ : Type) where
  handle : Handle
  entry : Tracked σ
  text : String
  linearText : Option String

namespace Propagator

variable {σ : Type}

def snapshot (p : Propagator σ) : List (ConstraintAccount σ) :=
  p.tracked.entries.map fun (handle, entry) =>
    { handle, entry
      text := entry.definition.format .standard p.table.labelOf
      linearText := entry.linear.map fun linear => linear.format .standard }

end Propagator

namespace Engine

variable {σ : Type}

def definitionText (e : Engine σ) : Definition Float → Option String
  | .unset => none
  | .literal value => some (formatNumber .standard value)
  | .formula expr => some ((Expr.ofFormula expr).format .standard e.table.labelOf)

def constantAccounts (e : Engine σ) : List ConstantAccount :=
  e.table.ids.map fun id =>
    { id
      label := e.table.labelOf id
      definition := e.table.definitionOf id
      text := e.definitionText (e.table.definitionOf id)
      value := e.table.valueOf? id
      dependents := (e.table.dependentsOf id).toList.mergeSort
      constraints := (e.propagator.handlesFor id).toList.mergeSort }

end Engine

end NamedConstants
