import NamedConstants.Constants.Closure
import NamedConstants.Constants.Order

/-!
Re-resolution of everything that depends on a changed constant, in dependency order.
Values decided during the sweep are staged: they take precedence over the current
ones, also when what was decided is that a constant has no value any more.
-/
namespace NamedConstants

/-- A dependent that has lost its value, or still has none. -/
structure DependentWarning (α : Type) where
  id : ConstantId
  fault : ResolutionFault α
deriving DecidableEq, Repr

structure Sweep (α : Type) where
  values : InsertionMap ConstantId (Option α) := ∅
  warnings : List (DependentWarning α) := []
  staged : InsertionMap ConstantId (Option α)

namespace ConstantGraph

variable {α : Type} [Arithmetic α]

def stagedLookup (g : ConstantGraph α) (staged : InsertionMap ConstantId (Option α))
    (id : ConstantId) : Option α :=
  match staged.get? id with
  | some decided => decided
  | none => g.valueOf? id

def sweepStep (g : ConstantGraph α) (sweep : Sweep α) (id : ConstantId) : Sweep α :=
  match g.resolveWith id (g.stagedLookup sweep.staged) with
  | .ok value =>
    { sweep with
      values := sweep.values.insert id (some value)
      staged := sweep.staged.insert id (some value) }
  | .error fault =>
    { values := sweep.values.insert id none
      warnings := sweep.warnings ++ [{ id, fault }]
      staged := sweep.staged.insert id none }

def sweepOrder (g : ConstantGraph α) (root : ConstantId) : List ConstantId :=
  g.order (g.closure root)

def sweep (g : ConstantGraph α) (root : ConstantId)
    (staged : InsertionMap ConstantId (Option α)) : Sweep α :=
  (g.sweepOrder root).foldl g.sweepStep { staged }

end ConstantGraph

end NamedConstants
