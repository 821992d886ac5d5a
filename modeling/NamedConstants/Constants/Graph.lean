import NamedConstants.Constants.Definition
import NamedConstants.InsertionMap

/-!
Constants with their definitions, current values and dependency edges in both
directions. Nothing ties the parts of such a graph to each other: edges may form
cycles, and the two directions may disagree. The constant table keeps them in step.
-/
namespace NamedConstants

structure ConstantGraph (α : Type) where
  definitions : InsertionMap ConstantId (Definition α) := ∅
  values : InsertionMap ConstantId α := ∅
  references : InsertionMap ConstantId (InsertionSet ConstantId) := ∅
  dependents : InsertionMap ConstantId (InsertionSet ConstantId) := ∅

namespace ConstantGraph

variable {α : Type}

def definitionOf (g : ConstantGraph α) (id : ConstantId) : Definition α :=
  g.definitions.getD id .unset

def valueOf? (g : ConstantGraph α) (id : ConstantId) : Option α := g.values.get? id

def referencesOf (g : ConstantGraph α) (id : ConstantId) : InsertionSet ConstantId :=
  g.references.getD id ∅

def dependentsOf (g : ConstantGraph α) (id : ConstantId) : InsertionSet ConstantId :=
  g.dependents.getD id ∅

def resolveWith [Arithmetic α] (g : ConstantGraph α) (id : ConstantId)
    (lookup : ConstantId → Option α) : Except (ResolutionFault α) α :=
  (g.definitionOf id).resolve id lookup

def resolve [Arithmetic α] (g : ConstantGraph α) (id : ConstantId) :
    Except (ResolutionFault α) α :=
  g.resolveWith id g.valueOf?

def setValue (g : ConstantGraph α) (id : ConstantId) : Option α → ConstantGraph α
  | some value => { g with values := g.values.insert id value }
  | none => { g with values := g.values.erase id }

def setValues (g : ConstantGraph α) (values : InsertionMap ConstantId (Option α)) :
    ConstantGraph α :=
  values.entries.foldl (fun g entry => g.setValue entry.1 entry.2) g

end ConstantGraph

end NamedConstants
