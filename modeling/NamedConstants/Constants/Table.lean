import NamedConstants.Constants.Sweep
import NamedConstants.Expr.Render

/-!
The table of constants. A definition is accepted only if everything it mentions has a
value while the dependents of the constant are out of sight, so definitions can never
form a cycle. An accepted definition that changes the value is followed by a sweep
over the dependents; a rejected one leaves the table as it was.
-/
namespace NamedConstants

structure ConstantTable (α : Type) extends ConstantGraph α where
  /-- The labels of the constants `1, 2, 3, …`, which need not be distinct. -/
  labels : List String := []

/-- A value that differs from before; `none` stands for an unresolved constant. -/
structure ConstantChange (α : Type) where
  id : ConstantId
  previous : Option α
  value : Option α
deriving DecidableEq, Repr

structure ConstantUpdate (α : Type) where
  id : ConstantId
  value : α
  /-- The constants whose value differs, in the order of evaluation. -/
  changed : List (ConstantChange α)
  /-- The dependents that have no value now. -/
  warnings : List (DependentWarning α)
deriving DecidableEq, Repr

namespace ConstantTable

variable {α : Type}

instance : EmptyCollection (ConstantTable α) where
  emptyCollection := {}

def size (t : ConstantTable α) : Nat := t.labels.length

def Declares (t : ConstantTable α) (id : ConstantId) : Prop := 1 ≤ id ∧ id ≤ t.size

instance (t : ConstantTable α) (id : ConstantId) : Decidable (t.Declares id) :=
  inferInstanceAs (Decidable (_ ∧ _))

def ids (t : ConstantTable α) : List ConstantId :=
  (List.range t.size).map fun (i : Nat) => (i : Int) + 1

def labelOf (t : ConstantTable α) (id : ConstantId) : String :=
  if t.Declares id then (t.labels[(id - 1).toNat]?).getD (constantTag id) else constantTag id

def findByLabel (t : ConstantTable α) (label : String) : List ConstantId :=
  (t.labels.zipIdx.filter fun entry => entry.1 = label).map fun entry => (entry.2 : Int) + 1

def declare (t : ConstantTable α) (label : String) : ConstantId × ConstantTable α :=
  (t.size + 1, { t with labels := t.labels ++ [label] })

/-- Takes the constant off its old references and enters it at its new ones. -/
def relink (g : ConstantGraph α) (id : ConstantId) (references : InsertionSet ConstantId) :
    ConstantGraph α :=
  let cleared := (g.referencesOf id).toList.foldl
    (fun dependents ref => dependents.insert ref ((dependents.getD ref ∅).erase id)) g.dependents
  let linked := references.toList.foldl
    (fun dependents ref => dependents.insert ref ((dependents.getD ref ∅).insert id)) cleared
  { g with references := g.references.insert id references, dependents := linked }

variable [Arithmetic α]

/-- The value that a definition of `id` would get now, or why it is not accepted. -/
def check (t : ConstantTable α) (id : ConstantId) (definition : Definition α) :
    Except (ResolutionFault α) α :=
  if ¬ t.Declares id then .error (.unknownConstant id id)
  else if id ∈ definition.references then .error (.selfReference id)
  else
    match definition.references.toList.find? fun ref => ¬ t.Declares ref with
    | some ref => .error (.unknownConstant ref id)
    | none =>
      let hidden := t.closure id
      definition.resolve id fun ref => if ref ∈ hidden then none else t.valueOf? ref

def enter (g : ConstantGraph α) (id : ConstantId) (definition : Definition α) (value : α) :
    ConstantGraph α :=
  let linked := relink g id definition.references
  { linked with
    definitions := linked.definitions.insert id definition
    values := linked.values.insert id value }

def change? [DecidableEq α] (before after : ConstantGraph α) (id : ConstantId) :
    Option (ConstantChange α) :=
  if before.valueOf? id = after.valueOf? id then none
  else some { id, previous := before.valueOf? id, value := after.valueOf? id }

def set [DecidableEq α] (t : ConstantTable α) (id : ConstantId) (input : Formula α) :
    Except (ResolutionFault α) (ConstantTable α × ConstantUpdate α) :=
  let definition := Definition.ofFormula input
  match t.check id definition with
  | .error fault => .error fault
  | .ok value =>
    let entered := enter t.toConstantGraph id definition value
    if t.valueOf? id = some value then
      .ok ({ t with toConstantGraph := entered }, { id, value, changed := [], warnings := [] })
    else
      let sweep := entered.sweep id (.singleton id (some value))
      let swept := entered.setValues sweep.values
      let changed :=
        { id, previous := t.valueOf? id, value := some value } ::
          (entered.sweepOrder id).filterMap (change? entered swept)
      .ok ({ t with toConstantGraph := swept }, { id, value, changed, warnings := sweep.warnings })

end ConstantTable

end NamedConstants
