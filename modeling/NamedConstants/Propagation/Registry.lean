import NamedConstants.Constants.Table
import NamedConstants.Fault
import NamedConstants.Linear.Render
import NamedConstants.Log

/-!
The registry of constraints. Each constraint keeps its definition, so that it can be
linearized again when a constant changes. It is either installed in the solver or, when
it has lost all its variables, detached from it. An index leads from a constant to the
constraints that mention it.
-/
namespace NamedConstants

/-- What becomes of a constraint without variables that holds: it is rejected, or it is
tracked without being sent to the solver. -/
inductive ConstantOnlyPolicy where
  | reject
  | skip
deriving DecidableEq, Repr

inductive Slot where
  | installed (token : SolverToken)
  | detached
deriving DecidableEq, Repr

namespace Slot

def isInstalled : Slot → Bool
  | installed _ => true
  | detached => false

end Slot

structure Tracked (σ : Type) where
  definition : Constraint Float
  strength : σ
  /-- The form last accepted by the solver. -/
  linear : Option (LinearConstraint Float σ)
  slot : Slot

inductive WarningKey where
  | dependent (id : ConstantId) (code : ErrorCode)
  | detached (handle : Handle)
deriving DecidableEq, Repr

structure Propagator (σ : Type) where
  table : ConstantTable Float := ∅
  solver : Recorder σ := {}
  log : Log WarningKey
  policy : ConstantOnlyPolicy := .reject
  tolerance : Float := defaultTolerance
  tracked : InsertionMap Handle (Tracked σ) := ∅
  mentions : InsertionMap ConstantId (InsertionSet Handle) := ∅
  nextHandle : Handle := 1

inductive AddFailure where
  | linearize (fault : LinearizeFault Float)
  | infeasible (infeasible : Infeasible)
deriving DecidableEq, Repr

namespace ConstantTable

def faultContext (t : ConstantTable Float) : FaultContext where
  labelOf := t.labelOf
  valueOf? := t.valueOf?

end ConstantTable

namespace Propagator

variable {σ : Type}

def size (p : Propagator σ) : Nat := p.tracked.size

def contains (p : Propagator σ) (handle : Handle) : Bool := p.tracked.contains handle

def linearOf? (p : Propagator σ) (handle : Handle) : Option (LinearConstraint Float σ) :=
  (p.tracked.get? handle).bind fun entry => entry.linear

def handlesFor (p : Propagator σ) (id : ConstantId) : InsertionSet Handle := p.mentions.getD id ∅

def linearize (p : Propagator σ) (definition : Constraint Float) (strength : σ) :
    Except (LinearizeFault Float) (LinearConstraint Float σ) :=
  definition.linearize p.tolerance p.table.valueOf? strength

/-- A failed linearization that the policy accepts as a constraint without variables. -/
def Tolerates (p : Propagator σ) : LinearizeFault Float → Prop
  | .noVariables _ => p.policy = .skip
  | _ => False

instance (p : Propagator σ) (fault : LinearizeFault Float) : Decidable (p.Tolerates fault) := by
  cases fault <;> unfold Tolerates <;> infer_instance

def register (p : Propagator σ) (entry : Tracked σ) : Handle × Propagator σ :=
  let handle := p.nextHandle
  let mentions := entry.definition.constants.toList.foldl
    (fun mentions id => mentions.insert id ((mentions.getD id ∅).insert handle)) p.mentions
  (handle,
    { p with tracked := p.tracked.insert handle entry, mentions, nextHandle := handle + 1 })

/-- Takes a handle out of the index; constants that no constraint mentions leave it. -/
def unlist (mentions : InsertionMap ConstantId (InsertionSet Handle)) (handle : Handle)
    (id : ConstantId) : InsertionMap ConstantId (InsertionSet Handle) :=
  match mentions.get? id with
  | none => mentions
  | some handles =>
    let rest := handles.erase handle
    if rest.isEmpty then mentions.erase id else mentions.insert id rest

def detachedText (p : Propagator σ) (handle : Handle) (definition : Constraint Float) : String :=
  "Constraint " ++ toString handle ++ " (" ++ definition.format .standard p.table.labelOf ++
    ") has no decision variables; it is tracked but not sent to the solver."

def add (p : Propagator σ) (definition : Constraint Float) (strength : σ) :
    Except AddFailure (Handle × Propagator σ) :=
  match p.linearize definition strength with
  | .error fault =>
    if p.Tolerates fault then
      let (handle, registered) :=
        p.register { definition, strength, linear := none, slot := .detached }
      let detail := p.detachedText handle definition
      .ok (handle,
        { registered with log := registered.log.warn .constraints (.detached handle) detail })
    else .error (.linearize fault)
  | .ok linear =>
    match p.solver.install linear with
    | .error infeasible => .error (.infeasible infeasible)
    | .ok (token, solver) =>
      .ok ({ p with solver }.register
        { definition, strength, linear := some linear, slot := .installed token })

def remove (p : Propagator σ) (handle : Handle) : Except SolverMisuse (Bool × Propagator σ) :=
  match p.tracked.get? handle with
  | none => .ok (false, p)
  | some entry =>
    let forgotten : Propagator σ :=
      { p with
        tracked := p.tracked.erase handle
        mentions := entry.definition.constants.toList.foldl (unlist · handle ·) p.mentions }
    match entry.slot with
    | .installed token =>
      match p.solver.remove token with
      | .error misuse => .error misuse
      | .ok solver => .ok (true, { forgotten with solver })
    | .detached =>
      .ok (true, { forgotten with log := p.log.forget .constraints (.detached handle) })

end Propagator

end NamedConstants
