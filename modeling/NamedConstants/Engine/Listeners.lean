import NamedConstants.Engine.Basic

/-!
Setting of constants in an engine. Once the table has accepted a definition that changes
some value, the listeners subscribed at that moment are told, also when passing the
change on to the constraints has failed. A listener may set a constant in turn, once;
the nested call and its events come before the next listener is told.
-/
namespace NamedConstants.Engine

variable {σ : Type}

/-- Subscribes a listener. Its reaction is fixed when its name is used first. -/
def listen (e : Engine σ) (listener : String) (reaction : Reaction) : Engine σ :=
  { e with
    reactions :=
      if e.reactions.contains listener then e.reactions else e.reactions.insert listener reaction
    subscribed := e.subscribed.insert listener }

def unlisten (e : Engine σ) (listener : String) : Engine σ :=
  { e with subscribed := e.subscribed.erase listener }

def pendingSetters (e : Engine σ) : Nat :=
  e.reactions.values.countP fun reaction =>
    match reaction with
    | .setOnce _ _ => true
    | _ => false

def eventOf? (e : Engine σ) (update : ConstantUpdate Float) : Option ChangeEvent :=
  if update.changed.isEmpty || e.subscribed.isEmpty then none
  else
    some
      { source := update.id
        changes := update.changed.map fun change =>
          { label := e.table.labelOf change.id, change } }

/-- Tells listeners in turn, up to the first error. The constants that they set are set
by `nested`. -/
def deliver (nested : Engine σ → ConstantId → ConstantInput → Engine σ × Except EngineError Unit)
    (event : ChangeEvent) : Engine σ → List String → Engine σ × Except EngineError Unit
  | e, [] => (e, .ok ())
  | e, listener :: rest =>
    let told : Engine σ := { e with deliveries := e.deliveries ++ [{ listener, event }] }
    match e.reactions.getD listener .observe with
    | .observe => deliver nested event told rest
    | .fail message => (told, .error (.listener message))
    | .unsubscribe other => deliver nested event (told.unlisten other) rest
    | .subscribe other => deliver nested event (told.listen other .observe) rest
    | .setOnce id input =>
      let spent : Engine σ := { told with reactions := told.reactions.insert listener .observe }
      match nested spent id input with
      | (after, .error error) => (after, .error error)
      | (after, .ok ()) => deliver nested event after rest

def propagationError (e : Engine σ) : PropagationFailure → EngineError
  | .constant fault => e.constantError fault
  | .infeasible infeasible => .infeasible infeasible
  | .misuse misuse => .misuse misuse

/-- Sets a constant and tells the listeners, who may set further constants by `nested`.
When a solver misuse cuts the propagation short nobody is told. -/
def setConstantWith
    (nested : Engine σ → ConstantId → ConstantInput → Engine σ × Except EngineError Unit)
    (e : Engine σ) (id : ConstantId) (input : ConstantInput) :
    Engine σ × Except EngineError PropagationReport :=
  let (read, formula) := e.readInput input
  match formula with
  | .error error => (read, .error error)
  | .ok formula =>
    let propagation := read.propagator.setConstant id formula
    let after : Engine σ := { read with propagator := propagation.propagator }
    match propagation.result with
    | .error (.misuse misuse) => (after, .error (.misuse misuse))
    | result =>
      let (told, delivered) : Engine σ × Except EngineError Unit :=
        match propagation.update?.bind after.eventOf? with
        | none => (after, .ok ())
        | some event => deliver nested event after after.subscribed.toList
      match delivered with
      | .error error => (told, .error error)
      | .ok () => (told, result.mapError told.propagationError)

def setConstantWithin : Nat → Engine σ → ConstantId → ConstantInput →
    Engine σ × Except EngineError PropagationReport
  | 0 => setConstantWith fun e _ _ => (e, .ok ())
  | depth + 1 => setConstantWith fun e id input =>
    let (after, result) := setConstantWithin depth e id input
    (after, result.map fun _ => ())

/-- Sets a constant. Each nested call uses up a listener, so their number bounds the
depth. -/
def setConstant (e : Engine σ) (id : ConstantId) (input : ConstantInput) :
    Engine σ × Except EngineError PropagationReport :=
  setConstantWithin e.pendingSetters e id input

end NamedConstants.Engine
