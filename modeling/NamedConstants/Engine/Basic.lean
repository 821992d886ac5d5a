import NamedConstants.Engine.Config
import NamedConstants.Propagation.Update
import NamedConstants.Source.Bind
import NamedConstants.Source.Cache

/-!
The engine: a propagator together with the reading of written formulas and constraints.
A name in a formula has to be the label of exactly one constant; in a constraint a name
that is no label is a decision variable. Every failure becomes an error with a message.
Listeners are told about changed values.
-/
namespace NamedConstants

/-- The errors of an engine. Faults come with the message that described them when they
arose, since labels and values are needed for it. -/
inductive EngineError where
  | syntaxError (source : String) (error : SyntaxError)
  | binding (source : String) (error : BindingError Nat)
  | config (error : ConfigError)
  | constant (fault : ConstantFault) (message : String)
  | linearize (fault : LinearizeFault Float) (message : String)
  | infeasible (infeasible : Infeasible)
  | misuse (misuse : SolverMisuse)
  | listener (message : String)
deriving DecidableEq, Repr

namespace EngineError

def message : EngineError → String
  | syntaxError source error => error.message source
  | binding source error => error.message source
  | config error => error.message
  | constant _ message => message
  | linearize _ message => message
  | infeasible i => i.message
  | misuse m => m.message
  | listener message => message

end EngineError

inductive ConstantInput where
  | formula (expr : Formula Float)
  | source (text : String)
deriving DecidableEq, Repr

inductive Reaction where
  | observe
  | fail (message : String)
  | unsubscribe (listener : String)
  | subscribe (listener : String)
  /-- Sets a constant, but only on the first call. -/
  | setOnce (id : ConstantId) (input : ConstantInput)
deriving DecidableEq, Repr

structure LabelledChange where
  label : String
  change : ConstantChange Float
deriving DecidableEq, Repr

structure ChangeEvent where
  source : ConstantId
  changes : List LabelledChange
deriving DecidableEq, Repr

structure Delivery where
  listener : String
  event : ChangeEvent
deriving DecidableEq, Repr

/-- An engine whose solver understands strengths of type `σ`. -/
structure Engine (σ : Type) where
  config : EngineConfig
  /-- The strength of constraints that are added without one. -/
  defaultStrength : σ
  propagator : Propagator σ
  cache : ParseCache Float := ∅
  reactions : InsertionMap String Reaction := ∅
  subscribed : InsertionSet String := ∅
  deliveries : List Delivery := []

namespace Engine

variable {σ : Type}

def create (request : ConfigRequest) (defaultStrength : σ) (solver : Recorder σ) :
    Except ConfigError (Engine σ) := do
  let config ← request.resolve
  return {
    config, defaultStrength
    propagator :=
      { solver
        log := { devMode := config.devMode }
        policy := config.policy
        tolerance := config.tolerance } }

def table (e : Engine σ) : ConstantTable Float := e.propagator.table

def declare (e : Engine σ) (label : String) : ConstantId × Engine σ :=
  let (id, table) := e.table.declare label
  (id, { e with propagator := { e.propagator with table } })

/-- The constant with a label, unless several have it. -/
def findConstant? (e : Engine σ) (label : String) : Option ConstantId :=
  match e.table.findByLabel label with
  | [id] => some id
  | _ => none

/-- What a name stands for; `otherwise` is for names that are no label. -/
def bindName (e : Engine σ) (otherwise : NameBinding) (name : String) : NameBinding :=
  match e.table.findByLabel name with
  | [] => otherwise
  | [id] => .constant id
  | candidates => .ambiguous candidates

def constantError (e : Engine σ) (fault : ConstantFault) : EngineError :=
  .constant fault (fault.describe e.table.faultContext)

def linearizeError (e : Engine σ) (fault : LinearizeFault Float) : EngineError :=
  .linearize fault (fault.describe e.table.faultContext)

/-- The formula that an input stands for. The text of a formula enters the cache if it
can be read, even if its names can not be bound. -/
def readInput (e : Engine σ) : ConstantInput → Engine σ × Except EngineError (Formula Float)
  | .formula expr => (e, .ok expr)
  | .source text =>
    match e.cache.expression text with
    | .error error => (e, .error (.syntaxError text error))
    | .ok (tree, cache) =>
      ({ e with cache }, (tree.bindFormula (e.bindName .unknown)).mapError (.binding text))

def addConstraint (e : Engine σ) (definition : Constraint Float) (strength : Option σ) :
    Except EngineError (Handle × Engine σ) :=
  match e.propagator.add definition (strength.getD e.defaultStrength) with
  | .error (.linearize fault) => .error (e.linearizeError fault)
  | .error (.infeasible infeasible) => .error (.infeasible infeasible)
  | .ok (handle, propagator) => .ok (handle, { e with propagator })

def readConstraint (e : Engine σ) (text : String) :
    Engine σ × Except EngineError (Constraint Float) :=
  match e.cache.relation text with
  | .error error => (e, .error (.syntaxError text error))
  | .ok (relation, cache) =>
    let resolve (name : String) := e.bindName (.decision name) name
    ({ e with cache }, (relation.bind resolve).mapError (.binding text))

def addSource (e : Engine σ) (text : String) (strength : Option σ) :
    Engine σ × Except EngineError Handle :=
  let (read, constraint) := e.readConstraint text
  match constraint with
  | .error error => (read, .error error)
  | .ok definition =>
    match read.addConstraint definition strength with
    | .error error => (read, .error error)
    | .ok (handle, added) => (added, .ok handle)

def removeConstraint (e : Engine σ) (handle : Handle) : Except EngineError (Bool × Engine σ) :=
  match e.propagator.remove handle with
  | .error misuse => .error (.misuse misuse)
  | .ok (removed, propagator) => .ok (removed, { e with propagator })

def requireValue (e : Engine σ) (id : ConstantId) : Except EngineError Float :=
  match e.table.valueOf? id with
  | some value => .ok value
  | none =>
    match e.table.resolve id with
    | .ok value => .ok value
    | .error fault => .error (e.constantError (.resolution fault))

end Engine

end NamedConstants
