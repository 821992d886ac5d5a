import NamedConstants.Fault
import NamedConstants.Propagation.Registry

/-!
Configuration of an engine. Settings that are left out take their defaults; of two bad
settings the policy is reported.
-/
namespace NamedConstants

inductive WarningSink where
  | console
  | custom
deriving DecidableEq, Repr

/-- The settings as given. The policy is a name that still has to be understood. -/
structure ConfigRequest where
  policy : Option String := none
  tolerance : Option Float := none
  devMode : Option Bool := none
  sink : Option WarningSink := none

structure EngineConfig where
  policy : ConstantOnlyPolicy := .reject
  tolerance : Float := defaultTolerance
  devMode : Bool := true
  sink : WarningSink := .console
deriving DecidableEq, Repr

inductive ConfigError where
  | unknownPolicy (given : String)
  | badTolerance
deriving DecidableEq, Repr

namespace ConfigError

def message : ConfigError → String
  | unknownPolicy given =>
    "constantOnlyConstraints must be \"throw\" or \"skip\" (got " ++ given ++ ")"
  | badTolerance => "equalityTolerance must be a non-negative finite number"

end ConfigError

namespace ConstantOnlyPolicy

def text : ConstantOnlyPolicy → String
  | reject => "throw"
  | skip => "skip"

def ofText? : String → Option ConstantOnlyPolicy
  | "throw" => some reject
  | "skip" => some skip
  | _ => none

end ConstantOnlyPolicy

namespace ConfigRequest

def resolvePolicy : Option String → Except ConfigError ConstantOnlyPolicy
  | none => .ok .reject
  | some given =>
    match ConstantOnlyPolicy.ofText? given with
    | some policy => .ok policy
    | none => .error (.unknownPolicy given)

def resolveTolerance : Option Float → Except ConfigError Float
  | none => .ok defaultTolerance
  | some given =>
    if given.isFinite && 0 ≤ given then .ok given else .error .badTolerance

def resolve (r : ConfigRequest) : Except ConfigError EngineConfig := do
  let policy ← resolvePolicy r.policy
  let tolerance ← resolveTolerance r.tolerance
  return { policy, tolerance, devMode := r.devMode.getD true, sink := r.sink.getD .console }

end ConfigRequest

end NamedConstants
