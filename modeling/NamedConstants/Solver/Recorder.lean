import NamedConstants.Linear.Linearize

/-!
A solver that solves nothing: it keeps the linear constraints installed in it under
tokens, and a record of the requests that it has granted. It may refuse constraints
and fail to optimize, as a real solver does. Replacing or removing a token that is not
installed is a mistake of the caller, and changes nothing.
-/
namespace NamedConstants

/-- Tokens are numbered from 1 in the order of installation. -/
abbrev SolverToken := Int

structure Infeasible where
  detail : String
deriving DecidableEq, Repr

namespace Infeasible

def message (i : Infeasible) : String :=
  "Solver reported the constraint system infeasible: " ++ i.detail

end Infeasible

inductive SolverMisuse where
  | replace (token : SolverToken)
  | remove (token : SolverToken)
deriving DecidableEq, Repr

namespace SolverMisuse

def message : SolverMisuse → String
  | replace token => "replace: token " ++ toString token ++ " is not installed"
  | remove token => "remove: token " ++ toString token ++ " is not installed"

end SolverMisuse

inductive SolverFailure where
  | misuse (misuse : SolverMisuse)
  | infeasible (infeasible : Infeasible)
deriving DecidableEq, Repr

/-- A request that a solver has granted. -/
inductive SolverCall (σ : Type) where
  | install (token : SolverToken) (constraint : LinearConstraint Float σ)
  | replace (token : SolverToken) (constraint : LinearConstraint Float σ)
  | remove (token : SolverToken)
  | reoptimize

namespace SolverCall

inductive Kind where
  | install
  | replace
  | remove
  | reoptimize
deriving DecidableEq, Repr

def kind {σ : Type} : SolverCall σ → Kind
  | install _ _ => .install
  | replace _ _ => .replace
  | remove _ => .remove
  | reoptimize => .reoptimize

end SolverCall

structure Recorder (σ : Type) where
  /-- The reason for refusing a constraint, given the calls recorded so far. -/
  refusal : List (SolverCall σ) → LinearConstraint Float σ → Option String := fun _ _ => none
  /-- The detail with which optimizing fails, as long as it does. -/
  optimizeFailure : Option String := none
  calls : List (SolverCall σ) := []
  installed : InsertionMap SolverToken (LinearConstraint Float σ) := ∅
  nextToken : SolverToken := 1

namespace Recorder

variable {σ : Type}

def record (s : Recorder σ) (call : SolverCall σ) : Recorder σ :=
  { s with calls := s.calls ++ [call] }

def install (s : Recorder σ) (constraint : LinearConstraint Float σ) :
    Except Infeasible (SolverToken × Recorder σ) :=
  match s.refusal s.calls constraint with
  | some detail => .error { detail }
  | none =>
    let token := s.nextToken
    let installed := s.installed.insert token constraint
    .ok (token,
      { s with installed, nextToken := token + 1 }.record (.install token constraint))

def replace (s : Recorder σ) (token : SolverToken) (constraint : LinearConstraint Float σ) :
    Except SolverFailure (Recorder σ) :=
  if s.installed.contains token then
    match s.refusal s.calls constraint with
    | some detail => .error (.infeasible { detail })
    | none =>
      let installed := s.installed.insert token constraint
      .ok ({ s with installed }.record (.replace token constraint))
  else .error (.misuse (.replace token))

def remove (s : Recorder σ) (token : SolverToken) : Except SolverMisuse (Recorder σ) :=
  if s.installed.contains token then
    .ok ({ s with installed := s.installed.erase token }.record (.remove token))
  else .error (.remove token)

/-- Optimizing is recorded also when it fails. -/
def reoptimize (s : Recorder σ) : Except Infeasible Unit × Recorder σ :=
  let answer :=
    match s.optimizeFailure with
    | some detail => .error { detail }
    | none => .ok ()
  (answer, s.record .reoptimize)

def count (s : Recorder σ) (kind : SolverCall.Kind) : Nat :=
  s.calls.countP fun call => call.kind = kind

def clearCalls (s : Recorder σ) : Recorder σ := { s with calls := [] }

def failReoptimize (s : Recorder σ) (detail : Option String) : Recorder σ :=
  { s with optimizeFailure := detail }

end Recorder

end NamedConstants
