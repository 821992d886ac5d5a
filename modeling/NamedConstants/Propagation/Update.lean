import NamedConstants.Propagation.Registry

/-!
Setting of constants with propagation. The table takes the definition first. Then the
constraints that mention a changed constant are linearized again in ascending order and
brought up to date in the solver, which is asked to optimize once at the end. The first
failure stops the round: what was done before it stays done.
-/
namespace NamedConstants

structure PropagationReport where
  update : ConstantUpdate Float
  relinearized : List Handle
  /-- The solver was asked to optimize. -/
  reoptimized : Bool
deriving DecidableEq, Repr

inductive PropagationFailure where
  | constant (fault : ConstantFault)
  | infeasible (infeasible : Infeasible)
  | misuse (misuse : SolverMisuse)
deriving DecidableEq, Repr

namespace PropagationFailure

def ofSolver : SolverFailure → PropagationFailure
  | .misuse m => misuse m
  | .infeasible i => infeasible i

end PropagationFailure

/-- The outcome of setting a constant. A failure after the table has accepted the
definition leaves both an update and a changed state. -/
structure Propagation (σ : Type) where
  propagator : Propagator σ
  update? : Option (ConstantUpdate Float)
  result : Except PropagationFailure PropagationReport

structure Round (σ : Type) where
  propagator : Propagator σ
  relinearized : List Handle := []
  /-- The solver has been sent a change. -/
  touched : Bool := false

namespace Propagator

variable {σ : Type}

def place (p : Propagator σ) (handle : Handle) (entry : Tracked σ)
    (linear : Option (LinearConstraint Float σ)) (slot : Slot) : Propagator σ :=
  { p with tracked := p.tracked.insert handle { entry with linear, slot } }

def send (p : Propagator σ) (handle : Handle) (entry : Tracked σ)
    (linear : LinearConstraint Float σ) : Except PropagationFailure (Propagator σ) :=
  match entry.slot with
  | .installed token =>
    match p.solver.replace token linear with
    | .error failure => .error (.ofSolver failure)
    | .ok solver => .ok ({ p with solver }.place handle entry (some linear) (.installed token))
  | .detached =>
    match p.solver.install linear with
    | .error infeasible => .error (.infeasible infeasible)
    | .ok (token, solver) =>
      .ok ({ p with solver }.place handle entry (some linear) (.installed token))

/-- Takes a constraint that has lost its variables out of the solver. Says also whether
it was there. -/
def withdraw (p : Propagator σ) (handle : Handle) (entry : Tracked σ) :
    Except PropagationFailure (Bool × Propagator σ) :=
  match entry.slot with
  | .installed token =>
    match p.solver.remove token with
    | .error misuse => .error (.misuse misuse)
    | .ok solver => .ok (true, { p with solver }.place handle entry none .detached)
  | .detached => .ok (false, p.place handle entry none .detached)

def refresh (round : Round σ) (handle : Handle) (entry : Tracked σ) :
    Except PropagationFailure (Round σ) :=
  let relinearized := round.relinearized ++ [handle]
  match round.propagator.linearize entry.definition entry.strength with
  | .ok linear =>
    match round.propagator.send handle entry linear with
    | .error failure => .error failure
    | .ok propagator => .ok { propagator, relinearized, touched := true }
  | .error fault =>
    if round.propagator.Tolerates fault then
      match round.propagator.withdraw handle entry with
      | .error failure => .error failure
      | .ok (withdrawn, propagator) =>
        .ok { propagator, relinearized, touched := round.touched || withdrawn }
    else .error (.constant (.relinearizationFailed handle fault))

def refreshAll (round : Round σ) : List Handle → Round σ × Except PropagationFailure Unit
  | [] => (round, .ok ())
  | handle :: rest =>
    match round.propagator.tracked.get? handle with
    | none => refreshAll round rest
    | some entry =>
      match refresh round handle entry with
      | .error failure => (round, .error failure)
      | .ok next => refreshAll next rest

def affected (p : Propagator σ) (changed : List (ConstantChange Float)) : List Handle :=
  let handles := changed.flatMap fun change => (p.handlesFor change.id).toList
  (InsertionSet.ofList handles).toList.mergeSort

def dependentText (p : Propagator σ) (changed : ConstantId) (warning : DependentWarning Float) :
    String :=
  let ctx := p.table.faultContext
  "Constant " ++ ctx.quoted warning.id ++ " is unresolved after " ++ ctx.quoted changed ++
    " changed: " ++ warning.fault.describe ctx

/-- Reports a dependent that has no value, once for each kind of fault. -/
def warnDependent (changed : ConstantId) (p : Propagator σ) (warning : DependentWarning Float) :
    Propagator σ :=
  let key := .dependent warning.id warning.fault.code
  { p with log := p.log.warn .constants key (p.dependentText changed warning) }

def round (p : Propagator σ) (update : ConstantUpdate Float) :
    Round σ × Except PropagationFailure Unit :=
  let warned := update.warnings.foldl (warnDependent update.id) p
  refreshAll { propagator := warned } (warned.affected update.changed)

def propagate (p : Propagator σ) (update : ConstantUpdate Float) :
    Propagator σ × Except PropagationFailure PropagationReport :=
  let (round, outcome) := p.round update
  match outcome with
  | .error failure => (round.propagator, .error failure)
  | .ok () =>
    let report : PropagationReport :=
      { update, relinearized := round.relinearized, reoptimized := round.touched }
    if round.touched then
      let (answer, solver) := round.propagator.solver.reoptimize
      ({ round.propagator with solver },
        match answer with
        | .error infeasible => .error (.infeasible infeasible)
        | .ok () => .ok report)
    else (round.propagator, .ok report)

def setConstant (p : Propagator σ) (id : ConstantId) (input : Formula Float) : Propagation σ :=
  match p.table.set id input with
  | .error fault =>
    { propagator := p, update? := none, result := .error (.constant (.resolution fault)) }
  | .ok (table, update) =>
    let (propagator, result) := { p with table }.propagate update
    { propagator, update? := some update, result }

end Propagator

end NamedConstants
