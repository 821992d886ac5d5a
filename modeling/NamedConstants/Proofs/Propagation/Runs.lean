import NamedConstants.Proofs.Constants.Runs
import NamedConstants.Proofs.Propagation.Refresh

/-!
Runs of a propagator over a solver that nobody else uses. Before each call the solver
makes up its mind anew; what it refuses may depend on everything that it has granted,
so that any answers at all can be given. The table may be set behind the propagator's
back, unless a run is through the propagator.
-/
namespace NamedConstants

/-- What a solver answers to the requests of one call. -/
structure SolverAnswers (σ : Type) where
  refusal : List (SolverCall σ) → LinearConstraint Float σ → Option String := fun _ _ => none
  optimizeFailure : Option String := none

structure Addition (σ : Type) where
  handle : Handle
  definition : Constraint Float
  strength : σ

inductive PropagatorCall (σ : Type) where
  /-- A call on the table itself. -/
  | table (call : TableCall Float)
  | add (definition : Constraint Float) (strength : σ)
  | remove (handle : Handle)
  | setConstant (id : ConstantId) (input : Formula Float)

namespace PropagatorCall

/-- The call does not set the table behind the propagator's back. -/
def IsThrough {σ : Type} : PropagatorCall σ → Prop
  | table (.set _ _) => False
  | _ => True

def tableCalls {σ : Type} : PropagatorCall σ → List (TableCall Float)
  | table call => [call]
  | setConstant id input => [.set id input]
  | _ => []

end PropagatorCall

structure PropagatorStep (σ : Type) where
  call : PropagatorCall σ
  answers : SolverAnswers σ := {}

namespace Propagator

variable {σ : Type}

def start (table : ConstantTable Float) (log : Log WarningKey) (policy : ConstantOnlyPolicy)
    (tolerance : Float) : Propagator σ :=
  { table, log, policy, tolerance }

def facing (p : Propagator σ) (answers : SolverAnswers σ) : Propagator σ :=
  { p with
    solver :=
      { p.solver with
        refusal := answers.refusal
        optimizeFailure := answers.optimizeFailure } }

def perform (p : Propagator σ) : PropagatorCall σ → Propagator σ
  | .table call => { p with table := p.table.perform call }
  | .add definition strength =>
    match p.add definition strength with
    | .ok (_, p') => p'
    | .error _ => p
  | .remove handle =>
    match p.remove handle with
    | .ok (_, p') => p'
    | .error _ => p
  | .setConstant id input => (p.setConstant id input).propagator

def step (p : Propagator σ) (s : PropagatorStep σ) : Propagator σ :=
  (p.facing s.answers).perform s.call

def run (p : Propagator σ) (steps : List (PropagatorStep σ)) : Propagator σ := steps.foldl step p

theorem run_append_singleton (p : Propagator σ) (steps : List (PropagatorStep σ))
    (s : PropagatorStep σ) : p.run (steps ++ [s]) = (p.run steps).step s := by
  simp [run]

theorem run_append_cons (p : Propagator σ) (earlier : List (PropagatorStep σ))
    (s : PropagatorStep σ) (later : List (PropagatorStep σ)) :
    p.run (earlier ++ s :: later) = ((p.run earlier).step s).run later := by
  simp [run]

/-- A property that every call keeps holds all through a run. -/
theorem run_induction {P : Propagator σ → Prop}
    (hfacing : ∀ p answers, P p → P (p.facing answers))
    (hperform : ∀ p call, P p → P (p.perform call)) {p : Propagator σ} (h : P p)
    (steps : List (PropagatorStep σ)) : P (p.run steps) := by
  induction steps generalizing p with
  | nil => exact h
  | cons s steps ih => exact ih (hperform _ _ (hfacing _ _ h))

theorem update?_setConstant (p : Propagator σ) (id : ConstantId) (input : Formula Float) :
    (p.setConstant id input).update? = (p.table.set id input).toOption.map Prod.snd := by
  unfold setConstant
  cases p.table.set id input with
  | error fault => rfl
  | ok result => rfl

/-- The table after a setting is the one that the definition has led to, if it was accepted. -/
theorem table_setConstant (p : Propagator σ) (id : ConstantId) (input : Formula Float) :
    (p.setConstant id input).propagator.table = p.table.perform (.set id input) := by
  simp only [ConstantTable.perform]
  rcases p.setConstant_cases id input with ⟨fault, hset, heq, -⟩ | ⟨table, update, hset, -, -⟩
  · rw [heq, hset]
  · rw [(setConstant_of_set hset).2.1.1, hset]

/-- A call reaches the table by what it asks of it, and in no other way. -/
theorem table_perform (p : Propagator σ) (call : PropagatorCall σ) :
    (p.perform call).table = p.table.after call.tableCalls := by
  cases call with
  | table call => rfl
  | add definition strength =>
    simp only [perform]
    cases hadd : p.add definition strength with
    | error failure => rfl
    | ok result => exact (add_eq_ok hadd).2.frame.1
  | remove handle =>
    simp only [perform]
    cases hremove : p.remove handle with
    | error misuse => rfl
    | ok result => exact (remove_eq_ok hremove).frame.1
  | setConstant id input => exact p.table_setConstant id input

theorem table_run (p : Propagator σ) (steps : List (PropagatorStep σ)) :
    (p.run steps).table = p.table.after (steps.flatMap fun s => s.call.tableCalls) := by
  induction steps generalizing p with
  | nil => rfl
  | cons s steps ih =>
    have hstep : (p.step s).table = p.table.after s.call.tableCalls :=
      (p.facing s.answers).table_perform s.call
    have hrun : p.run (s :: steps) = (p.step s).run steps := rfl
    rw [hrun, ih, hstep, List.flatMap_cons, ConstantTable.after_append]

/-- The table stays coherent, whoever sets it. -/
theorem coherent_run {p : Propagator σ} (ht : p.table.Coherent) (steps : List (PropagatorStep σ)) :
    (p.run steps).table.Coherent := by
  rw [table_run]
  exact ConstantTable.coherent_after ht _

theorem policy_perform (p : Propagator σ) (call : PropagatorCall σ) :
    (p.perform call).policy = p.policy ∧ (p.perform call).tolerance = p.tolerance := by
  cases call with
  | table call => exact ⟨rfl, rfl⟩
  | add definition strength =>
    simp only [perform]
    cases hadd : p.add definition strength with
    | error failure => exact ⟨rfl, rfl⟩
    | ok result =>
      obtain ⟨handle, added⟩ := result
      exact (add_eq_ok hadd).2.frame.2
  | remove handle =>
    simp only [perform]
    cases hremove : p.remove handle with
    | error misuse => exact ⟨rfl, rfl⟩
    | ok result =>
      obtain ⟨removed, forgotten⟩ := result
      exact (remove_eq_ok hremove).frame.2
  | setConstant id input =>
    simp only [perform]
    rcases p.setConstant_cases id input with ⟨fault, -, heq, -⟩ | ⟨table, update, hset, -, -⟩
    · rw [heq]
      exact ⟨rfl, rfl⟩
    · exact (setConstant_of_set hset).2.1.2

/-- The options of a propagator never change. -/
theorem policy_run (p : Propagator σ) (steps : List (PropagatorStep σ)) :
    (p.run steps).policy = p.policy ∧ (p.run steps).tolerance = p.tolerance := by
  refine run_induction (P := fun q => q.policy = p.policy ∧ q.tolerance = p.tolerance) ?_ ?_
    ⟨rfl, rfl⟩ steps
  · exact fun q answers hq => hq
  · rintro q call ⟨hpolicy, htolerance⟩
    obtain ⟨hpolicy', htolerance'⟩ := q.policy_perform call
    exact ⟨hpolicy'.trans hpolicy, htolerance'.trans htolerance⟩

end Propagator

end NamedConstants
