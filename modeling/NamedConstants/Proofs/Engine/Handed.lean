import NamedConstants.Proofs.Engine.Runs
import NamedConstants.Proofs.Propagation.Handed
import NamedConstants.Proofs.Propagation.Skipped

/-!
What an engine hands to its solver. Everything that a run hands over, whether the solver
takes it or not, is a normal form of a constraint that was added, with the relation, the
definition and the strength that it was added with.
-/
namespace NamedConstants

variable {σ : Type}

def SolverAnswers.granting [DecidableEq σ] (answers : SolverAnswers σ)
    (linear : LinearConstraint Float σ) : SolverAnswers σ :=
  { answers with
    refusal := fun calls other => if other = linear then none else answers.refusal calls other }

namespace PropagatorCall

theorem IsUpdate.ne_add {call : PropagatorCall σ} (h : call.IsUpdate)
    (definition : Constraint Float) (strength : σ) : call ≠ .add definition strength := by
  rintro rfl
  exact h

end PropagatorCall

namespace Engine

variable {e : Engine σ} {added : List (Addition σ)}

/-- A step hands a constraint over, granted or refused: if the solver were to grant it, it
would be on record. -/
def Hands [DecidableEq σ] (e : Engine σ) (s : EngineStep σ) (linear : LinearConstraint Float σ) :
    Prop :=
  ∃ token, (token, linear) ∈
    (e.step { s with answers := s.answers.granting linear }).propagator.solver.handed.drop
      e.propagator.solver.handed.length

theorem accounted_perform (he : e.propagator.Accounted added) (call : EngineCall σ) :
    (e.perform call).propagator.Accounted (added ++ (e.addition? call).toList) := by
  rcases e.perform_cases call with ⟨hnone, hleads⟩ | ⟨a, hsome, hadd, -⟩
  · rw [hnone, Option.toList_none, List.append_nil]
    exact hleads.induction (P := Propagator.Accounted added)
      (fun _ _ hcall hp => hp.perform hcall.ne_add) he
  · obtain ⟨handle, definition, strength⟩ := a
    obtain ⟨rfl, hadded⟩ := Propagator.add_eq_ok hadd
    rw [hsome, Option.toList_some]
    exact he.of_added hadded

theorem accounted_run (he : e.propagator.Accounted added) (steps : List (EngineStep σ)) :
    (e.run steps).propagator.Accounted (added ++ e.additions steps) := by
  induction steps generalizing e added with
  | nil =>
    rw [additions, List.append_nil]
    exact he
  | cons s steps ih =>
    have hstep := accounted_perform (e := e.facing s.answers) (he.facing s.answers) s.call
    rw [additions, ← List.append_assoc]
    exact ih (e := e.step s) hstep

theorem run_append_singleton (e : Engine σ) (steps : List (EngineStep σ)) (s : EngineStep σ) :
    e.run (steps ++ [s]) = (e.run steps).step s := by
  simp [run]

theorem accounted_of_create {request : ConfigRequest} {strength : σ}
    (h : create request strength {} = .ok e) : e.propagator.Accounted [] := by
  obtain ⟨config, rfl⟩ := create_eq_ok h
  exact ⟨fun _ => 0,
    { handed := fun _ _ hmem => absurd hmem List.not_mem_nil
      tracked := fun _ _ hentry => by cases hentry
      owned := fun _ _ _ hentry => by cases hentry
      nodup := List.nodup_nil
      lt_nextHandle := fun _ ha => absurd ha List.not_mem_nil }⟩

/-- Every constraint handed to the solver in a run, whatever the solver answers, is in normal
form, and its relation, definition and strength are those of one addition: the one that gave
out the handle to which the token belongs, as long as the handle is installed under it. The
additions have different handles, and those without a strength have the engine's own. What
the solver refuses is no different. -/
theorem handed_in_normal_form [DecidableEq σ] {request : ConfigRequest} {strength : σ}
    {first : Engine σ} (hcreate : create request strength {} = .ok first)
    (steps : List (EngineStep σ)) :
    let e := first.run steps
    e.defaultStrength = strength ∧
      ((first.additions steps).map Addition.handle).Nodup ∧
      (∃ owner : SolverToken → Handle,
        (∀ token linear, (token, linear) ∈ e.propagator.solver.handed →
          ∃ a ∈ first.additions steps, a.handle = owner token ∧ linear.States a) ∧
        ∀ handle entry token, e.propagator.tracked.get? handle = some entry →
          entry.slot = .installed token → owner token = handle) ∧
      ∀ (s : EngineStep σ) (linear : LinearConstraint Float σ), e.Hands s linear →
        ∃ a ∈ first.additions (steps ++ [{ s with answers := s.answers.granting linear }]),
          linear.States a := by
  intro e
  have hrun (steps : List (EngineStep σ)) :
      (first.run steps).propagator.Accounted (first.additions steps) :=
    accounted_run (accounted_of_create hcreate) steps
  obtain ⟨owner, htraces⟩ := hrun steps
  refine ⟨?_, htraces.nodup, ⟨owner, ?_, ?_⟩, ?_⟩
  · obtain ⟨config, rfl⟩ := create_eq_ok hcreate
    exact defaultStrength_run _ steps
  · intro token linear hmem
    exact (htraces.handed token linear hmem).2
  · intro handle entry token hentry hslot
    exact (htraces.owned handle entry token hentry hslot).2
  · rintro s linear ⟨token, hmem⟩
    obtain ⟨owner', htraces'⟩ := hrun (steps ++ [{ s with answers := s.answers.granting linear }])
    rw [run_append_singleton] at htraces'
    obtain ⟨-, a, ha, -, hstates⟩ := htraces'.handed token linear (List.mem_of_mem_drop hmem)
    exact ⟨a, ha, hstates⟩

/-- A product with a constant that is set to 1, then to 0, when the policy detaches the
constraint, and then to 1 again: the same form is handed over under a second token. -/
theorem handed_in_normal_form_again :
    let steps : List (EngineStep Nat) :=
      [{ call := .declare "c" }, { call := .setConstant 1 (.formula (.literal 1)) },
        { call := .addConstraint Propagator.scaled none },
        { call := .setConstant 1 (.formula (.literal 0)) },
        { call := .setConstant 1 (.formula (.literal 1)) }]
    let first : Engine Nat :=
      { config := { policy := .skip }, defaultStrength := 1
        propagator := { log := { devMode := true }, policy := .skip } }
    create { policy := some "skip" } 1 {} = .ok first ∧
      (first.run steps).propagator.solver.handed =
        [(1, Propagator.scaledForm), (2, Propagator.scaledForm)] ∧
      ∃ a ∈ first.additions steps, Propagator.scaledForm.States a := by
  intro steps first
  have hcreate : create { policy := some "skip" } (1 : Nat) {} = .ok first := rfl
  -- Nobody listens, so the propagator goes through the steps by itself.
  have hsilent : first.subscribed = ∅ := rfl
  have hstrength : first.defaultStrength = 1 := rfl
  have hdeclare : first.step { call := .declare "c" } =
      { first with
        propagator := .start { labels := ["c"] } { devMode := true } .skip defaultTolerance } :=
    rfl
  have hdefine := Propagator.step_define (σ := Nat) (v := 1) { devMode := true } .skip (by decide)
  have hadd := Propagator.add_scaled_one { devMode := true }
  obtain ⟨solver, hzero, hnext, hcalls⟩ := Propagator.step_scaledAt_zero
    { calls := [.install 1 Propagator.scaledForm], installed := .singleton 1 Propagator.scaledForm
      nextToken := 2 } { devMode := true } 1 rfl
  obtain ⟨solver', hone, -, hcalls'⟩ := Propagator.step_scaledAt_one solver { devMode := true }
  have hsolver : (first.run steps).propagator.solver = solver' := by
    simp only [steps, run, List.foldl_cons, List.foldl_nil, hdeclare, step_setConstant_of_silent,
      step_addConstraint, hsilent, hstrength, Option.getD_none, hdefine, hadd]
    exact (congrArg (fun p => (Propagator.step p _).solver) hzero).trans
      (congrArg Propagator.solver hone)
  have hhanded : (first.run steps).propagator.solver.handed =
      [(1, Propagator.scaledForm), (2, Propagator.scaledForm)] := by
    rw [hsolver, Recorder.handed, hcalls', hcalls, hnext]
    rfl
  obtain ⟨-, -, ⟨owner, hstates, -⟩, -⟩ := handed_in_normal_form hcreate steps
  obtain ⟨a, ha, -, hform⟩ := hstates 1 Propagator.scaledForm (by simp [hhanded])
  exact ⟨hcreate, hhanded, a, ha, hform⟩

end Engine

end NamedConstants
