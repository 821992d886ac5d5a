import NamedConstants.Engine.Listeners
import NamedConstants.Proofs.Propagation.InStep

/-!
Runs of an engine over a solver that nobody else uses. Whatever a call does, the listeners'
own calls included, it reaches the constraints by calls on the propagator only: an accepted
constraint is one added to the propagator, and any other call is a sequence of settings,
removals and declarations. So what every call on the propagator keeps holds in every engine.
-/
namespace NamedConstants

inductive EngineCall (σ : Type) where
  | declare (label : String)
  | setConstant (id : ConstantId) (input : ConstantInput)
  | addConstraint (definition : Constraint Float) (strength : Option σ)
  | addSource (text : String) (strength : Option σ)
  | removeConstraint (handle : Handle)
  | listen (listener : String) (reaction : Reaction)
  | unlisten (listener : String)

structure EngineStep (σ : Type) where
  call : EngineCall σ
  answers : SolverAnswers σ := {}

namespace PropagatorCall

def IsUpdate {σ : Type} : PropagatorCall σ → Prop
  | table (.declare _) => True
  | remove _ => True
  | setConstant _ _ => True
  | _ => False

end PropagatorCall

namespace Engine

variable {σ : Type}

def facing (e : Engine σ) (answers : SolverAnswers σ) : Engine σ :=
  { e with propagator := e.propagator.facing answers }

def perform (e : Engine σ) : EngineCall σ → Engine σ
  | .declare label => (e.declare label).2
  | .setConstant id input => (e.setConstant id input).1
  | .addConstraint definition strength =>
    match e.addConstraint definition strength with
    | .ok (_, e') => e'
    | .error _ => e
  | .addSource text strength => (e.addSource text strength).1
  | .removeConstraint handle =>
    match e.removeConstraint handle with
    | .ok (_, e') => e'
    | .error _ => e
  | .listen listener reaction => e.listen listener reaction
  | .unlisten listener => e.unlisten listener

def step (e : Engine σ) (s : EngineStep σ) : Engine σ := (e.facing s.answers).perform s.call

def run (e : Engine σ) (steps : List (EngineStep σ)) : Engine σ := steps.foldl step e

def addition? (e : Engine σ) : EngineCall σ → Option (Addition σ)
  | .addConstraint definition strength =>
    match e.addConstraint definition strength with
    | .ok (handle, _) => some { handle, definition, strength := strength.getD e.defaultStrength }
    | .error _ => none
  | .addSource text strength =>
    match (e.readConstraint text).2, (e.addSource text strength).2 with
    | .ok definition, .ok handle =>
      some { handle, definition, strength := strength.getD e.defaultStrength }
    | _, _ => none
  | _ => none

def additions (e : Engine σ) : List (EngineStep σ) → List (Addition σ)
  | [] => []
  | s :: steps => ((e.facing s.answers).addition? s.call).toList ++ (e.step s).additions steps

/-- The propagator has got from the one engine to the other without adding a constraint. -/
structure Leads (e e' : Engine σ) : Prop where
  updates : ∃ calls : List (PropagatorCall σ), (∀ call ∈ calls, call.IsUpdate) ∧
    e'.propagator = calls.foldl Propagator.perform e.propagator
  defaultStrength_eq : e'.defaultStrength = e.defaultStrength

namespace Leads

variable {e e' e'' : Engine σ}

theorem of_eq (hpropagator : e'.propagator = e.propagator)
    (hstrength : e'.defaultStrength = e.defaultStrength) : e.Leads e' :=
  ⟨⟨[], List.forall_mem_nil _, hpropagator⟩, hstrength⟩

theorem of_call (call : PropagatorCall σ) (hcall : call.IsUpdate)
    (hpropagator : e'.propagator = e.propagator.perform call)
    (hstrength : e'.defaultStrength = e.defaultStrength) : e.Leads e' :=
  ⟨⟨[call], by simpa using hcall, hpropagator⟩, hstrength⟩

theorem trans (h : e.Leads e') (h' : e'.Leads e'') : e.Leads e'' := by
  obtain ⟨⟨first, hfirst, heq⟩, hstrength⟩ := h
  obtain ⟨⟨second, hsecond, heq'⟩, hstrength'⟩ := h'
  refine ⟨⟨first ++ second, List.forall_mem_append.2 ⟨hfirst, hsecond⟩, ?_⟩,
    hstrength'.trans hstrength⟩
  rw [heq', heq, List.foldl_append]

theorem after (h : e'.Leads e'') (hpropagator : e'.propagator = e.propagator)
    (hstrength : e'.defaultStrength = e.defaultStrength) : e.Leads e'' :=
  (of_eq hpropagator hstrength).trans h

/-- What updates keep is kept. -/
theorem induction {P : Propagator σ → Prop} (h : e.Leads e')
    (hperform : ∀ p call, call.IsUpdate → P p → P (p.perform call)) (he : P e.propagator) :
    P e'.propagator := by
  obtain ⟨⟨calls, hcalls, heq⟩, -⟩ := h
  rw [heq]
  clear heq
  generalize e.propagator = p at he
  induction calls generalizing p with
  | nil => exact he
  | cons call calls ih =>
    rw [List.forall_mem_cons] at hcalls
    exact ih hcalls.2 (p.perform call) (hperform p call hcalls.1 he)

end Leads

theorem readInput_frame (e : Engine σ) (input : ConstantInput) :
    ∃ cache, (e.readInput input).1 = { e with cache } := by
  cases input with
  | formula expr => exact ⟨e.cache, rfl⟩
  | source text =>
    simp only [readInput]
    split
    · exact ⟨e.cache, rfl⟩
    · exact ⟨_, rfl⟩

theorem readInput_leads (e : Engine σ) (input : ConstantInput) :
    e.Leads (e.readInput input).1 := by
  obtain ⟨cache, hread⟩ := e.readInput_frame input
  rw [hread]
  exact .of_eq rfl rfl

/-- Telling the listeners leads on as far as what they set leads on. -/
theorem deliver_leads
    {nested : Engine σ → ConstantId → ConstantInput → Engine σ × Except EngineError Unit}
    (hnested : ∀ e id input, Leads e (nested e id input).1) (event : ChangeEvent)
    (listeners : List String) (e : Engine σ) : e.Leads (deliver nested event e listeners).1 := by
  induction listeners generalizing e with
  | nil => exact .of_eq rfl rfl
  | cons listener rest ih =>
    unfold deliver
    dsimp only
    split
    · exact (ih _).after rfl rfl
    · exact .of_eq rfl rfl
    · exact (ih _).after rfl rfl
    · exact (ih _).after rfl rfl
    · rename_i id input hreaction
      have hspent := hnested
        { e with
          deliveries := e.deliveries ++ [{ listener, event }]
          reactions := e.reactions.insert listener .observe } id input
      split
      · rename_i after error hresult
        rw [hresult] at hspent
        exact hspent.after rfl rfl
      · rename_i after hresult
        rw [hresult] at hspent
        exact (hspent.trans (ih after)).after rfl rfl

def tell (nested : Engine σ → ConstantId → ConstantInput → Engine σ × Except EngineError Unit)
    (e : Engine σ) (update? : Option (ConstantUpdate Float)) : Engine σ × Except EngineError Unit :=
  match update?.bind e.eventOf? with
  | none => (e, .ok ())
  | some event => deliver nested event e e.subscribed.toList

/-- What is left of a call after the propagation: to tell the subscribers, unless the solver was
misused, and to give back what has come of it, unless a listener lets an error out. -/
def conclude (nested : Engine σ → ConstantId → ConstantInput → Engine σ × Except EngineError Unit)
    (e : Engine σ) (update? : Option (ConstantUpdate Float)) :
    Except PropagationFailure PropagationReport → Engine σ × Except EngineError PropagationReport
  | .error (.misuse misuse) => (e, .error (.misuse misuse))
  | result =>
    let told := e.tell nested update?
    (told.1, told.2.bind fun _ => result.mapError told.1.propagationError)

/-- Setting a constant reads the input, has the propagator set the constant, and tells the
subscribers. -/
theorem setConstantWith_eq
    (nested : Engine σ → ConstantId → ConstantInput → Engine σ × Except EngineError Unit)
    (e : Engine σ) (id : ConstantId) (input : ConstantInput) :
    setConstantWith nested e id input =
      match (e.readInput input).2 with
      | .error error => ((e.readInput input).1, .error error)
      | .ok formula =>
        let read := (e.readInput input).1
        let propagation := read.propagator.setConstant id formula
        conclude nested { read with propagator := propagation.propagator } propagation.update?
          propagation.result := by
  unfold setConstantWith
  generalize e.readInput input = result
  obtain ⟨read, formula⟩ := result
  cases formula with
  | error error => rfl
  | ok formula =>
    dsimp only
    generalize read.propagator.setConstant id formula = propagation
    obtain ⟨propagator, update?, result⟩ := propagation
    unfold conclude tell
    dsimp only
    generalize Option.bind _ _ = event?
    cases event? with
    | none => rcases result with (fault | infeasible | misuse) | report <;> rfl
    | some event =>
      dsimp only
      generalize deliver nested event _ _ = told
      obtain ⟨told, _ | _⟩ := told <;>
        rcases result with (fault | infeasible | misuse) | report <;> rfl

theorem setConstantWith_cases
    (nested : Engine σ → ConstantId → ConstantInput → Engine σ × Except EngineError Unit)
    (e : Engine σ) (id : ConstantId) (input : ConstantInput) :
    (∃ error, (e.readInput input).2 = .error error ∧
      (setConstantWith nested e id input).1 = (e.readInput input).1) ∨
    ∃ formula, (e.readInput input).2 = .ok formula ∧
      ∃ after : Engine σ, after = { (e.readInput input).1 with
          propagator := ((e.readInput input).1.propagator.setConstant id formula).propagator } ∧
        ((∃ misuse, ((e.readInput input).1.propagator.setConstant id formula).result =
            .error (.misuse misuse) ∧ (setConstantWith nested e id input).1 = after) ∨
          (setConstantWith nested e id input).1 = (after.tell nested
            ((e.readInput input).1.propagator.setConstant id formula).update?).1) := by
  rw [setConstantWith_eq]
  cases (e.readInput input).2 with
  | error error => exact Or.inl ⟨error, rfl, rfl⟩
  | ok formula =>
    refine Or.inr ⟨formula, rfl, _, rfl, ?_⟩
    dsimp only
    rcases ((e.readInput input).1.propagator.setConstant id formula).result with
      (fault | infeasible | misuse) | report
    · exact Or.inr rfl
    · exact Or.inr rfl
    · exact Or.inl ⟨misuse, rfl, rfl⟩
    · exact Or.inr rfl

theorem setConstantWith_leads
    {nested : Engine σ → ConstantId → ConstantInput → Engine σ × Except EngineError Unit}
    (hnested : ∀ e id input, Leads e (nested e id input).1) (e : Engine σ) (id : ConstantId)
    (input : ConstantInput) : e.Leads (setConstantWith nested e id input).1 := by
  have hread := e.readInput_leads input
  rcases setConstantWith_cases nested e id input with
    ⟨error, -, heq⟩ | ⟨formula, -, after, hafter, ⟨misuse, -, heq⟩ | heq⟩
  · rw [heq]
    exact hread
  · rw [heq, hafter]
    exact hread.trans (.of_call (.setConstant id formula) trivial rfl rfl)
  · have hset : e.Leads after := by
      rw [hafter]
      exact hread.trans (.of_call (.setConstant id formula) trivial rfl rfl)
    rw [heq, tell]
    split
    · exact hset
    · exact hset.trans (deliver_leads hnested _ _ _)

/-- However deep setting may be nested, it starts with the setting itself. What holds of calls
that do nothing, and of calls that set a constant if it holds of the calls nested in them, holds
of the nested calls at every depth. -/
theorem setConstantWithin_induction
    {P : (Engine σ → ConstantId → ConstantInput → Engine σ × Except EngineError Unit) → Prop}
    (hnone : P fun e _ _ => (e, .ok ()))
    (hset : ∀ nested, P nested → P fun e id input =>
      let result := setConstantWith nested e id input
      (result.1, result.2.map fun _ => ()))
    (depth : Nat) : ∃ nested, P nested ∧ setConstantWithin depth = setConstantWith nested := by
  induction depth with
  | zero => exact ⟨_, hnone, rfl⟩
  | succ depth ih =>
    obtain ⟨nested, hnested, heq⟩ := ih
    refine ⟨_, hset nested hnested, ?_⟩
    rw [← heq]
    rfl

theorem exists_setConstantWith_eq (e : Engine σ) (id : ConstantId) (input : ConstantInput) :
    ∃ nested, (∀ e id input, Leads e (nested e id input).1) ∧
      e.setConstant id input = setConstantWith nested e id input := by
  obtain ⟨nested, hnested, heq⟩ := setConstantWithin_induction
    (P := fun nested => ∀ (e : Engine σ) id input, Leads e (nested e id input).1)
    (fun e _ _ => .of_eq rfl rfl) (fun nested hnested => setConstantWith_leads hnested)
    e.pendingSetters
  refine ⟨nested, hnested, ?_⟩
  rw [setConstant, heq]

theorem setConstant_leads (e : Engine σ) (id : ConstantId) (input : ConstantInput) :
    e.Leads (e.setConstant id input).1 := by
  obtain ⟨nested, hnested, heq⟩ := e.exists_setConstantWith_eq id input
  rw [heq]
  exact setConstantWith_leads hnested e id input

theorem tell_of_silent {e : Engine σ} (h : e.subscribed = ∅)
    (nested : Engine σ → ConstantId → ConstantInput → Engine σ × Except EngineError Unit)
    (update? : Option (ConstantUpdate Float)) : e.tell nested update? = (e, .ok ()) := by
  have hnothing : update?.bind e.eventOf? = none := by
    cases update? with
    | none => rfl
    | some update => simp [eventOf?, h, InsertionSet.isEmpty]
  rw [tell, hnothing]

/-- Where nobody listens, an engine does what its propagator does. -/
theorem setConstant_of_silent {e : Engine σ} (h : e.subscribed = ∅) (id : ConstantId)
    (formula : Formula Float) :
    (e.setConstant id (.formula formula)).1 =
      { e with propagator := (e.propagator.setConstant id formula).propagator } := by
  obtain ⟨nested, -, heq⟩ := e.exists_setConstantWith_eq id (.formula formula)
  let after : Engine σ := { e with propagator := (e.propagator.setConstant id formula).propagator }
  have hafter : after.subscribed = ∅ := h
  rw [heq]
  rcases setConstantWith_cases nested e id (.formula formula) with
    ⟨error, herror, -⟩ | ⟨formula', hread, after', hafter', ⟨misuse, -, hwith⟩ | hwith⟩
  · cases herror
  · cases hread
    rw [hwith, hafter']
    rfl
  · cases hread
    have hsame : after' = after := hafter'
    rw [hwith, hsame, tell_of_silent hafter]

theorem step_setConstant_of_silent {e : Engine σ} (h : e.subscribed = ∅) (id : ConstantId)
    (formula : Formula Float) (answers : SolverAnswers σ) :
    e.step { call := .setConstant id (.formula formula), answers } =
      { e with propagator := e.propagator.step { call := .setConstant id formula, answers } } :=
  setConstant_of_silent (e := e.facing answers) h id formula

theorem step_addConstraint (e : Engine σ) (definition : Constraint Float) (strength : Option σ)
    (answers : SolverAnswers σ) :
    e.step { call := .addConstraint definition strength, answers } =
      { e with
        propagator := e.propagator.step
          { call := .add definition (strength.getD e.defaultStrength), answers } } := by
  simp only [step, facing, perform, addConstraint, Propagator.step, Propagator.perform]
  cases (e.propagator.facing answers).add definition (strength.getD e.defaultStrength) with
  | error failure => cases failure <;> rfl
  | ok result => rfl

theorem addConstraint_frame {e e' : Engine σ} {definition : Constraint Float}
    {strength : Option σ} {handle : Handle}
    (h : e.addConstraint definition strength = .ok (handle, e')) :
    ∃ propagator, e' = { e with propagator } ∧
      e.propagator.add definition (strength.getD e.defaultStrength) = .ok (handle, propagator) := by
  unfold addConstraint at h
  split at h
  · cases h
  · cases h
  · rename_i propagator hadd
    cases h
    exact ⟨propagator, rfl, hadd⟩

theorem readConstraint_frame (e : Engine σ) (text : String) :
    ∃ cache, (e.readConstraint text).1 = { e with cache } := by
  unfold readConstraint
  split
  · exact ⟨e.cache, rfl⟩
  · exact ⟨_, rfl⟩

/-- A written constraint is added as it is read, or nothing but the cache has changed. -/
theorem addSource_cases (e : Engine σ) (text : String) (strength : Option σ) :
    (∃ error cache, e.addSource text strength = ({ e with cache }, .error error)) ∨
      ∃ definition handle cache propagator, (e.readConstraint text).2 = .ok definition ∧
        e.propagator.add definition (strength.getD e.defaultStrength) = .ok (handle, propagator) ∧
        e.addSource text strength = ({ e with cache, propagator }, .ok handle) := by
  obtain ⟨cache, hread⟩ := e.readConstraint_frame text
  unfold addSource
  generalize e.readConstraint text = result at hread ⊢
  obtain ⟨read, constraint⟩ := result
  cases hread
  cases constraint with
  | error error => exact Or.inl ⟨error, cache, rfl⟩
  | ok definition =>
    cases hadd : ({ e with cache } : Engine σ).addConstraint definition strength with
    | error error =>
      simp only [hadd]
      exact Or.inl ⟨error, cache, rfl⟩
    | ok result =>
      obtain ⟨handle, e'⟩ := result
      obtain ⟨propagator, rfl, hpropagator⟩ := addConstraint_frame hadd
      simp only [hadd]
      exact Or.inr ⟨definition, handle, cache, propagator, rfl, hpropagator, rfl⟩

/-- An engine call adds one constraint to the propagator, or it is made of updates. -/
theorem perform_cases (e : Engine σ) (call : EngineCall σ) :
    (e.addition? call = none ∧ e.Leads (e.perform call)) ∨
    ∃ a, e.addition? call = some a ∧
      e.propagator.add a.definition a.strength = .ok (a.handle, (e.perform call).propagator) ∧
      (e.perform call).defaultStrength = e.defaultStrength := by
  cases call with
  | declare label => exact Or.inl ⟨rfl, .of_call (.table (.declare label)) trivial rfl rfl⟩
  | setConstant id input => exact Or.inl ⟨rfl, e.setConstant_leads id input⟩
  | addConstraint definition strength =>
    simp only [addition?, perform]
    cases hadd : e.addConstraint definition strength with
    | error error => exact Or.inl ⟨rfl, .of_eq rfl rfl⟩
    | ok result =>
      obtain ⟨handle, e'⟩ := result
      obtain ⟨propagator, rfl, hpropagator⟩ := addConstraint_frame hadd
      exact Or.inr ⟨_, rfl, hpropagator, rfl⟩
  | addSource text strength =>
    simp only [addition?, perform]
    rcases e.addSource_cases text strength with
      ⟨error, cache, heq⟩ | ⟨definition, handle, cache, propagator, hread, hadd, heq⟩
    · rw [heq]
      cases (e.readConstraint text).2 <;> exact Or.inl ⟨rfl, .of_eq rfl rfl⟩
    · rw [hread, heq]
      exact Or.inr ⟨_, rfl, hadd, rfl⟩
  | removeConstraint handle =>
    simp only [addition?, perform, removeConstraint]
    cases hremove : e.propagator.remove handle with
    | error misuse => exact Or.inl ⟨trivial, .of_eq rfl rfl⟩
    | ok result =>
      obtain ⟨removed, p'⟩ := result
      refine Or.inl ⟨trivial, .of_call (.remove handle) trivial ?_ rfl⟩
      simp only [Propagator.perform, hremove]
  | listen listener reaction => exact Or.inl ⟨rfl, .of_eq rfl rfl⟩
  | unlisten listener => exact Or.inl ⟨rfl, .of_eq rfl rfl⟩

theorem defaultStrength_run (e : Engine σ) (steps : List (EngineStep σ)) :
    (e.run steps).defaultStrength = e.defaultStrength := by
  induction steps generalizing e with
  | nil => rfl
  | cons s steps ih =>
    have hstep : (e.step s).defaultStrength = e.defaultStrength := by
      rcases (e.facing s.answers).perform_cases s.call with ⟨-, hleads⟩ | ⟨a, -, -, hstrength⟩
      · exact hleads.defaultStrength_eq
      · exact hstrength
    exact (ih (e.step s)).trans hstep

/-- What every call on the propagator keeps is kept by every call on the engine. -/
theorem perform_induction {P : Propagator σ → Prop}
    (hadd : ∀ p definition strength, P p → P (p.perform (.add definition strength)))
    (hupdate : ∀ p call, call.IsUpdate → P p → P (p.perform call)) {e : Engine σ}
    (he : P e.propagator) (call : EngineCall σ) : P (e.perform call).propagator := by
  rcases e.perform_cases call with ⟨-, hleads⟩ | ⟨a, -, hadded, -⟩
  · exact hleads.induction hupdate he
  · have hp := hadd _ a.definition a.strength he
    simp only [Propagator.perform, hadded] at hp
    exact hp

/-- A new engine has nothing but its settings and the solver. -/
theorem create_eq_ok {request : ConfigRequest} {strength : σ} {solver : Recorder σ} {e : Engine σ}
    (h : create request strength solver = .ok e) :
    ∃ config : EngineConfig, e =
      { config, defaultStrength := strength
        propagator :=
          { solver
            log := { devMode := config.devMode }
            policy := config.policy
            tolerance := config.tolerance } } := by
  unfold create at h
  cases hconfig : request.resolve with
  | error error =>
    rw [hconfig] at h
    cases h
  | ok config =>
    rw [hconfig] at h
    cases h
    exact ⟨config, rfl⟩

end Engine

end NamedConstants
