import NamedConstants.Proofs.Engine.Events
import NamedConstants.Proofs.Engine.Replies
import NamedConstants.Proofs.Propagation.Retry

/-!
Requests that are rejected. A text that can not be read or bound, a definition that the table
does not take, a constraint that does not linearize or that the solver refuses: none of them
leaves a trace outside the cache of parsed texts. A listener that sets a constant may be
rejected too. Its error ends the call that it was told about, which has then done its work
already; so a rejection is without consequences just when there was nothing to tell.
-/
namespace NamedConstants

namespace EngineRequest

def IsAddition {σ : Type} : EngineRequest σ → Prop
  | .call (.addConstraint _ _) => True
  | .call (.addSource _ _) => True
  | _ => False

end EngineRequest

namespace EngineError

/-- The error says that the request was not accepted. A constraint that can not follow a
constant is no reason to reject the constant, nor is the solver's refusal to follow it. -/
def IsRejection {σ : Type} (request : EngineRequest σ) : EngineError → Prop
  | syntaxError _ _ => True
  | binding _ _ => True
  | config _ => False
  | constant (.resolution _) _ => True
  | constant (.relinearizationFailed _ _) _ => False
  | linearize _ _ => True
  | infeasible _ => request.IsAddition
  | misuse _ => False
  | listener _ => False

end EngineError

namespace Engine

variable {σ : Type} {e : Engine σ} {error : EngineError}

def event? (e : Engine σ) : EngineRequest σ → Option ChangeEvent
  | .call call => (e.update? call).bind e.eventOf?
  | .requireValue _ => none

def Appends
    (nested : Engine σ → ConstantId → ConstantInput → Engine σ × Except EngineError Unit) : Prop :=
  ∀ e id input, e.deliveries <+: (nested e id input).1.deliveries

section Nested

variable {nested : Engine σ → ConstantId → ConstantInput → Engine σ × Except EngineError Unit}

/-- The first listener is told in any case, and whatever follows comes after that. -/
theorem deliveries_deliver (hnested : Appends nested) (event : ChangeEvent)
    (listeners : List String) (e : Engine σ) :
    e.deliveries ++ listeners.head?.toList.map ({ listener := ·, event }) <+:
      (deliver nested event e listeners).1.deliveries := by
  induction listeners generalizing e with
  | nil => exact (List.append_nil _).symm ▸ List.prefix_rfl
  | cons listener rest ih =>
    have hrest (e : Engine σ) : e.deliveries <+: (deliver nested event e rest).1.deliveries :=
      (List.prefix_append _ _).trans (ih e)
    let told : Engine σ := { e with deliveries := e.deliveries ++ [{ listener, event }] }
    change told.deliveries <+: _
    unfold deliver
    dsimp only
    cases e.reactions.getD listener .observe with
    | observe => exact hrest told
    | fail message => exact List.prefix_rfl
    | unsubscribe other => exact hrest (told.unlisten other)
    | subscribe other => exact hrest (told.listen other .observe)
    | setOnce id input =>
      have hspent := hnested
        { told with reactions := told.reactions.insert listener .observe } id input
      dsimp only [told] at hspent ⊢
      generalize nested _ id input = result at hspent ⊢
      obtain ⟨after, _ | _⟩ := result
      · exact hspent
      · exact hspent.trans (hrest after)

theorem deliveries_tell (hnested : Appends nested) (e : Engine σ)
    (update? : Option (ConstantUpdate Float)) :
    e.deliveries <+: (e.tell nested update?).1.deliveries := by
  unfold tell
  cases update?.bind e.eventOf? with
  | none => exact List.prefix_rfl
  | some event => exact (List.prefix_append _ _).trans (deliveries_deliver hnested _ _ _)

/-- If there is something to tell, then somebody is told. -/
theorem exists_told (hnested : Appends nested) {update? : Option (ConstantUpdate Float)}
    {event : ChangeEvent} (hevent : update?.bind e.eventOf? = some event) :
    ∃ listener, e.deliveries ++ [Delivery.mk listener event] <+:
      (e.tell nested update?).1.deliveries := by
  have hsubscribed : e.subscribed.toList ≠ [] := by
    obtain ⟨update, -, hupdate⟩ := Option.bind_eq_some_iff.1 hevent
    intro hnil
    simp [eventOf?, InsertionSet.isEmpty, hnil] at hupdate
  obtain ⟨first, rest, hlisteners⟩ := List.exists_cons_of_ne_nil hsubscribed
  have htold := deliveries_deliver hnested event e.subscribed.toList e
  unfold tell
  rw [hevent]
  rw [hlisteners] at htold ⊢
  exact ⟨first, htold⟩

/-- A call ends where the propagation has led, or with somebody told. -/
theorem conclude_cases (hnested : Appends nested) (e : Engine σ)
    (update? : Option (ConstantUpdate Float))
    (result : Except PropagationFailure PropagationReport) :
    e.conclude nested update? result = (e, result.mapError e.propagationError) ∨
      ∃ event listener, update?.bind e.eventOf? = some event ∧
        e.deliveries ++ [Delivery.mk listener event] <+:
          (e.conclude nested update? result).1.deliveries := by
  cases hevent : update?.bind e.eventOf? with
  | none =>
    have htell : e.tell nested update? = (e, .ok ()) := by
      unfold tell
      rw [hevent]
    left
    unfold conclude
    rw [htell]
    rcases result with (fault | infeasible | misuse) | report <;> rfl
  | some event =>
    obtain ⟨listener, htold⟩ := exists_told hnested hevent
    rcases result with (fault | infeasible | misuse) | report
    · exact Or.inr ⟨event, listener, rfl, htold⟩
    · exact Or.inr ⟨event, listener, rfl, htold⟩
    · exact Or.inl rfl
    · exact Or.inr ⟨event, listener, rfl, htold⟩

theorem deliveries_setConstantWith (hnested : Appends nested) (e : Engine σ) (id : ConstantId)
    (input : ConstantInput) :
    e.deliveries <+: (setConstantWith nested e id input).1.deliveries := by
  obtain ⟨cache, hread⟩ := e.readInput_frame input
  rcases setConstantWith_cases nested e id input with
    ⟨error, -, heq⟩ | ⟨formula, -, after, hafter, ⟨misuse, -, heq⟩ | heq⟩ <;> rw [heq]
  · rw [hread]
  · rw [hafter, hread]
  · have hdeliveries : after.deliveries = e.deliveries := by rw [hafter, hread]
    exact hdeliveries ▸ deliveries_tell hnested _ _

end Nested

/-- If setting a constant is rejected, then nothing has changed outside the cache, or there was
something to tell and somebody was told. -/
theorem setConstant_rejected {id : ConstantId} {input : ConstantInput}
    (hreply : (e.setConstant id input).2 = .error error)
    (hrejection : error.IsRejection (.call (.setConstant id input) : EngineRequest σ)) :
    (e.event? (.call (.setConstant id input)) = none ∧
        ∃ cache, (e.setConstant id input).1 = { e with cache }) ∨
      ∃ event listener, e.event? (.call (.setConstant id input)) = some event ∧
        e.deliveries ++ [Delivery.mk listener event] <+: (e.setConstant id input).1.deliveries := by
  obtain ⟨nested, hnested, heq⟩ := setConstantWithin_induction (P := Appends (σ := σ))
    (fun e _ _ => List.prefix_rfl) (fun nested hnested => deliveries_setConstantWith hnested)
    e.pendingSetters
  have hset : e.setConstant id input = setConstantWith nested e id input := by
    rw [setConstant, heq]
  obtain ⟨cache, hread⟩ := e.readInput_frame input
  rw [setConstantWith_eq, hread] at hset
  rw [hset] at hreply ⊢
  clear hset
  cases hformula : (e.readInput input).2 with
  | error error' =>
    refine Or.inl ⟨?_, cache, rfl⟩
    simp only [event?, update?, hformula]
    rfl
  | ok formula =>
    rw [hformula] at hreply
    let propagation := e.propagator.setConstant id formula
    let after : Engine σ := { e with cache, propagator := propagation.propagator }
    have hevent : e.event? (.call (.setConstant id input)) =
        propagation.update?.bind after.eventOf? := by
      have hlabels : after.table.labelOf = e.table.labelOf :=
        Propagator.labelOf_setConstant e.propagator id formula
      have hevents : after.eventOf? = e.eventOf? := by
        unfold eventOf?
        rw [hlabels]
      simp only [event?, update?, hformula]
      rw [hevents, Propagator.update?_setConstant]
      rfl
    change (after.conclude nested propagation.update? propagation.result).2 = _ at hreply
    change _ ∧ (∃ cache', (after.conclude nested propagation.update? propagation.result).1 = _) ∨
      ∃ event listener, _ ∧ after.deliveries ++ [Delivery.mk listener event] <+:
        (after.conclude nested propagation.update? propagation.result).1.deliveries
    rw [hevent]
    rcases conclude_cases hnested after propagation.update? propagation.result with heq | htold
    · rw [heq] at hreply ⊢
      dsimp only at hreply
      rcases e.propagator.setConstant_cases id formula with
        ⟨fault, htable, hpropagator, -⟩ | ⟨table, update, -, -, hresult⟩
      · have hupdate : propagation.update? = none := by
          rw [Propagator.update?_setConstant, htable]
          rfl
        refine Or.inl ⟨by rw [hupdate]; rfl, cache, ?_⟩
        simp only [after, propagation, hpropagator]
      · -- what fails after the table has taken the definition is no rejection
        exfalso
        cases hfailure : propagation.result with
        | ok report =>
          rw [hfailure] at hreply
          cases hreply
        | error failure =>
          rw [hfailure] at hreply
          cases hreply
          rcases failure with (fault | ⟨handle, cause⟩) | infeasible | misuse
          · exact Propagator.propagate_ne_resolution _ _ fault (hresult.symm.trans hfailure)
          · exact hrejection
          · exact hrejection
          · exact hrejection
    · exact Or.inr htold

/-- A rejected request leaves everything as it was, outside the cache, or there was something to
tell and somebody was told. -/
theorem serve_rejected {request : EngineRequest σ} (hreply : e.reply request = .error error)
    (hrejection : error.IsRejection request) :
    (e.event? request = none ∧ ∃ cache, e.serve request = { e with cache }) ∨
      ∃ event listener, e.event? request = some event ∧
        e.deliveries ++ [Delivery.mk listener event] <+: (e.serve request).deliveries := by
  cases request with
  | requireValue id => exact Or.inl ⟨rfl, e.cache, rfl⟩
  | call call =>
    cases call with
    | declare label => cases hreply
    | setConstant id input =>
      refine setConstant_rejected ?_ hrejection
      simp only [reply] at hreply
      cases hresult : (e.setConstant id input).2 with
      | ok report =>
        rw [hresult] at hreply
        cases hreply
      | error error' =>
        rw [hresult] at hreply
        exact congrArg Except.error (Except.error.inj hreply)
    | addConstraint definition strength =>
      simp only [serve, perform, reply] at hreply ⊢
      cases hadd : e.addConstraint definition strength with
      | error error' => exact Or.inl ⟨rfl, e.cache, rfl⟩
      | ok result =>
        rw [hadd] at hreply
        cases hreply
    | addSource text strength =>
      simp only [serve, perform, reply] at hreply ⊢
      rcases e.addSource_cases text strength with
        ⟨error', cache, heq⟩ | ⟨definition, handle, cache, propagator, -, -, heq⟩
      · rw [heq]
        exact Or.inl ⟨rfl, cache, rfl⟩
      · rw [heq] at hreply
        cases hreply
    | removeConstraint handle =>
      simp only [serve, perform, reply] at hreply ⊢
      cases hremove : e.removeConstraint handle with
      | error error' => exact Or.inl ⟨rfl, e.cache, rfl⟩
      | ok result =>
        rw [hremove] at hreply
        cases hreply
    | listen listener reaction => cases hreply
    | unlisten listener => cases hreply

/-- At every point of a run, a request that is rejected leaves no trace, unless there was
something to tell: the engine is the same but for the cache, with every definition, value,
constraint, handle and token, the solver and its record, the warnings and the events delivered,
and whatever is asked of it later it replies, and ends up, as if the request had not been made.
If there was something to tell, then a listener has been told. -/
theorem rejection_leaves_no_trace {config : ConfigRequest} {strength : σ} {solver : Recorder σ}
    {first : Engine σ} (hfirst : create config strength solver = .ok first)
    (steps : List (EngineStep σ)) (answers : SolverAnswers σ) (request : EngineRequest σ)
    (hreply : ((first.run steps).facing answers).reply request = .error error)
    (hrejection : error.IsRejection request) :
    let e := (first.run steps).facing answers
    (e.event? request = none →
      (∃ cache, e.serve request = { e with cache }) ∧
        ∀ later : List (RequestStep σ), (e.serve request).replies later = e.replies later ∧
          ∃ cache, (e.serve request).serveAll later = { e.serveAll later with cache }) ∧
      ∀ event, e.event? request = some event →
        ∃ listener, e.deliveries ++ [Delivery.mk listener event] <+:
          (e.serve request).deliveries := by
  intro e
  have hcache : e.cache.Faithful := by
    obtain ⟨config, rfl⟩ := create_eq_ok hfirst
    exact faithful_run ParseCache.faithful_empty steps
  constructor
  · intro hevent
    rcases serve_rejected hreply hrejection with ⟨-, cache, hserve⟩ | ⟨event, listener, hsome, -⟩
    · refine ⟨⟨cache, hserve⟩, fun later => ?_⟩
      have hfaithful : (e.serve request).cache.Faithful :=
        ((matches_self hcache).serve request).1.1
      rw [hserve] at hfaithful ⊢
      have hmatches : e.Matches { e with cache } := ⟨hcache, cache, hfaithful, rfl⟩
      obtain ⟨⟨-, final, -, hfinal⟩, hreplies⟩ := hmatches.serveAll later
      exact ⟨hreplies.symm, final, hfinal⟩
    · rw [hevent] at hsome
      cases hsome
  · intro event hevent
    rcases serve_rejected hreply hrejection with ⟨hnone, -⟩ | ⟨event', listener, hsome, htold⟩
    · rw [hevent] at hnone
      cases hnone
    · rw [hevent, Option.some.injEq] at hsome
      exact ⟨listener, hsome ▸ htold⟩

/-- The constant `a` is to be itself. The text enters the cache, and that is all. -/
theorem rejection_leaves_no_trace_circular :
    let steps : List (EngineStep Nat) :=
      [{ call := .declare "a" }, { call := .listen "panel" .observe }]
    let first : Engine Nat :=
      { config := {}, defaultStrength := 1, propagator := { log := { devMode := true } } }
    let e := (first.run steps).facing {}
    let request : EngineRequest Nat := .call (.setConstant 1 (.source "a"))
    let error : EngineError := .constant (.resolution (.selfReference 1))
      "Can not set constant \"a\": its formula references itself."
    create {} 1 {} = .ok first ∧ e.reply request = .error error ∧ error.IsRejection request ∧
      e.event? request = none ∧ (∃ cache, e.serve request = { e with cache }) ∧
      ∀ later : List (RequestStep Nat), (e.serve request).replies later = e.replies later := by
  intro steps first e request error
  have hfirst : create {} 1 {} = .ok first := rfl
  have hreply : e.reply request = .error error := by decide +kernel
  have hrejection : error.IsRejection request := trivial
  have hevent : e.event? request = none := by decide +kernel
  obtain ⟨hsame, hlater⟩ :=
    (rejection_leaves_no_trace hfirst steps {} request hreply hrejection).1 hevent
  exact ⟨hfirst, hreply, hrejection, hevent, hsame, fun later => (hlater later).1⟩

/-- A listener that is told about `a` defines `b` by itself. The call that told it fails with
the listener's error, and `a` has its value all the same. -/
theorem value_kept_despite_rejection :
    let steps : List (EngineStep Nat) :=
      [{ call := .declare "a" }, { call := .declare "b" },
        { call := .listen "relay" (.setOnce 2 (.formula (.constant 2))) }]
    let first : Engine Nat :=
      { config := {}, defaultStrength := 1, propagator := { log := { devMode := true } } }
    let e := (first.run steps).facing {}
    let request : EngineRequest Nat := .call (.setConstant 1 (.formula (.literal 1)))
    create {} 1 {} = .ok first ∧
      (∃ error, e.reply request = .error error ∧ error.IsRejection request) ∧
      e.table.valueOf? 1 = none ∧ (e.serve request).table.valueOf? 1 = some 1 ∧
      ¬ ∃ cache, e.serve request = { e with cache } := by
  intro steps first e request
  have hset : e.propagator.table.set 1 (.literal 1) = .ok (_, _) :=
    ConstantTable.set_literal (by decide) (by decide) (by decide)
  have hpropagation := Propagator.setConstant_of_unmentioned hset rfl
    fun change _ handle => InsertionSet.not_mem_empty handle
  let nested : Engine Nat → ConstantId → ConstantInput → Engine Nat × Except EngineError Unit :=
    fun e id input =>
      let result := setConstantWithin 0 e id input
      (result.1, result.2.map fun _ => ())
  have hcall : e.setConstant 1 (.formula (.literal 1)) =
      setConstantWith nested e 1 (.formula (.literal 1)) := rfl
  rw [setConstantWith_eq] at hcall
  change _ = conclude nested
    { e with propagator := (e.propagator.setConstant 1 (.literal 1)).propagator }
    (e.propagator.setConstant 1 (.literal 1)).update?
    (e.propagator.setConstant 1 (.literal 1)).result at hcall
  rw [hpropagation] at hcall
  have hresult : ∃ message, (e.setConstant 1 (.formula (.literal 1))).2 =
      .error (.constant (.resolution (.selfReference 2)) message) := by
    rw [hcall]
    exact ⟨_, rfl⟩
  have hvalue : (e.serve request).table.valueOf? 1 = some 1 := by
    change (e.setConstant 1 (.formula (.literal 1))).1.table.valueOf? 1 = _
    rw [hcall]
    rfl
  obtain ⟨message, hresult⟩ := hresult
  have hreply : e.reply request = .error (.constant (.resolution (.selfReference 2)) message) :=
    congrArg (Except.map EngineReply.report) hresult
  refine ⟨rfl, ⟨_, hreply, trivial⟩, rfl, hvalue, ?_⟩
  rintro ⟨cache, hsame⟩
  rw [hsame] at hvalue
  cases hvalue

end Engine

end NamedConstants
