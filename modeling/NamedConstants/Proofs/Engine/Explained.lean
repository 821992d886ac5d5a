import NamedConstants.Proofs.Constants.Acceptance
import NamedConstants.Proofs.Engine.Rejected
import NamedConstants.Proofs.Expr.References
import NamedConstants.Proofs.Propagation.Repeated
import NamedConstants.Proofs.Propagation.Reported

/-!
What it means that a constant is missing. A definition may be refused for a constant that has a
value, if this constant depends on the one being set; the message then says so. It finds out by
asking for the value at the moment when the error is raised, which may be in a call that a
listener has made in another. But wherever an error comes from, nothing happens between the
answer of the table and the message: so the sentence is said of exactly the constants that it is
true of, and never of a constant that has no value, as in the warnings about dependents.
-/
open Relation

namespace NamedConstants

namespace FaultContext

def orderText (ctx : FaultContext) (missing whileSetting : ConstantId) : String :=
  ctx.quoted missing ++ " depends on " ++ ctx.quoted whileSetting ++ " and resolves after it."

/-- The text closes with the sentence that the missing constant depends on the one being set. -/
def SaysOrder (ctx : FaultContext) (missing whileSetting : ConstantId) (text : String) : Prop :=
  ∃ front, text = front ++ " " ++ ctx.orderText missing whileSetting

theorem endings_differ (front front' : String) :
    front ++ " is not set." ≠ front' ++ " and resolves after it." := by
  intro heq
  have hend := congrArg (fun text => text.toList.reverse.take 3) heq
  simp only [String.toList_append] at hend
  simp at hend

theorem exists_describe_eq (ctx : FaultContext) (missing whileSetting : ConstantId) :
    ∃ front, (ResolutionFault.unresolvedDependency missing whileSetting).describe ctx =
      if (ctx.valueOf? missing).isSome then
        front ++ " is not set." ++ " " ++ ctx.orderText missing whileSetting
      else front ++ " is not set." := by
  refine ⟨"Can not set constant " ++ ctx.quoted whileSetting ++ " because " ++
    ctx.quoted missing, ?_⟩
  unfold ResolutionFault.describe
  dsimp only
  split
  · simp only [orderText, String.append_assoc]
  · rfl

/-- Whatever it is put after, the description of a missing constant says so exactly if the constant
has a value. -/
theorem saysOrder_describe_iff (ctx : FaultContext) (missing whileSetting : ConstantId)
    (before : String) :
    ctx.SaysOrder missing whileSetting
        (before ++ (ResolutionFault.unresolvedDependency missing whileSetting).describe ctx) ↔
      (ctx.valueOf? missing).isSome := by
  obtain ⟨reason, hdescribe⟩ := ctx.exists_describe_eq missing whileSetting
  rw [hdescribe]
  constructor
  -- Without a value the description ends in other letters, whatever the front is.
  · rintro ⟨front, heq⟩
    by_contra hnone
    rw [if_neg hnone, orderText, ← String.append_assoc, ← String.append_assoc,
      ← String.append_assoc] at heq
    exact endings_differ _ _ heq
  · intro hvalued
    rw [if_pos hvalued]
    refine ⟨before ++ (reason ++ " is not set."), ?_⟩
    simp only [String.append_assoc]

end FaultContext

private theorem eq_error_of_map {ε β γ : Type} {f : β → γ} {x : Except ε β} {error : ε}
    (h : x.map f = .error error) : x = .error error := by
  cases x with
  | error error' => exact congrArg Except.error (Except.error.inj h)
  | ok value => cases h

private theorem exists_eq_error_of_mapError {ε ε' β : Type} {f : ε → ε'} {x : Except ε β}
    {error : ε'} (h : x.mapError f = .error error) :
    ∃ first, x = .error first ∧ error = f first := by
  cases x with
  | error first => exact ⟨first, rfl, (Except.error.inj h).symm⟩
  | ok value => cases h

variable {α : Type} [Arithmetic α]

/-- What a definition misses is not found, and it is missed for the constant that is defined. -/
theorem Definition.resolve_eq_unresolved {definition : Definition α} {id : ConstantId}
    {lookup : ConstantId → Option α} {missing whileSetting : ConstantId}
    (h : definition.resolve id lookup = .error (.unresolvedDependency missing whileSetting)) :
    lookup missing = none ∧ whileSetting = id := by
  have heval (e : Formula α)
      (h : (e.eval lookup).mapError (EvalFault.resolving id) =
        .error (.unresolvedDependency missing whileSetting)) :
      lookup missing = none ∧ whileSetting = id := by
    obtain ⟨first, hfirst, hfault⟩ := exists_eq_error_of_mapError h
    cases first <;> cases hfault
    exact ⟨(Expr.eval_eq_error_iff.1 hfirst).lookup_eq_none rfl, rfl⟩
  cases definition with
  | unset => cases h
  | literal value => exact heval (.literal value) h
  | formula expr => exact heval expr h

namespace ConstantTable

variable {t : ConstantTable Float} {missing whileSetting : ConstantId}

/-- The fault is what the table answers now, to a definition or to the question for a value. -/
def Gives (t : ConstantTable Float) (fault : ResolutionFault Float) : Prop :=
  (∃ id input, t.set id input = .error fault) ∨ ∃ id, t.resolve id = .error fault

/-- A constant that has a value is missed only by the definition of a constant that it
depends on. -/
theorem reaches_of_gives (ht : t.Coherent)
    (h : t.Gives (.unresolvedDependency missing whileSetting))
    (hvalued : (t.valueOf? missing).isSome) : TransGen t.Mentions missing whileSetting := by
  rcases h with ⟨id, input, hset⟩ | ⟨id, hresolve⟩
  · have hhidden : t.visible id missing = none ∧ whileSetting = id := by
      rw [set_eq_error_iff, check_ofFormula] at hset
      split at hset
      · cases hset
      split at hset
      · cases hset
      split at hset
      · cases hset
      · exact Definition.resolve_eq_unresolved hset
    obtain ⟨hhidden, rfl⟩ := hhidden
    -- A value is hidden only from the constants that the one with the value depends on.
    rw [← ht.linked.mem_closure]
    by_contra hnot
    rw [visible, if_neg hnot] at hhidden
    rw [hhidden] at hvalued
    cases hvalued
  · have hnone : t.valueOf? missing = none := (Definition.resolve_eq_unresolved hresolve).1
    rw [hnone] at hvalued
    cases hvalued

end ConstantTable

namespace Engine

variable {σ : Type} {e : Engine σ}

/-- The error is no fault of the table, or it describes what the table answers, in its words. -/
def Explains (e : Engine σ) : EngineError → Prop
  | .constant (.resolution fault) message =>
    e.table.Gives fault ∧ message = fault.describe e.table.faultContext
  | _ => True

def SetsExplained
    (nested : Engine σ → ConstantId → ConstantInput → Engine σ × Except EngineError Unit) : Prop :=
  ∀ e id input error, (nested e id input).2 = .error error → (nested e id input).1.Explains error

/-- What can not be read is no fault of the table. -/
theorem explains_readInput {input : ConstantInput} {error : EngineError}
    (h : (e.readInput input).2 = .error error) (e' : Engine σ) : e'.Explains error := by
  cases input with
  | formula expr => cases h
  | source text =>
    simp only [readInput] at h
    split at h
    · cases h
      trivial
    · obtain ⟨unbound, -, rfl⟩ := exists_eq_error_of_mapError h
      trivial

/-- A constraint that can not be added is no fault of the table. -/
theorem explains_addConstraint {definition : Constraint Float} {strength : Option σ}
    {error : EngineError} (h : e.addConstraint definition strength = .error error)
    (e' : Engine σ) : e'.Explains error := by
  unfold addConstraint at h
  rcases hadd : e.propagator.add definition (strength.getD e.defaultStrength) with
    (fault' | infeasible) | ⟨handle, propagator⟩ <;> rw [hadd] at h <;> cases h <;> trivial

theorem explains_addSource {text : String} {strength : Option σ} {error : EngineError}
    (h : (e.addSource text strength).2 = .error error) (e' : Engine σ) : e'.Explains error := by
  have hread : ∀ error, (e.readConstraint text).2 = .error error → e'.Explains error := by
    intro error h
    simp only [readConstraint] at h
    split at h
    · cases h
      trivial
    · obtain ⟨unbound, -, rfl⟩ := exists_eq_error_of_mapError h
      trivial
  unfold addSource at h
  generalize e.readConstraint text = result at h hread
  obtain ⟨read, _ | definition⟩ := result
  · cases h
    exact hread _ rfl
  · dsimp only at h
    cases hadd : read.addConstraint definition strength with
    | error error' =>
      rw [hadd] at h
      cases h
      exact explains_addConstraint hadd e'
    | ok result =>
      rw [hadd] at h
      cases h

section Nested

variable {nested : Engine σ → ConstantId → ConstantInput → Engine σ × Except EngineError Unit}

theorem explains_deliver (hnested : SetsExplained nested) (event : ChangeEvent)
    (listeners : List String) (e : Engine σ) {error : EngineError}
    (h : (deliver nested event e listeners).2 = .error error) :
    (deliver nested event e listeners).1.Explains error := by
  induction listeners generalizing e with
  | nil => cases h
  | cons listener rest ih =>
    unfold deliver at h ⊢
    dsimp only at h ⊢
    cases hreaction : e.reactions.getD listener .observe with
    | observe =>
      simp only [hreaction] at h ⊢
      exact ih _ h
    | fail message =>
      simp only [hreaction] at h ⊢
      cases h
      trivial
    | unsubscribe other =>
      simp only [hreaction] at h ⊢
      exact ih _ h
    | subscribe other =>
      simp only [hreaction] at h ⊢
      exact ih _ h
    | setOnce id input =>
      simp only [hreaction] at h ⊢
      have hset := hnested
        { e with
          deliveries := e.deliveries ++ [{ listener, event }]
          reactions := e.reactions.insert listener .observe } id input
      generalize nested _ id input = result at h hset ⊢
      obtain ⟨after, _ | _⟩ := result
      · cases h
        exact hset _ rfl
      · exact ih _ h

theorem explains_tell (hnested : SetsExplained nested) (e : Engine σ)
    (update? : Option (ConstantUpdate Float)) {error : EngineError}
    (h : (e.tell nested update?).2 = .error error) : (e.tell nested update?).1.Explains error := by
  unfold tell at h ⊢
  cases hevent : update?.bind e.eventOf? with
  | none =>
    rw [hevent] at h
    cases h
  | some event =>
    rw [hevent] at h
    exact explains_deliver hnested event _ e h

/-- What a call ends with is explained if a fault of the table is, and nobody was told of it. -/
theorem explains_conclude (hnested : SetsExplained nested) (e : Engine σ)
    {update? : Option (ConstantUpdate Float)}
    {result : Except PropagationFailure PropagationReport}
    (hresult : ∀ fault, result = .error (.constant (.resolution fault)) →
      update? = none ∧ e.table.Gives fault) {error : EngineError}
    (h : (e.conclude nested update? result).2 = .error error) :
    (e.conclude nested update? result).1.Explains error := by
  have htold (reply : Except EngineError PropagationReport)
      (hreply : ∀ error, reply = .error error → (e.tell nested update?).1.Explains error)
      (h : ((e.tell nested update?).2.bind fun _ => reply) = .error error) :
      (e.tell nested update?).1.Explains error := by
    cases htell : (e.tell nested update?).2 with
    | error error' =>
      rw [htell] at h
      cases h
      exact explains_tell hnested e update? htell
    | ok done =>
      rw [htell] at h
      exact hreply error h
  unfold conclude at h ⊢
  rcases result with ((fault | ⟨handle, cause⟩) | infeasible | misuse) | report
  -- Nobody is told of a refused definition, so no listener comes between the fault and its words.
  · obtain ⟨rfl, hgives⟩ := hresult fault rfl
    refine htold _ ?_ h
    rintro error' ⟨⟩
    exact ⟨hgives, rfl⟩
  · refine htold _ ?_ h
    rintro error' ⟨⟩
    trivial
  · refine htold _ ?_ h
    rintro error' ⟨⟩
    trivial
  · cases h
    trivial
  · refine htold (.ok report) ?_ h
    rintro error' ⟨⟩

/-- A setting fails for a text that can not be read, in a listener, or at the table. -/
theorem explains_setConstantWith (hnested : SetsExplained nested) (e : Engine σ) (id : ConstantId)
    (input : ConstantInput) {error : EngineError}
    (h : (setConstantWith nested e id input).2 = .error error) :
    (setConstantWith nested e id input).1.Explains error := by
  rw [setConstantWith_eq] at h ⊢
  cases hformula : (e.readInput input).2 with
  | error error' =>
    simp only [hformula] at h ⊢
    cases h
    exact explains_readInput hformula _
  | ok formula =>
    simp only [hformula] at h ⊢
    generalize (e.readInput input).1 = read at h ⊢
    refine explains_conclude hnested _ ?_ h
    intro fault hfault
    rcases read.propagator.setConstant_cases id formula with
      ⟨fault', hset, hpropagator, hresult⟩ | ⟨table, update, -, -, hresult⟩
    · rw [hresult] at hfault
      cases hfault
      refine ⟨?_, Or.inl ⟨id, formula, ?_⟩⟩
      · rw [Propagator.update?_setConstant, hset]
        rfl
      · simp only [table, hpropagator]
        exact hset
    · exact absurd (hresult.symm.trans hfault) (Propagator.propagate_ne_resolution _ _ fault)

end Nested

/-- An error with which a setting ends describes what the table answers at that moment. -/
theorem explains_setConstant (e : Engine σ) (id : ConstantId) (input : ConstantInput)
    {error : EngineError} (h : (e.setConstant id input).2 = .error error) :
    (e.setConstant id input).1.Explains error := by
  obtain ⟨nested, hnested, heq⟩ := setConstantWithin_induction (P := SetsExplained (σ := σ))
    (fun e id input error h => by cases h)
    (fun nested hnested e id input error h =>
      explains_setConstantWith hnested e id input (eq_error_of_map h))
    e.pendingSetters
  have hset : e.setConstant id input = setConstantWith nested e id input := by
    rw [setConstant, heq]
  rw [hset] at h ⊢
  exact explains_setConstantWith hnested e id input h

theorem explains_reply {request : EngineRequest σ} {error : EngineError}
    (h : e.reply request = .error error) : (e.serve request).Explains error := by
  cases request with
  | requireValue id =>
    have h := eq_error_of_map h
    unfold requireValue at h
    cases hvalue : e.table.valueOf? id with
    | some value =>
      rw [hvalue] at h
      cases h
    | none =>
      cases hresolve : e.table.resolve id with
      | ok value =>
        rw [hvalue, hresolve] at h
        cases h
      | error fault =>
        rw [hvalue, hresolve] at h
        cases h
        exact ⟨Or.inr ⟨id, hresolve⟩, rfl⟩
  | call call =>
    cases call with
    | declare label => cases h
    | setConstant id input => exact explains_setConstant e id input (eq_error_of_map h)
    | addConstraint definition strength => exact explains_addConstraint (eq_error_of_map h) _
    | addSource text strength => exact explains_addSource (eq_error_of_map h) _
    | removeConstraint handle =>
      have h := eq_error_of_map h
      unfold removeConstraint at h
      cases hremove : e.propagator.remove handle <;> rw [hremove] at h <;> cases h
      trivial
    | listen listener reaction => cases h
    | unlisten listener => cases h

/-- A definition that the table refuses is refused with the words that it has for the fault. -/
theorem setConstant_of_set_error {id : ConstantId} {input : ConstantInput} {formula : Formula Float}
    (hread : (e.readInput input).2 = .ok formula) {fault : ResolutionFault Float}
    (hset : e.table.set id formula = .error fault) :
    (e.setConstant id input).2 =
      .error (.constant (.resolution fault) (fault.describe e.table.faultContext)) := by
  obtain ⟨nested, -, heq⟩ := e.exists_setConstantWith_eq id input
  obtain ⟨cache, hframe⟩ := e.readInput_frame input
  have hrefused : e.propagator.setConstant id formula =
      { propagator := e.propagator, update? := none
        result := .error (.constant (.resolution fault)) } := by
    have hset : e.propagator.table.set id formula = .error fault := hset
    simp only [Propagator.setConstant, hset]
  rw [heq, setConstantWith_eq, hread, hframe]
  simp only [hrefused]
  rfl

theorem recounted_serve (h : e.propagator.Recounted) (request : EngineRequest σ) :
    (e.serve request).propagator.Recounted := by
  cases request with
  | requireValue id => exact h
  | call call =>
    exact perform_induction (fun _ _ _ hp => hp.perform _) (fun _ call _ hp => hp.perform call) h
      call

theorem recounted_run (h : e.propagator.Recounted) (steps : List (EngineStep σ)) :
    (e.run steps).propagator.Recounted := by
  induction steps generalizing e with
  | nil => exact h
  | cons s steps ih =>
    have hfacing : (e.facing s.answers).propagator.Recounted := h.congr rfl rfl
    exact ih (recounted_serve hfacing (.call s.call))

theorem recounted_create {config : ConfigRequest} {strength : σ} {solver : Recorder σ}
    (h : create config strength solver = .ok e) : e.propagator.Recounted := by
  obtain ⟨config, rfl⟩ := create_eq_ok h
  exact ⟨⟨[], rfl⟩, List.forall_mem_nil _⟩

/-- An error says of a missing constant that it depends on the one being set if and only if it
has a value, and then it does depend on it, directly or through others. Whatever definition the
table refuses for such a constant, the error says so. The warnings about dependents, each in the
words of the table at that time, never say it. -/
theorem order_stated_where_true {config : ConfigRequest} {strength : σ} {solver : Recorder σ}
    {first : Engine σ} (hfirst : create config strength solver = .ok first)
    (steps : List (EngineStep σ)) (answers : SolverAnswers σ) :
    let e := (first.run steps).facing answers
    (∀ request missing whileSetting message,
      e.reply request =
        .error (.constant (.resolution (.unresolvedDependency missing whileSetting)) message) →
      let t := (e.serve request).table
      (t.faultContext.SaysOrder missing whileSetting message ↔ (t.valueOf? missing).isSome) ∧
        (t.faultContext.SaysOrder missing whileSetting message →
          TransGen t.Mentions missing whileSetting)) ∧
    (∀ id input formula missing whileSetting, (e.readInput input).2 = .ok formula →
      e.table.set id formula = .error (.unresolvedDependency missing whileSetting) →
      (e.table.valueOf? missing).isSome →
      ∃ message, e.reply (.call (.setConstant id input)) =
          .error (.constant (.resolution (.unresolvedDependency missing whileSetting)) message) ∧
        e.table.faultContext.SaysOrder missing whileSetting message) ∧
    ∀ w ∈ e.propagator.log.lines, w.area = .constants →
      ∃ (past : Propagator σ) (earlier later : List (TableCall Float)) (changed : ConstantId)
        (warning : DependentWarning Float), past.table = (∅ : ConstantTable Float).after earlier ∧
        e.table = past.table.after later ∧ w = past.reportOf changed warning ∧
        past.table.resolve warning.id = .error warning.fault ∧
        ∀ missing whileSetting, warning.fault = .unresolvedDependency missing whileSetting →
          ¬ past.table.faultContext.SaysOrder missing whileSetting w.detail := by
  intro e
  have hrun : (first.run steps).propagator.Recounted := recounted_run (recounted_create hfirst) steps
  have he : e.propagator.Recounted := hrun.congr rfl rfl
  refine ⟨fun request missing whileSetting message hreply => ?_, ?_, ?_⟩
  · intro t
    obtain ⟨hgives, rfl⟩ := explains_reply hreply
    have ht : t.Coherent := (recounted_serve he request).coherent
    have hstated := t.faultContext.saysOrder_describe_iff missing whileSetting ""
    rw [String.empty_append] at hstated
    exact ⟨hstated, fun h => ConstantTable.reaches_of_gives ht hgives (hstated.1 h)⟩
  · intro id input formula missing whileSetting hread hset hvalued
    refine ⟨_, congrArg (Except.map EngineReply.report) (setConstant_of_set_error hread hset), ?_⟩
    have hstated := e.table.faultContext.saysOrder_describe_iff missing whileSetting ""
    rw [String.empty_append] at hstated
    exact hstated.2 hvalued
  · intro w hw harea
    obtain ⟨past, earlier, later, changed, warning, hpast, hlater, hresolve, rfl⟩ :=
      he.recounts w hw harea
    refine ⟨past, earlier, later, changed, warning, hpast, hlater, rfl, hresolve, ?_⟩
    intro missing whileSetting hfault hstated
    rw [hfault] at hresolve
    have hnone : past.table.valueOf? missing = none := (Definition.resolve_eq_unresolved hresolve).1
    rw [Propagator.reportOf, Propagator.dependentText, hfault,
      FaultContext.saysOrder_describe_iff] at hstated
    have hvalued : (past.table.valueOf? missing).isSome := hstated
    rw [hnone] at hvalued
    cases hvalued

def callOf : TableCall Float → EngineCall σ
  | .declare label => .declare label
  | .set id input => .setConstant id (.formula input)

theorem table_setConstant_of_silent (h : e.subscribed = ∅) (id : ConstantId)
    (formula : Formula Float) :
    (e.setConstant id (.formula formula)).1.table = e.table.perform (.set id formula) ∧
      (e.setConstant id (.formula formula)).1.subscribed = ∅ := by
  rw [setConstant_of_silent h]
  exact ⟨Propagator.table_setConstant e.propagator id formula, h⟩

theorem run_callOf (h : e.subscribed = ∅) (calls : List (TableCall Float))
    (answers : SolverAnswers σ) :
    let after := (e.run (calls.map fun call => { call := callOf call })).facing answers
    after.table = e.table.after calls ∧ after.subscribed = ∅ := by
  induction calls generalizing e with
  | nil => exact ⟨rfl, h⟩
  | cons call calls ih =>
    have hstep : (e.step { call := callOf call }).table = e.table.perform call ∧
        (e.step { call := callOf call }).subscribed = ∅ := by
      have hfacing : (e.facing {}).subscribed = ∅ := h
      cases call with
      | declare label => exact ⟨rfl, h⟩
      | set id input => exact table_setConstant_of_silent hfacing id input
    have hrest := ih hstep.2
    rw [hstep.1] at hrest
    exact hrest

/-- In the table of `quotientCalls` the constant `d` depends on `b`. -/
theorem set_quotient_circular :
    Propagator.quotient.set 2 (.constant 3) = .error (.unresolvedDependency 3 2) := by
  have hlinked : Propagator.quotient.Linked := by
    rw [← Propagator.after_quotientCalls]
    exact (ConstantTable.coherent_after ConstantTable.coherent_empty _).linked
  have hmentions : Propagator.quotient.Mentions 3 2 :=
    ⟨Propagator.reciprocal, rfl, by simp [Propagator.reciprocal, Expr.constantLeaves]⟩
  have hhidden : Propagator.quotient.seenFrom 2 3 = none := if_pos (.single hmentions)
  rw [ConstantTable.set_eq_error_iff, ConstantTable.check_eq_error_iff hlinked]
  refine .unresolved (by decide) (by decide) ?_ (.unresolvedConstant 3) (.constant 3 hhidden)
  intro r hr
  obtain rfl : r = 3 := by simpa [Expr.constantLeaves] using hr
  decide

/-- The constant `b` is to be `d`, which has a value and depends on `b`. -/
theorem order_stated_where_true_quotient :
    let first : Engine Nat :=
      { config := {}, defaultStrength := 1, propagator := { log := { devMode := true } } }
    let steps : List (EngineStep Nat) :=
      Propagator.quotientCalls.map fun call => { call := callOf call }
    let e := (first.run steps).facing {}
    let request : EngineRequest Nat := .call (.setConstant 2 (.formula (.constant 3)))
    let t := (e.serve request).table
    create {} 1 {} = .ok first ∧ (e.table.valueOf? 3).isSome ∧
      ∃ message, e.reply request =
          .error (.constant (.resolution (.unresolvedDependency 3 2)) message) ∧
        t.faultContext.SaysOrder 3 2 message ∧ TransGen t.Mentions 3 2 := by
  intro first steps
  have hcreate : create {} 1 {} = .ok first := rfl
  have hrun : ((first.run steps).facing {}).table = Propagator.quotient ∧
      ((first.run steps).facing {}).subscribed = ∅ := by
    rw [← Propagator.after_quotientCalls]
    exact run_callOf (e := first) rfl Propagator.quotientCalls {}
  obtain ⟨hquotient, hsilent⟩ := hrun
  obtain ⟨hexplained, hrefused, -⟩ := order_stated_where_true hcreate steps {}
  dsimp only
  generalize (first.run steps).facing {} = e at hquotient hsilent hexplained hrefused ⊢
  have hvalued : (e.table.valueOf? 3).isSome := by
    rw [hquotient]
    rfl
  have hset : e.table.set 2 (.constant 3) = .error (.unresolvedDependency 3 2) :=
    hquotient ▸ set_quotient_circular
  obtain ⟨message, hreply, hstated⟩ := hrefused 2 (.formula (.constant 3)) _ 3 2 rfl hset hvalued
  have htable : (e.serve (.call (.setConstant 2 (.formula (.constant 3))))).table = e.table := by
    have hperform := (table_setConstant_of_silent hsilent 2 (.constant 3)).1
    rw [ConstantTable.perform, hset] at hperform
    exact hperform
  rw [← htable] at hstated
  exact ⟨hcreate, hvalued, message, hreply, hstated, (hexplained _ 3 2 message hreply).2 hstated⟩

end Engine

end NamedConstants
