import NamedConstants.Proofs.Engine.Runs
import NamedConstants.Proofs.Source.Caching

/-!
What an engine replies to its caller. Engines that differ in nothing but their caches of parsed
texts give the same replies, to one request and to any number of them, and afterwards they
still differ in nothing else: what a text was read for before can not be found out.
-/
namespace NamedConstants

inductive EngineReply where
  | done
  | declared (id : ConstantId)
  | report (report : PropagationReport)
  | added (handle : Handle)
  | removed (found : Bool)
  | value (value : Float)
deriving DecidableEq, Repr

inductive EngineRequest (σ : Type) where
  | call (call : EngineCall σ)
  | requireValue (id : ConstantId)

structure RequestStep (σ : Type) where
  request : EngineRequest σ
  answers : SolverAnswers σ := {}

namespace Engine

variable {σ ρ : Type} {e e' : Engine σ}

def reply (e : Engine σ) : EngineRequest σ → Except EngineError EngineReply
  | .call (.declare label) => .ok (.declared (e.declare label).1)
  | .call (.setConstant id input) => (e.setConstant id input).2.map .report
  | .call (.addConstraint definition strength) =>
    (e.addConstraint definition strength).map fun result => .added result.1
  | .call (.addSource text strength) => (e.addSource text strength).2.map .added
  | .call (.removeConstraint handle) =>
    (e.removeConstraint handle).map fun result => .removed result.1
  | .call (.listen _ _) => .ok .done
  | .call (.unlisten _) => .ok .done
  | .requireValue id => (e.requireValue id).map .value

def serve (e : Engine σ) : EngineRequest σ → Engine σ
  | .call call => e.perform call
  | .requireValue _ => e

def serveAll (e : Engine σ) : List (RequestStep σ) → Engine σ
  | [] => e
  | s :: steps => ((e.facing s.answers).serve s.request).serveAll steps

def replies (e : Engine σ) : List (RequestStep σ) → List (Except EngineError EngineReply)
  | [] => []
  | s :: steps =>
    (e.facing s.answers).reply s.request ::
      ((e.facing s.answers).serve s.request).replies steps

/-- The engines differ in their caches at most, and what these keep is what parsing gives. -/
def Matches (e e' : Engine σ) : Prop :=
  e.cache.Faithful ∧ ∃ cache : ParseCache Float, cache.Faithful ∧ e' = { e with cache }

def Agree (r r' : Engine σ × ρ) : Prop := r.1.Matches r'.1 ∧ r.2 = r'.2

def SetsAlike
    (nested : Engine σ → ConstantId → ConstantInput → Engine σ × Except EngineError Unit) : Prop :=
  ∀ e e' : Engine σ, e.Matches e' → ∀ id input, Agree (nested e id input) (nested e' id input)

namespace Matches

theorem facing (h : e.Matches e') (answers : SolverAnswers σ) :
    (e.facing answers).Matches (e'.facing answers) := by
  obtain ⟨hcache, cache, hcache', rfl⟩ := h
  exact ⟨hcache, cache, hcache', rfl⟩

theorem readInput (h : e.Matches e') (input : ConstantInput) :
    Agree (e.readInput input) (e'.readInput input) := by
  obtain ⟨hcache, cache, hcache', rfl⟩ := h
  cases input with
  | formula expr => exact ⟨⟨hcache, cache, hcache', rfl⟩, rfl⟩
  | source text =>
    simp only [Engine.readInput]
    rcases hcache.expression_agrees hcache' text with
      ⟨error, heq, heq'⟩ | ⟨tree, next, next', heq, heq', hnext, hnext'⟩ <;> rw [heq, heq']
    · exact ⟨⟨hcache, cache, hcache', rfl⟩, rfl⟩
    · exact ⟨⟨hnext, next', hnext', rfl⟩, rfl⟩

theorem readConstraint (h : e.Matches e') (text : String) :
    Agree (e.readConstraint text) (e'.readConstraint text) := by
  obtain ⟨hcache, cache, hcache', rfl⟩ := h
  simp only [Engine.readConstraint]
  rcases hcache.relation_agrees hcache' text with
    ⟨error, heq, heq'⟩ | ⟨relation, next, next', heq, heq', hnext, hnext'⟩ <;> rw [heq, heq']
  · exact ⟨⟨hcache, cache, hcache', rfl⟩, rfl⟩
  · exact ⟨⟨hnext, next', hnext', rfl⟩, rfl⟩

section Nested

variable {nested : Engine σ → ConstantId → ConstantInput → Engine σ × Except EngineError Unit}

/-- Listeners are told the same, and they do the same, if the calls that they make agree. -/
theorem deliver (hnested : SetsAlike nested) (h : e.Matches e') (event : ChangeEvent)
    (listeners : List String) :
    Agree (Engine.deliver nested event e listeners) (Engine.deliver nested event e' listeners) := by
  induction listeners generalizing e e' with
  | nil => exact ⟨h, rfl⟩
  | cons listener rest ih =>
    obtain ⟨hcache, cache, hcache', rfl⟩ := h
    unfold Engine.deliver
    dsimp only
    cases e.reactions.getD listener .observe with
    | observe => exact ih ⟨hcache, cache, hcache', rfl⟩
    | fail message => exact ⟨⟨hcache, cache, hcache', rfl⟩, rfl⟩
    | unsubscribe other => exact ih ⟨hcache, cache, hcache', rfl⟩
    | subscribe other => exact ih ⟨hcache, cache, hcache', rfl⟩
    | setOnce id input =>
      let spent : Engine σ :=
        { e with
          deliveries := e.deliveries ++ [{ listener, event }]
          reactions := e.reactions.insert listener .observe }
      have hspent : spent.Matches { spent with cache } := ⟨hcache, cache, hcache', rfl⟩
      obtain ⟨hafter, hresult⟩ := hnested _ _ hspent id input
      dsimp only [spent] at hafter hresult ⊢
      generalize nested _ id input = r at hafter hresult ⊢
      generalize nested _ id input = r' at hafter hresult ⊢
      obtain ⟨after, result⟩ := r
      obtain ⟨after', result'⟩ := r'
      dsimp only at hafter hresult
      subst hresult
      cases result with
      | error error => exact ⟨hafter, rfl⟩
      | ok done => exact ih hafter

theorem tell (hnested : SetsAlike nested) (h : e.Matches e')
    (update? : Option (ConstantUpdate Float)) :
    Agree (e.tell nested update?) (e'.tell nested update?) := by
  have hevent : e'.eventOf? = e.eventOf? ∧ e'.subscribed = e.subscribed := by
    obtain ⟨-, cache, -, rfl⟩ := h
    exact ⟨rfl, rfl⟩
  unfold Engine.tell
  rw [hevent.1, hevent.2]
  cases update?.bind e.eventOf? with
  | none => exact ⟨h, rfl⟩
  | some event => exact h.deliver hnested event _

theorem conclude (hnested : SetsAlike nested) (h : e.Matches e')
    (update? : Option (ConstantUpdate Float))
    (result : Except PropagationFailure PropagationReport) :
    Agree (e.conclude nested update? result) (e'.conclude nested update? result) := by
  obtain ⟨htold, hresult⟩ := h.tell hnested update?
  have herror : (e'.tell nested update?).1.propagationError =
      (e.tell nested update?).1.propagationError := by
    obtain ⟨-, cache, -, heq⟩ := htold
    rw [heq]
    rfl
  have hreply (result : Except PropagationFailure PropagationReport) :
      ((e.tell nested update?).2.bind fun _ =>
          result.mapError (e.tell nested update?).1.propagationError) =
        (e'.tell nested update?).2.bind fun _ =>
          result.mapError (e'.tell nested update?).1.propagationError := by
    rw [herror, hresult]
  unfold Engine.conclude
  rcases result with (fault | infeasible | misuse) | report
  · exact ⟨htold, hreply _⟩
  · exact ⟨htold, hreply _⟩
  · exact ⟨h, rfl⟩
  · exact ⟨htold, hreply _⟩

theorem setConstantWith (hnested : SetsAlike nested) (h : e.Matches e') (id : ConstantId)
    (input : ConstantInput) :
    Agree (Engine.setConstantWith nested e id input)
      (Engine.setConstantWith nested e' id input) := by
  obtain ⟨hread, hformula⟩ := h.readInput input
  rw [setConstantWith_eq, setConstantWith_eq, ← hformula]
  generalize (e.readInput input).1 = read at hread ⊢
  generalize (e'.readInput input).1 = read' at hread ⊢
  cases (e.readInput input).2 with
  | error error => exact ⟨hread, rfl⟩
  | ok formula =>
    obtain ⟨hcache, cache, hcache', rfl⟩ := hread
    let after : Engine σ :=
      { read with propagator := (read.propagator.setConstant id formula).propagator }
    have hset : after.Matches { after with cache } := ⟨hcache, cache, hcache', rfl⟩
    exact hset.conclude hnested _ _

end Nested

theorem setConstant (h : e.Matches e') (id : ConstantId) (input : ConstantInput) :
    Agree (e.setConstant id input) (e'.setConstant id input) := by
  obtain ⟨nested, hnested, heq⟩ := setConstantWithin_induction
    (P := SetsAlike (σ := σ)) (fun e e' h _ _ => ⟨h, rfl⟩)
    (fun nested hnested e e' h id input => by
      obtain ⟨hafter, hresult⟩ := h.setConstantWith hnested id input
      exact ⟨hafter, congrArg (Except.map fun _ => ()) hresult⟩)
    e.pendingSetters
  have hdepth : e'.pendingSetters = e.pendingSetters := by
    obtain ⟨-, cache, -, rfl⟩ := h
    rfl
  unfold Engine.setConstant
  rw [hdepth, heq]
  exact h.setConstantWith hnested id input

/-- A constraint is added to both or to neither. -/
theorem addConstraint (h : e.Matches e') (definition : Constraint Float) (strength : Option σ) :
    (∃ error, e.addConstraint definition strength = .error error ∧
        e'.addConstraint definition strength = .error error) ∨
      ∃ handle added added', e.addConstraint definition strength = .ok (handle, added) ∧
        e'.addConstraint definition strength = .ok (handle, added') ∧ added.Matches added' := by
  obtain ⟨hcache, cache, hcache', rfl⟩ := h
  unfold Engine.addConstraint
  dsimp only
  rcases e.propagator.add definition (strength.getD e.defaultStrength) with
    (fault | infeasible) | ⟨handle, propagator⟩
  · exact Or.inl ⟨_, rfl, rfl⟩
  · exact Or.inl ⟨_, rfl, rfl⟩
  · exact Or.inr ⟨handle, _, _, rfl, rfl, hcache, cache, hcache', rfl⟩

theorem addSource (h : e.Matches e') (text : String) (strength : Option σ) :
    Agree (e.addSource text strength) (e'.addSource text strength) := by
  obtain ⟨hread, hconstraint⟩ := h.readConstraint text
  unfold Engine.addSource
  generalize e.readConstraint text = r at hread hconstraint ⊢
  generalize e'.readConstraint text = r' at hread hconstraint ⊢
  obtain ⟨read, constraint⟩ := r
  obtain ⟨read', constraint'⟩ := r'
  dsimp only at hread hconstraint
  subst hconstraint
  cases constraint with
  | error error => exact ⟨hread, rfl⟩
  | ok definition =>
    dsimp only
    rcases hread.addConstraint definition strength with
      ⟨error, heq, heq'⟩ | ⟨handle, added, added', heq, heq', hadded⟩ <;> rw [heq, heq']
    · exact ⟨hread, rfl⟩
    · exact ⟨hadded, rfl⟩

/-- Engines that match reply alike, and they go on matching. -/
theorem serve (h : e.Matches e') (request : EngineRequest σ) :
    (e.serve request).Matches (e'.serve request) ∧ e.reply request = e'.reply request := by
  cases request with
  | requireValue id =>
    refine ⟨h, ?_⟩
    obtain ⟨-, cache, -, rfl⟩ := h
    rfl
  | call call =>
    cases call with
    | declare label =>
      obtain ⟨hcache, cache, hcache', rfl⟩ := h
      exact ⟨⟨hcache, cache, hcache', rfl⟩, rfl⟩
    | setConstant id input =>
      obtain ⟨hafter, hresult⟩ := h.setConstant id input
      exact ⟨hafter, congrArg (Except.map EngineReply.report) hresult⟩
    | addConstraint definition strength =>
      simp only [Engine.serve, perform, reply]
      rcases h.addConstraint definition strength with
        ⟨error, heq, heq'⟩ | ⟨handle, added, added', heq, heq', hadded⟩ <;> rw [heq, heq']
      · exact ⟨h, rfl⟩
      · exact ⟨hadded, rfl⟩
    | addSource text strength =>
      obtain ⟨hafter, hresult⟩ := h.addSource text strength
      exact ⟨hafter, congrArg (Except.map EngineReply.added) hresult⟩
    | removeConstraint handle =>
      obtain ⟨hcache, cache, hcache', rfl⟩ := h
      simp only [Engine.serve, perform, reply, removeConstraint]
      cases e.propagator.remove handle with
      | error misuse => exact ⟨⟨hcache, cache, hcache', rfl⟩, rfl⟩
      | ok result => exact ⟨⟨hcache, cache, hcache', rfl⟩, rfl⟩
    | listen listener reaction =>
      obtain ⟨hcache, cache, hcache', rfl⟩ := h
      exact ⟨⟨hcache, cache, hcache', rfl⟩, rfl⟩
    | unlisten listener =>
      obtain ⟨hcache, cache, hcache', rfl⟩ := h
      exact ⟨⟨hcache, cache, hcache', rfl⟩, rfl⟩

/-- Whatever is asked of them, engines that match can not be told apart. -/
theorem serveAll (h : e.Matches e') (steps : List (RequestStep σ)) :
    (e.serveAll steps).Matches (e'.serveAll steps) ∧ e.replies steps = e'.replies steps := by
  induction steps generalizing e e' with
  | nil => exact ⟨h, rfl⟩
  | cons s steps ih =>
    obtain ⟨hserved, hreply⟩ := (h.facing s.answers).serve s.request
    obtain ⟨hmatches, hreplies⟩ := ih hserved
    refine ⟨hmatches, ?_⟩
    rw [replies, replies, hreply, hreplies]

end Matches

theorem matches_self (h : e.cache.Faithful) : e.Matches e := ⟨h, e.cache, h, rfl⟩

/-- In a run nothing else enters the cache than what parsing gives. -/
theorem faithful_run (h : e.cache.Faithful) (steps : List (EngineStep σ)) :
    (e.run steps).cache.Faithful := by
  induction steps generalizing e with
  | nil => exact h
  | cons s steps ih =>
    exact ih (((matches_self h).facing s.answers).serve (.call s.call)).1.1

end Engine

end NamedConstants
