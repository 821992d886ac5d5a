import NamedConstants.Proofs.Constants.Replay
import NamedConstants.Proofs.Engine.Runs
import NamedConstants.Proofs.Propagation.Overdue

/-!
What a listener is told. While no listener fails, sets a constant or sends another one away,
a call tells every subscriber once if it changes a value, and tells nobody otherwise; what
the solver has to say about it does not matter. So a listener that was there from the start
has been told everything, and it finds the present values by carrying out the changes in turn.
-/
namespace NamedConstants

namespace Reaction

/-- The reaction neither fails nor sets a constant, and it leaves the listener subscribed. -/
def IsQuiet (listener : String) : Reaction → Prop
  | observe => True
  | fail _ => False
  | unsubscribe other => other ≠ listener
  | subscribe _ => True
  | setOnce _ _ => False

end Reaction

namespace EngineCall

def IsQuiet {σ : Type} (listener : String) : EngineCall σ → Prop
  | listen _ reaction => reaction.IsQuiet listener
  | unlisten other => other ≠ listener
  | _ => True

end EngineCall

namespace ChangeEvent

def valueChanges (event : ChangeEvent) : List (ConstantChange Float) :=
  event.changes.map LabelledChange.change

end ChangeEvent

theorem ConstantTable.labelOf_congr {α : Type} {t t' : ConstantTable α}
    (h : t'.labels = t.labels) : t'.labelOf = t.labelOf := by
  obtain ⟨g, labels⟩ := t
  obtain ⟨g', labels'⟩ := t'
  cases h
  rfl

namespace Propagator

variable {σ : Type} {p : Propagator σ}

theorem labelOf_setConstant (p : Propagator σ) (id : ConstantId) (input : Formula Float) :
    (p.setConstant id input).propagator.table.labelOf = p.table.labelOf := by
  rw [table_setConstant]
  simp only [ConstantTable.perform]
  cases hset : p.table.set id input with
  | error fault => rfl
  | ok result => exact ConstantTable.labelOf_congr (ConstantTable.labels_of_set hset)

end Propagator

namespace Engine

variable {σ : Type} {e : Engine σ} {listener : String}

def heard (e : Engine σ) (listener : String) : List ChangeEvent :=
  (e.deliveries.filter fun delivery => delivery.listener = listener).map Delivery.event

/-- What a call asks of the table, if no listener joins in. -/
def tableCalls (e : Engine σ) : EngineCall σ → List (TableCall Float)
  | .declare label => [.declare label]
  | .setConstant id input =>
    match (e.readInput input).2 with
    | .error _ => []
    | .ok formula => [.set id formula]
  | _ => []

def update? (e : Engine σ) : EngineCall σ → Option (ConstantUpdate Float)
  | .setConstant id input =>
    (e.readInput input).2.toOption.bind fun formula =>
      (e.table.set id formula).toOption.map Prod.snd
  | _ => none

/-- What there is to tell about an update: its changes with their labels, if it has any. -/
def announcement? (e : Engine σ) (update : ConstantUpdate Float) : Option ChangeEvent :=
  if update.changed.isEmpty then none
  else
    some
      { source := update.id
        changes := update.changed.map fun change =>
          { label := e.table.labelOf change.id, change } }

def announced? (e : Engine σ) (call : EngineCall σ) : Option ChangeEvent :=
  (e.update? call).bind e.announcement?

/-- An announcement says all of the changes and nothing else. -/
theorem flatMap_announcement? (e : Engine σ) (update : ConstantUpdate Float) :
    (e.announcement? update).toList.flatMap ChangeEvent.valueChanges = update.changed := by
  unfold announcement?
  split
  · rename_i hempty
    exact (List.isEmpty_iff.1 hempty).symm
  · simp [ChangeEvent.valueChanges, Function.comp_def]

def announcedIn (e : Engine σ) : List (EngineStep σ) → List ChangeEvent
  | [] => []
  | s :: steps => ((e.facing s.answers).announced? s.call).toList ++ (e.step s).announcedIn steps

/-- The listener is subscribed, and no other listener interferes when it is told. -/
structure Undisturbed (e : Engine σ) (listener : String) : Prop where
  subscribed : listener ∈ e.subscribed
  quiet : ∀ name reaction, e.reactions.get? name = some reaction → reaction.IsQuiet listener

namespace Undisturbed

theorem isQuiet_getD (h : e.Undisturbed listener) (name : String) :
    (e.reactions.getD name .observe).IsQuiet listener := by
  unfold InsertionMap.getD
  cases hname : e.reactions.get? name with
  | none => trivial
  | some reaction => exact h.quiet name reaction hname

theorem listen (h : e.Undisturbed listener) (name : String) {reaction : Reaction}
    (hreaction : reaction.IsQuiet listener) : (e.listen name reaction).Undisturbed listener where
  subscribed := InsertionSet.mem_insert.2 (Or.inr h.subscribed)
  quiet other reaction' hother := by
    simp only [Engine.listen] at hother
    split at hother
    · exact h.quiet other reaction' hother
    · rw [InsertionMap.get?_insert] at hother
      split at hother
      · cases hother
        exact hreaction
      · exact h.quiet other reaction' hother

theorem unlisten (h : e.Undisturbed listener) {other : String} (hother : other ≠ listener) :
    (e.unlisten other).Undisturbed listener where
  subscribed := InsertionSet.mem_erase.2 ⟨hother.symm, h.subscribed⟩
  quiet := h.quiet

/-- Undisturbed delivery reaches every listener and returns. -/
theorem deliver (h : e.Undisturbed listener)
    (nested : Engine σ → ConstantId → ConstantInput → Engine σ × Except EngineError Unit)
    (event : ChangeEvent) (names : List String) :
    ∃ after, Engine.deliver nested event e names = (after, .ok ()) ∧
      after.propagator = e.propagator ∧
      after.deliveries = e.deliveries ++ names.map ({ listener := ·, event }) ∧
      after.Undisturbed listener := by
  induction names generalizing e with
  | nil => exact ⟨e, rfl, rfl, (List.append_nil _).symm, h⟩
  | cons name rest ih =>
    have hquiet := h.isQuiet_getD name
    have htold : ({ e with deliveries := e.deliveries ++ [{ listener := name, event }] } :
        Engine σ).Undisturbed listener := ⟨h.subscribed, h.quiet⟩
    have hcons (l : List Delivery) :
        (l ++ [{ listener := name, event }]) ++ rest.map ({ listener := ·, event }) =
          l ++ (name :: rest).map ({ listener := ·, event }) := by
      rw [List.append_assoc, List.map_cons]
      rfl
    unfold Engine.deliver
    cases hreaction : e.reactions.getD name .observe with
    | observe =>
      obtain ⟨after, heq, hpropagator, hdeliveries, hafter⟩ := ih htold
      exact ⟨after, heq, hpropagator, hdeliveries.trans (hcons _), hafter⟩
    | fail message =>
      rw [hreaction] at hquiet
      exact hquiet.elim
    | unsubscribe other =>
      rw [hreaction] at hquiet
      obtain ⟨after, heq, hpropagator, hdeliveries, hafter⟩ := ih (htold.unlisten hquiet)
      exact ⟨after, heq, hpropagator, hdeliveries.trans (hcons _), hafter⟩
    | subscribe other =>
      have hobserve : Reaction.observe.IsQuiet listener := trivial
      obtain ⟨after, heq, hpropagator, hdeliveries, hafter⟩ := ih (htold.listen other hobserve)
      exact ⟨after, heq, hpropagator, hdeliveries.trans (hcons _), hafter⟩
    | setOnce id input =>
      rw [hreaction] at hquiet
      exact hquiet.elim

end Undisturbed

/-- A listener that is told once has heard the event once. -/
theorem heard_of_deliveries {after : Engine σ} {event : ChangeEvent} {names : List String}
    (hnodup : names.Nodup) (hmem : listener ∈ names)
    (h : after.deliveries = e.deliveries ++ names.map ({ listener := ·, event })) :
    after.heard listener = e.heard listener ++ [event] := by
  have hfilter : (names.map fun name => ({ listener := name, event } : Delivery)).filter
      (fun delivery => delivery.listener = listener) = [{ listener, event }] := by
    rw [List.filter_map]
    have hnames : names.filter (fun name => name = listener) = [listener] := by
      rw [List.filter_eq, List.count_eq_one_of_mem hnodup hmem]
      rfl
    exact congrArg (List.map _) hnames
  unfold heard
  rw [h, List.filter_append, hfilter, List.map_append]
  rfl

/-- While somebody listens, there is an event for everything that there is to tell. -/
theorem Undisturbed.eventOf?_eq (h : e.Undisturbed listener) : e.eventOf? = e.announcement? := by
  have hmem : listener ∈ e.subscribed.toList := h.subscribed
  have hsome : e.subscribed.isEmpty = false := by
    rw [InsertionSet.isEmpty, List.isEmpty_eq_false_iff]
    exact List.ne_nil_of_mem hmem
  funext update
  rw [eventOf?, hsome, Bool.or_false]
  rfl

/-- Setting a constant tells an undisturbed listener what there is to tell, and it asks the
table for nothing else. -/
theorem Undisturbed.setConstant (h : e.Undisturbed listener) (hp : e.propagator.InStep)
    (id : ConstantId) (input : ConstantInput) :
    (e.setConstant id input).1.Undisturbed listener ∧
      (e.setConstant id input).1.heard listener =
        e.heard listener ++ (e.announced? (.setConstant id input)).toList ∧
      (e.setConstant id input).1.table = e.table.after (e.tableCalls (.setConstant id input)) := by
  obtain ⟨nested, -, heq⟩ := e.exists_setConstantWith_eq id input
  obtain ⟨cache, hread⟩ := e.readInput_frame input
  rw [heq]
  clear heq
  rcases setConstantWith_cases nested e id input with
    ⟨error, herror, heq⟩ | ⟨formula, hformula, after, hafter, hcase⟩
  · rw [heq, hread]
    simp only [announced?, update?, tableCalls, herror]
    exact ⟨⟨h.subscribed, h.quiet⟩, (List.append_nil _).symm, rfl⟩
  · rw [hread] at hafter hcase
    have hundisturbed : after.Undisturbed listener := by
      rw [hafter]
      exact ⟨h.subscribed, h.quiet⟩
    have hheard : after.heard listener = e.heard listener := by
      rw [hafter]
      rfl
    have htable : after.table = e.table.after (e.tableCalls (.setConstant id input)) := by
      simp only [tableCalls, hformula]
      rw [hafter]
      exact Propagator.table_setConstant e.propagator id formula
    have hannounced : e.announced? (.setConstant id input) =
        (e.propagator.setConstant id formula).update?.bind after.eventOf? := by
      have hlabels : after.table.labelOf = e.table.labelOf := by
        rw [hafter]
        exact Propagator.labelOf_setConstant e.propagator id formula
      have hannouncement : after.announcement? = e.announcement? := by
        unfold announcement?
        rw [hlabels]
      rw [hundisturbed.eventOf?_eq, hannouncement, Propagator.update?_setConstant]
      simp only [announced?, update?, hformula]
      rfl
    rcases hcase with ⟨misuse, hmisuse, -⟩ | heq
    · exact absurd hmisuse (hp.setConstant_ne_misuse id formula misuse)
    · rw [heq, hannounced, ← hheard, ← htable]
      unfold tell
      cases (e.propagator.setConstant id formula).update?.bind after.eventOf? with
      | none => exact ⟨hundisturbed, (List.append_nil _).symm, rfl⟩
      | some event =>
        obtain ⟨told, hdeliver, hpropagator, hdeliveries, htold⟩ :=
          hundisturbed.deliver nested event after.subscribed.toList
        dsimp only
        rw [hdeliver]
        exact ⟨htold,
          heard_of_deliveries after.subscribed.nodup hundisturbed.subscribed hdeliveries,
          congrArg Propagator.table hpropagator⟩

/-- Adding and removing constraints changes neither the listeners nor the table. -/
theorem perform_frame (e : Engine σ) {call : EngineCall σ}
    (hcall : (∃ definition strength, call = .addConstraint definition strength) ∨
      (∃ text strength, call = .addSource text strength) ∨
      ∃ handle, call = .removeConstraint handle) :
    ∃ propagator cache, e.perform call = { e with propagator, cache } ∧
      propagator.table = e.table := by
  rcases hcall with ⟨definition, strength, rfl⟩ | ⟨text, strength, rfl⟩ | ⟨handle, rfl⟩
  · simp only [perform]
    cases hadd : e.addConstraint definition strength with
    | error error => exact ⟨e.propagator, e.cache, rfl, rfl⟩
    | ok result =>
      obtain ⟨propagator, heq, hpropagator⟩ := addConstraint_frame hadd
      exact ⟨propagator, e.cache, heq, (Propagator.add_eq_ok hpropagator).2.frame.1⟩
  · simp only [perform]
    rcases e.addSource_cases text strength with
      ⟨error, cache, heq⟩ | ⟨definition, handle, cache, propagator, -, hadd, heq⟩
    · rw [heq]
      exact ⟨e.propagator, cache, rfl, rfl⟩
    · rw [heq]
      exact ⟨propagator, cache, rfl, (Propagator.add_eq_ok hadd).2.frame.1⟩
  · simp only [perform, removeConstraint]
    cases hremove : e.propagator.remove handle with
    | error misuse => exact ⟨e.propagator, e.cache, rfl, rfl⟩
    | ok result =>
      exact ⟨result.2, e.cache, rfl, (Propagator.remove_eq_ok hremove).frame.1⟩

/-- What holds at every point of a run with quiet listeners. -/
structure Follows (e : Engine σ) (listener : String) : Prop where
  undisturbed : e.Undisturbed listener
  inStep : e.propagator.InStep
  coherent : e.table.Coherent

namespace Follows

theorem facing (h : e.Follows listener) (answers : SolverAnswers σ) :
    (e.facing answers).Follows listener :=
  ⟨⟨h.undisturbed.subscribed, h.undisturbed.quiet⟩, h.inStep.facing answers, h.coherent⟩

/-- A quiet call tells what there is to tell, and it asks the table for nothing else. -/
theorem undisturbed_perform (h : e.Follows listener) {call : EngineCall σ}
    (hcall : call.IsQuiet listener) :
    (e.perform call).Undisturbed listener ∧
      (e.perform call).heard listener = e.heard listener ++ (e.announced? call).toList ∧
      (e.perform call).table = e.table.after (e.tableCalls call) := by
  have hframe {e' : Engine σ} (heq : ∃ propagator cache, e' = { e with propagator, cache } ∧
      propagator.table = e.table) : e'.Undisturbed listener ∧
      e'.heard listener = e.heard listener ++ [] ∧ e'.table = e.table := by
    obtain ⟨propagator, cache, rfl, htable⟩ := heq
    exact ⟨⟨h.undisturbed.subscribed, h.undisturbed.quiet⟩, (List.append_nil _).symm, htable⟩
  cases call with
  | declare label =>
    exact ⟨⟨h.undisturbed.subscribed, h.undisturbed.quiet⟩, (List.append_nil _).symm, rfl⟩
  | setConstant id input => exact h.undisturbed.setConstant h.inStep id input
  | addConstraint definition strength =>
    exact hframe (e.perform_frame (Or.inl ⟨definition, strength, rfl⟩))
  | addSource text strength =>
    exact hframe (e.perform_frame (Or.inr (Or.inl ⟨text, strength, rfl⟩)))
  | removeConstraint handle =>
    exact hframe (e.perform_frame (Or.inr (Or.inr ⟨handle, rfl⟩)))
  | listen name reaction =>
    exact ⟨h.undisturbed.listen name hcall, (List.append_nil _).symm, rfl⟩
  | unlisten other => exact ⟨h.undisturbed.unlisten hcall, (List.append_nil _).symm, rfl⟩

theorem perform (h : e.Follows listener) {call : EngineCall σ} (hcall : call.IsQuiet listener) :
    (e.perform call).Follows listener where
  undisturbed := (h.undisturbed_perform hcall).1
  inStep := perform_induction (fun _ _ _ hp => hp.perform _) (fun _ call _ hp => hp.perform call)
    h.inStep call
  coherent := by
    rw [(h.undisturbed_perform hcall).2.2]
    exact ConstantTable.coherent_after h.coherent (e.tableCalls call)

theorem step (h : e.Follows listener) {s : EngineStep σ} (hs : s.call.IsQuiet listener) :
    (e.step s).Follows listener ∧
      (e.step s).table = e.table.after ((e.facing s.answers).tableCalls s.call) :=
  ⟨(h.facing s.answers).perform hs, ((h.facing s.answers).undisturbed_perform hs).2.2⟩

/-- What a setting announces is what the table makes of it. -/
theorem step_set (h : e.Follows listener) (id : ConstantId) (formula : Formula Float)
    (answers : SolverAnswers σ) :
    let s : EngineStep σ := { call := .setConstant id (.formula formula), answers }
    (e.step s).Follows listener ∧ (e.step s).table = e.table.perform (.set id formula) ∧
      (e.facing s.answers).update? s.call = (e.table.set id formula).toOption.map Prod.snd := by
  intro s
  obtain ⟨hfollows, htable⟩ := h.step (s := s) trivial
  exact ⟨hfollows, htable, rfl⟩

/-- A setting that the table accepts is announced, whatever the solver answers. -/
theorem step_of_set (h : e.Follows listener) {id : ConstantId} {formula : Formula Float}
    {table : ConstantTable Float} {update : ConstantUpdate Float}
    (hset : e.table.set id formula = .ok (table, update)) (answers : SolverAnswers σ) :
    let s : EngineStep σ := { call := .setConstant id (.formula formula), answers }
    (e.step s).Follows listener ∧ (e.step s).table = table ∧
      (e.facing s.answers).announced? s.call = e.announcement? update := by
  intro s
  obtain ⟨hfollows, htable, hupdate⟩ := h.step_set id formula answers
  rw [ConstantTable.perform, hset] at htable
  rw [announced?, hupdate, hset]
  exact ⟨hfollows, htable, rfl⟩

/-- A setting that the table rejects is not announced. -/
theorem step_of_set_error (h : e.Follows listener) {id : ConstantId} {formula : Formula Float}
    {fault : ResolutionFault Float} (hset : e.table.set id formula = .error fault)
    (answers : SolverAnswers σ) :
    let s : EngineStep σ := { call := .setConstant id (.formula formula), answers }
    (e.step s).table = e.table ∧ (e.facing s.answers).announced? s.call = none := by
  intro s
  obtain ⟨-, htable, hupdate⟩ := h.step_set id formula answers
  rw [ConstantTable.perform, hset] at htable
  rw [announced?, hupdate, hset]
  exact ⟨htable, rfl⟩

end Follows

/-- An update comes from the table, which has accepted a definition. -/
theorem exists_set_of_update? {call : EngineCall σ} {update : ConstantUpdate Float}
    (h : e.update? call = some update) :
    ∃ id formula, e.table.set id formula = .ok (e.table.after (e.tableCalls call), update) := by
  cases call with
  | setConstant id input =>
    simp only [update?] at h
    simp only [tableCalls]
    cases hread : (e.readInput input).2 with
    | error error =>
      rw [hread] at h
      cases h
    | ok formula =>
      rw [hread] at h
      simp only [ConstantTable.after, List.foldl_cons, List.foldl_nil, ConstantTable.perform]
      change (e.table.set id formula).toOption.map Prod.snd = some update at h
      cases hset : e.table.set id formula with
      | error fault =>
        rw [hset] at h
        cases h
      | ok result =>
        rw [hset] at h
        cases h
        exact ⟨id, formula, hset⟩
  | _ => cases h

/-- Without an update all constants keep their values. -/
theorem valueOf?_of_update?_eq_none {call : EngineCall σ} (h : e.update? call = none) :
    (e.table.after (e.tableCalls call)).valueOf? = e.table.valueOf? := by
  cases call with
  | setConstant id input =>
    simp only [update?] at h
    simp only [tableCalls]
    cases hread : (e.readInput input).2 with
    | error error => rfl
    | ok formula =>
      rw [hread] at h
      simp only [ConstantTable.after, List.foldl_cons, List.foldl_nil, ConstantTable.perform]
      change (e.table.set id formula).toOption.map Prod.snd = none at h
      cases hset : e.table.set id formula with
      | error fault => rfl
      | ok result =>
        rw [hset] at h
        cases h
  | _ => rfl

/-- The changes that are announced lead from the values before a call to those after it. -/
theorem replay_announced? (ht : e.table.Coherent) (call : EngineCall σ) :
    ConstantChange.replay e.table.valueOf?
        ((e.announced? call).toList.flatMap ChangeEvent.valueChanges) =
      some (e.table.after (e.tableCalls call)).valueOf? := by
  unfold announced?
  cases hupdate : e.update? call with
  | none => exact congrArg some (valueOf?_of_update?_eq_none hupdate).symm
  | some update =>
    obtain ⟨id, formula, hset⟩ := exists_set_of_update? hupdate
    rw [Option.bind_some, flatMap_announcement?]
    exact ConstantTable.replay_of_set ht hset

/-- There is something to tell about a call just when it gives some constant another value. -/
theorem isSome_announced?_iff (ht : e.table.Coherent) (call : EngineCall σ) :
    (e.announced? call).isSome = true ↔
      ∃ c, (e.table.after (e.tableCalls call)).valueOf? c ≠ e.table.valueOf? c := by
  unfold announced?
  cases hupdate : e.update? call with
  | none =>
    rw [valueOf?_of_update?_eq_none hupdate]
    simp
  | some update =>
    obtain ⟨id, formula, hset⟩ := exists_set_of_update? hupdate
    rw [Option.bind_some, announcement?]
    constructor
    · intro hsome
      cases hchanged : update.changed with
      | nil => simp [hchanged] at hsome
      | cons change changes =>
        refine ⟨change.id, ConstantTable.valueOf?_ne_of_change ht hset ?_⟩
        rw [hchanged]
        exact List.mem_cons_self
    · rintro ⟨c, hne⟩
      obtain ⟨change, hchange, -⟩ := ConstantTable.exists_change_of_valueOf?_ne hset hne
      have hnonempty : update.changed.isEmpty = false :=
        List.isEmpty_eq_false_iff.2 (List.ne_nil_of_mem hchange)
      simp [hnonempty]

/-- Over a run with quiet listeners, a listener hears what there is to tell and carries it out. -/
theorem Follows.run (h : e.Follows listener) {steps : List (EngineStep σ)}
    (hsteps : ∀ s ∈ steps, s.call.IsQuiet listener) :
    (e.run steps).Follows listener ∧
      (e.run steps).heard listener = e.heard listener ++ e.announcedIn steps ∧
      ConstantChange.replay e.table.valueOf?
          ((e.announcedIn steps).flatMap ChangeEvent.valueChanges) =
        some (e.run steps).table.valueOf? := by
  induction steps generalizing e with
  | nil => exact ⟨h, (List.append_nil _).symm, rfl⟩
  | cons s steps ih =>
    rw [List.forall_mem_cons] at hsteps
    have hfaced := h.facing s.answers
    obtain ⟨-, hheard, htable⟩ := hfaced.undisturbed_perform hsteps.1
    have hreplay := replay_announced? hfaced.coherent s.call
    obtain ⟨hrun, hheardRun, hreplayRun⟩ := ih (hfaced.perform hsteps.1) hsteps.2
    refine ⟨hrun, ?_, ?_⟩
    · rw [announcedIn, ← List.append_assoc]
      exact hheardRun.trans (congrArg (· ++ _) hheard)
    · rw [announcedIn, List.flatMap_append, ConstantChange.replay_append]
      rw [← htable] at hreplay
      exact (congrArg (Option.bind · _) hreplay).trans hreplayRun

theorem follows_start {request : ConfigRequest} {strength : σ}
    (h : create request strength {} = .ok e) {reaction : Reaction}
    (hreaction : reaction.IsQuiet listener) : (e.listen listener reaction).Follows listener := by
  obtain ⟨config, rfl⟩ := create_eq_ok h
  refine ⟨⟨InsertionSet.mem_insert.2 (Or.inl rfl), ?_⟩, Propagator.inStep_start _ _ _ _,
    ConstantTable.coherent_empty⟩
  intro name reaction' hname
  change ((∅ : InsertionMap String Reaction).insert listener reaction).get? name =
    some reaction' at hname
  rw [InsertionMap.get?_insert] at hname
  split at hname
  · cases hname
    exact hreaction
  · cases hname

/-- A listener that was there from the start and whose run is quiet hears one event for each
call that gives some constant another value, whatever else comes of that call, and none for
any other. Carrying out the changes it has heard of, each of which starts from what is known,
leads from no values at all to the present ones. -/
theorem listener_follows_values {request : ConfigRequest} {strength : σ} {first : Engine σ}
    (hcreate : create request strength {} = .ok first) {listener : String} {reaction : Reaction}
    (hreaction : reaction.IsQuiet listener) {steps : List (EngineStep σ)}
    (hsteps : ∀ s ∈ steps, s.call.IsQuiet listener) :
    let start := first.listen listener reaction
    let e := start.run steps
    e.heard listener = start.announcedIn steps ∧
      ConstantChange.replay (fun _ => none)
          ((e.heard listener).flatMap ChangeEvent.valueChanges) = some e.table.valueOf? ∧
      ∀ s : EngineStep σ, s.call.IsQuiet listener →
        (((e.facing s.answers).announced? s.call).isSome = true ↔
          ∃ c, (e.step s).table.valueOf? c ≠ e.table.valueOf? c) := by
  intro start e
  have hstart : start.Follows listener := follows_start hcreate hreaction
  obtain ⟨hrun, hheard, hreplay⟩ := hstart.run hsteps
  have hheard' : e.heard listener = start.announcedIn steps := by
    obtain ⟨config, rfl⟩ := create_eq_ok hcreate
    exact hheard
  refine ⟨hheard', ?_, fun s hs => ?_⟩
  · rw [hheard']
    obtain ⟨config, rfl⟩ := create_eq_ok hcreate
    exact hreplay
  · have hfaced := hrun.facing s.answers
    rw [isSome_announced?_iff hfaced.coherent, ← (hfaced.undisturbed_perform hs).2.2]
    rfl

/-- The constant `c` is set to 2, then to 3 against the will of the solver, then to a quotient
by zero, which is rejected; a second listener comes and goes. The first two are events. -/
theorem listener_follows_values_refused :
    let answers : SolverAnswers Nat := { refusal := fun _ _ => some "full" }
    let steps : List (EngineStep Nat) :=
      [{ call := .declare "c" }, { call := .setConstant 1 (.formula (.literal 2)) },
        { call := .addConstraint ⟨.var "x", .atLeast, .constant 1⟩ none },
        { call := .listen "late" (.unsubscribe "late") },
        { call := .setConstant 1 (.formula (.literal 3)), answers },
        { call := .setConstant 1 (.formula (.binary .div (.literal 1) (.literal 0))) }]
    let first : Engine Nat :=
      { config := {}, defaultStrength := 1, propagator := { log := { devMode := true } } }
    let start := first.listen "panel" .observe
    let e := start.run steps
    let event (previous : Option Float) (value : Float) : ChangeEvent :=
      { source := 1
        changes := [{ label := "c", change := { id := 1, previous, value := some value } }] }
    create {} 1 {} = .ok first ∧ (∀ s ∈ steps, s.call.IsQuiet "panel") ∧
      e.heard "panel" = [event none 2, event (some 2) 3] ∧
      e.table.valueOf? 1 = some 3 ∧
      ConstantChange.replay (fun _ => none)
          ((e.heard "panel").flatMap ChangeEvent.valueChanges) = some e.table.valueOf? := by
  intro answers steps first start e event
  have hcreate : create {} (1 : Nat) {} = .ok first := rfl
  have hsteps : ∀ s ∈ steps, s.call.IsQuiet "panel" := by
    simp [steps, EngineCall.IsQuiet, Reaction.IsQuiet]
  have hreaction : Reaction.observe.IsQuiet "panel" := trivial
  obtain ⟨hheard, hreplay, -⟩ := listener_follows_values hcreate hreaction hsteps
  have hstart : start.Follows "panel" := follows_start hcreate hreaction
  obtain ⟨hdeclared, htable⟩ := hstart.step (s := { call := .declare "c" }) trivial
  have hunset : (start.step { call := .declare "c" }).table = { labels := ["c"] } := htable
  obtain ⟨htwo, htable, hfirst⟩ :=
    hdeclared.step_of_set (hunset ▸ Propagator.set_unset (v := 2) (by decide)) {}
  obtain ⟨hadded, hkept⟩ := htwo.step
    (s := { call := .addConstraint ⟨.var "x", .atLeast, .constant 1⟩ none }) trivial
  obtain ⟨hlistening, hkept'⟩ := hadded.step
    (s := { call := .listen "late" (.unsubscribe "late") })
    (by simp [EngineCall.IsQuiet, Reaction.IsQuiet])
  have hnumbered := (hkept'.trans hkept).trans htable
  have hset := Propagator.set_numbered (v := 2) (w := 3) (by decide)
  rw [if_neg (by decide)] at hset
  obtain ⟨hthree, htable', hsecond⟩ := hlistening.step_of_set (hnumbered ▸ hset) answers
  have hquotient : (Propagator.numbered 3).set 1 (.binary .div (.literal 1) (.literal 0)) =
      .error (.divisionByZero 1) := rfl
  obtain ⟨hfinal, hlast⟩ := hthree.step_of_set_error (htable' ▸ hquotient) {}
  rw [announcement?, hunset] at hfirst
  rw [announcement?, hnumbered] at hsecond
  have hannounced : start.announcedIn steps = [event none 2, event (some 2) 3] := by
    dsimp only at hfirst hsecond hlast
    simp only [steps, announcedIn, hfirst, hsecond, hlast]
    rfl
  have hvalue : e.table.valueOf? 1 = some 3 := by
    have htable : e.table = Propagator.numbered 3 := hfinal.trans htable'
    rw [htable]
    rfl
  exact ⟨hcreate, hsteps, hheard.trans hannounced, hvalue, hreplay⟩

end Engine

end NamedConstants
