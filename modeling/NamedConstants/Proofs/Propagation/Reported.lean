import NamedConstants.Proofs.Constants.Report
import NamedConstants.Proofs.Propagation.Skipped

/-!
What is written of constants that have no value. Their warnings have keys of their own, which
no call on constraints writes or forgets, so the log remembers every dependent and kind of fault
that an accepted definition has warned of. Hence each of them is reported once, by the first
definition that warns of it, in the order of the warnings. The report comes before any
constraint is touched, and nothing that happens to the constraints matters to it.
-/
namespace NamedConstants

namespace Warning

def unresolved? (w : Warning WarningKey) : Option (ConstantId × ErrorCode) :=
  match w.area, w.key with
  | .constants, .dependent id code => some (id, code)
  | _, _ => none

end Warning

def ConstantUpdate.unresolved (update : ConstantUpdate Float) : List (ConstantId × ErrorCode) :=
  update.warnings.map fun warning => (warning.id, warning.fault.code)

namespace Log

theorem exists_lines_warn {κ : Type} [DecidableEq κ] (log : Log κ) (area : WarningArea) (key : κ)
    (detail : String) :
    ∃ written, (log.warn area key detail).lines = log.lines ++ written ∧
      ∀ w ∈ written, w = { area := area, key := key, detail := detail } := by
  rcases log.warn_cases area key detail with hwarn | hwarn <;> rw [hwarn]
  · exact ⟨[], (List.append_nil _).symm, nofun⟩
  · exact ⟨_, rfl, fun w hw => List.mem_singleton.1 hw⟩

variable {log : Log WarningKey} {seen : List (ConstantId × ErrorCode)}

/-- The log has reported what was seen, each pair where it was seen first, and remembers it. -/
structure Reported (log : Log WarningKey) (seen : List (ConstantId × ErrorCode)) : Prop where
  devMode_eq : log.devMode = true
  remembers_iff : ∀ id code,
    log.Remembers .constants (.dependent id code) ↔ (id, code) ∈ seen
  reported_eq : log.lines.filterMap Warning.unresolved? = (InsertionSet.ofList seen).toList
  isSome : ∀ w ∈ log.lines, w.area = .constants → w.unresolved?.isSome

namespace Reported

theorem empty : Reported { devMode := true } [] where
  devMode_eq := rfl
  remembers_iff id code := by simp [Remembers, InsertionSet.not_mem_empty]
  reported_eq := rfl
  isSome w hw := by cases hw

/-- A pair that was seen before is not written again; another one is, at the end. -/
theorem warn_dependent (h : log.Reported seen) (id : ConstantId) (code : ErrorCode)
    (detail : String) :
    (log.warn .constants (.dependent id code) detail).Reported (seen ++ [(id, code)]) := by
  have hremembers : ∀ id' code', (log.warn .constants (.dependent id code) detail).Remembers
      .constants (.dependent id' code') ↔ (id', code') ∈ seen ++ [(id, code)] := by
    intro id' code'
    rw [remembers_warn h.devMode_eq, h.remembers_iff, List.mem_append, List.mem_singleton]
    simp [or_comm]
  by_cases hseen : (id, code) ∈ seen
  · have hknown : (WarningArea.constants, WarningKey.dependent id code) ∈ log.reported :=
      (h.remembers_iff id code).2 hseen
    have hsame : log.warn .constants (.dependent id code) detail = log := by
      simp [warn, hknown]
    rw [hsame] at hremembers ⊢
    refine ⟨h.devMode_eq, hremembers, ?_, h.isSome⟩
    rw [InsertionSet.ofList_append_singleton,
      InsertionSet.insert_of_mem (InsertionSet.mem_ofList.2 hseen), h.reported_eq]
  · have hlines := lines_warn_of_new h.devMode_eq (mt (h.remembers_iff id code).1 hseen) detail
    refine ⟨(log.devMode_warn _ _ _).trans h.devMode_eq, hremembers, ?_, fun w hw harea => ?_⟩
    · rw [hlines, List.filterMap_append, h.reported_eq, InsertionSet.ofList_append_singleton,
        InsertionSet.toList_insert_of_not_mem (mt InsertionSet.mem_ofList.1 hseen)]
      rfl
    · rw [hlines, List.mem_append, List.mem_singleton] at hw
      rcases hw with hw | rfl
      · exact h.isSome w hw harea
      · rfl

theorem warn_constraints (h : log.Reported seen) (key : WarningKey) (detail : String) :
    (log.warn .constraints key detail).Reported seen where
  devMode_eq := (log.devMode_warn _ _ _).trans h.devMode_eq
  remembers_iff id code := by simp [remembers_warn h.devMode_eq, h.remembers_iff]
  reported_eq := by
    obtain ⟨written, hlines, heq⟩ := log.exists_lines_warn .constraints key detail
    have hnone : written.filterMap Warning.unresolved? = [] := by
      rw [List.filterMap_eq_nil_iff]
      intro w hw
      rw [heq w hw]
      rfl
    rw [hlines, List.filterMap_append, hnone, List.append_nil, h.reported_eq]
  isSome w hw harea := by
    obtain ⟨written, hlines, heq⟩ := log.exists_lines_warn .constraints key detail
    rw [hlines, List.mem_append] at hw
    rcases hw with hw | hw
    · exact h.isSome w hw harea
    · rw [heq w hw] at harea
      cases harea

theorem forget_constraints (h : log.Reported seen) (key : WarningKey) :
    (log.forget .constraints key).Reported seen where
  devMode_eq := h.devMode_eq
  remembers_iff id code := by simp [remembers_forget, h.remembers_iff]
  reported_eq := h.reported_eq
  isSome := h.isSome

end Reported

end Log

namespace Propagator

variable {σ : Type} {p : Propagator σ} {seen : List (ConstantId × ErrorCode)}

/-- The update that a setting through the propagator makes, if the table accepts the
definition, whatever the propagator answers. -/
def accepted? (p : Propagator σ) : PropagatorCall σ → Option (ConstantUpdate Float)
  | .setConstant id input => (p.table.set id input).toOption.map Prod.snd
  | _ => none

theorem accepted?_of_set {id : ConstantId} {input : Formula Float} {table : ConstantTable Float}
    {update : ConstantUpdate Float} (hset : p.table.set id input = .ok (table, update)) :
    p.accepted? (.setConstant id input) = some update := by
  rw [accepted?, hset]
  rfl

def acceptedIn (p : Propagator σ) : List (PropagatorStep σ) → List (ConstantUpdate Float)
  | [] => []
  | s :: steps => ((p.facing s.answers).accepted? s.call).toList ++ (p.step s).acceptedIn steps

def reportOf (p : Propagator σ) (changed : ConstantId) (warning : DependentWarning Float) :
    Warning WarningKey where
  area := .constants
  key := .dependent warning.id warning.fault.code
  detail := p.dependentText changed warning

theorem reported_warnDependents (h : p.log.Reported seen) (changed : ConstantId)
    (warnings : List (DependentWarning Float)) :
    (warnings.foldl (warnDependent changed) p).log.Reported
      (seen ++ warnings.map fun warning => (warning.id, warning.fault.code)) := by
  induction warnings generalizing p seen with
  | nil => simpa using h
  | cons warning warnings ih =>
    have hfirst : (warnDependent changed p warning).log.Reported
        (seen ++ [(warning.id, warning.fault.code)]) :=
      h.warn_dependent _ _ _
    simpa using ih hfirst

theorem reported_perform (h : p.log.Reported seen) (call : PropagatorCall σ) :
    (p.perform call).log.Reported
      (seen ++ (p.accepted? call).toList.flatMap ConstantUpdate.unresolved) := by
  cases call with
  | table call =>
    have hsame : (p.perform (.table call)).log = p.log := rfl
    simpa [accepted?, hsame] using h
  | add definition strength =>
    simp only [accepted?, Option.toList_none, List.flatMap_nil, List.append_nil, perform]
    cases hadd : p.add definition strength with
    | error failure => exact h
    | ok result =>
      obtain ⟨entry, -, hlog⟩ := log_of_add hadd
      cases hslot : entry.slot with
      | installed token =>
        rw [hslot] at hlog
        exact hlog ▸ h
      | detached =>
        rw [hslot] at hlog
        exact hlog ▸ h.warn_constraints _ _
  | remove handle =>
    simp only [accepted?, Option.toList_none, List.flatMap_nil, List.append_nil, perform]
    cases hremove : p.remove handle with
    | error misuse => exact h
    | ok result =>
      rcases log_of_remove hremove with ⟨entry, -, -, hlog⟩ | ⟨-, hlog⟩
      · exact hlog ▸ h.forget_constraints _
      · exact hlog ▸ h
  | setConstant id input =>
    rcases p.setConstant_cases id input with ⟨fault, hset, heq, -⟩ | ⟨table, update, hset, -, -⟩
    · have hupdate : p.accepted? (.setConstant id input) = none := by
        rw [accepted?, hset]
        rfl
      rw [hupdate, perform, heq]
      simpa using h
    · have hwarned : ({ p with table } : Propagator σ).log.Reported seen := h
      rw [accepted?_of_set hset, perform, log_of_set hset]
      simpa [ConstantUpdate.unresolved] using
        reported_warnDependents hwarned update.id update.warnings

/-- All through a run the log has reported what the updates so far have warned of. -/
theorem reported_run (h : p.log.Reported seen) (steps : List (PropagatorStep σ)) :
    (p.run steps).log.Reported
      (seen ++ (p.acceptedIn steps).flatMap ConstantUpdate.unresolved) := by
  induction steps generalizing p seen with
  | nil => simpa [acceptedIn, run] using h
  | cons s steps ih =>
    have hfacing : (p.facing s.answers).log.Reported seen := h
    have hstep := ih (reported_perform hfacing s.call)
    rw [List.append_assoc, ← List.flatMap_append] at hstep
    exact hstep

theorem exists_lines_warnDependents (p : Propagator σ) (changed : ConstantId)
    (warnings : List (DependentWarning Float)) :
    ∃ written, (warnings.foldl (warnDependent changed) p).log.lines = p.log.lines ++ written ∧
      ∀ w ∈ written, ∃ warning ∈ warnings, w = p.reportOf changed warning := by
  induction warnings generalizing p with
  | nil => exact ⟨[], (List.append_nil _).symm, nofun⟩
  | cons warning warnings ih =>
    obtain ⟨first, hfirst, heq⟩ := p.log.exists_lines_warn .constants
      (.dependent warning.id warning.fault.code) (p.dependentText changed warning)
    obtain ⟨rest, hrest, hreports⟩ := ih (warnDependent changed p warning)
    refine ⟨first ++ rest, ?_, fun w hw => ?_⟩
    · rw [List.foldl_cons, hrest, warnDependent, hfirst, List.append_assoc]
    · rcases List.mem_append.1 hw with hw | hw
      · exact ⟨warning, List.mem_cons_self, heq w hw⟩
      · obtain ⟨later, hlater, hreport⟩ := hreports w hw
        exact ⟨later, List.mem_cons_of_mem _ hlater, hreport⟩

/-- The lines that a call writes about constants are reports on the update that it makes. -/
theorem exists_lines_perform (p : Propagator σ) (call : PropagatorCall σ) :
    ∃ written, (p.perform call).log.lines = p.log.lines ++ written ∧
      ∀ w ∈ written, w.area = .constants → ∃ update, p.accepted? call = some update ∧
        ∃ warning ∈ update.warnings, w = (p.perform call).reportOf update.id warning := by
  cases call with
  | table call => exact ⟨[], (List.append_nil _).symm, nofun⟩
  | add definition strength =>
    simp only [perform]
    cases hadd : p.add definition strength with
    | error failure => exact ⟨[], (List.append_nil _).symm, nofun⟩
    | ok result =>
      obtain ⟨handle, added⟩ := result
      obtain ⟨entry, -, hlog⟩ := log_of_add hadd
      cases hslot : entry.slot with
      | installed token =>
        rw [hslot] at hlog
        exact ⟨[], by rw [hlog, List.append_nil], nofun⟩
      | detached =>
        obtain ⟨written, hlines, heq⟩ := p.log.exists_lines_warn .constraints (.detached handle)
          (p.detachedText handle definition)
        rw [hslot] at hlog
        refine ⟨written, by rw [hlog]; exact hlines, fun w hw harea => ?_⟩
        rw [heq w hw] at harea
        cases harea
  | remove handle =>
    simp only [perform]
    cases hremove : p.remove handle with
    | error misuse => exact ⟨[], (List.append_nil _).symm, nofun⟩
    | ok result =>
      obtain ⟨removed, forgotten⟩ := result
      exact ⟨[], (writes_remove hremove).lines_eq, nofun⟩
  | setConstant id input =>
    rcases p.setConstant_cases id input with ⟨fault, -, heq, -⟩ | ⟨table, update, hset, -, -⟩
    · refine ⟨[], ?_, nofun⟩
      rw [perform, heq, List.append_nil]
    · obtain ⟨written, hlines, hreports⟩ :=
        ({ p with table } : Propagator σ).exists_lines_warnDependents update.id update.warnings
      refine ⟨written, ?_, fun w hw _ => ⟨update, accepted?_of_set hset, ?_⟩⟩
      · rw [perform, log_of_set hset, hlines]
      · obtain ⟨warning, hwarning, hreport⟩ := hreports w hw
        have htable : (p.setConstant id input).propagator.table = table :=
          (setConstant_of_set hset).2.1.1
        refine ⟨warning, hwarning, ?_⟩
        rw [hreport, reportOf, reportOf, dependentText, dependentText, perform, htable]

/-- An update that a call makes comes from the table, which has accepted a definition. -/
theorem exists_set_of_accepted {call : PropagatorCall σ} {update : ConstantUpdate Float}
    (h : p.accepted? call = some update) :
    ∃ id input, p.table.set id input = .ok ((p.perform call).table, update) := by
  cases call with
  | setConstant id input =>
    rw [accepted?] at h
    cases hset : p.table.set id input with
    | error fault =>
      rw [hset] at h
      cases h
    | ok result =>
      rw [hset] at h
      cases h
      have htable : (p.setConstant id input).propagator.table = result.1 :=
        (setConstant_of_set hset).2.1.1
      refine ⟨id, input, ?_⟩
      rw [perform, htable, hset]
  | _ => cases h

/-- The line reports a constant that had no value in a table that has led to the present one. -/
def Recounts (p : Propagator σ) (w : Warning WarningKey) : Prop :=
  ∃ (past : Propagator σ) (earlier later : List (TableCall Float)) (changed : ConstantId)
    (warning : DependentWarning Float), past.table = (∅ : ConstantTable Float).after earlier ∧
      p.table = past.table.after later ∧ past.table.resolve warning.id = .error warning.fault ∧
      w = past.reportOf changed warning

/-- The table was reached by calls, and what is written of constants recounts them. -/
structure Recounted (p : Propagator σ) : Prop where
  reached : ∃ calls, p.table = (∅ : ConstantTable Float).after calls
  recounts : ∀ w ∈ p.log.lines, w.area = .constants → p.Recounts w

namespace Recounted

theorem coherent (h : p.Recounted) : p.table.Coherent := by
  obtain ⟨calls, hcalls⟩ := h.reached
  rw [hcalls]
  exact ConstantTable.coherent_after ConstantTable.coherent_empty calls

theorem congr {p' : Propagator σ} (h : p.Recounted) (htable : p'.table = p.table)
    (hlog : p'.log = p.log) : p'.Recounted where
  reached := htable ▸ h.reached
  recounts w hw harea := by
    obtain ⟨past, earlier, later, changed, warning, hpast, hlater, hreport⟩ :=
      h.recounts w (hlog ▸ hw) harea
    exact ⟨past, earlier, later, changed, warning, hpast, htable.trans hlater, hreport⟩

theorem perform (h : p.Recounted) (call : PropagatorCall σ) : (p.perform call).Recounted := by
  have htable := p.table_perform call
  obtain ⟨calls, hcalls⟩ := h.reached
  have hreached : (p.perform call).table =
      (∅ : ConstantTable Float).after (calls ++ call.tableCalls) := by
    rw [htable, hcalls, ConstantTable.after_append]
  refine ⟨⟨_, hreached⟩, fun w hw harea => ?_⟩
  obtain ⟨written, hlines, hreports⟩ := p.exists_lines_perform call
  rw [hlines, List.mem_append] at hw
  rcases hw with hw | hw
  · obtain ⟨past, earlier, later, changed, warning, hpast, hlater, hreport⟩ :=
      h.recounts w hw harea
    refine ⟨past, earlier, later ++ call.tableCalls, changed, warning, hpast, ?_, hreport⟩
    rw [htable, hlater, ConstantTable.after_append]
  · obtain ⟨update, hupdate, warning, hwarning, hreport⟩ := hreports w hw harea
    obtain ⟨id, input, hset⟩ := exists_set_of_accepted hupdate
    exact ⟨p.perform call, _, [], update.id, warning, hreached, rfl,
      ConstantTable.resolve_of_warning h.coherent hset hwarning, hreport⟩

end Recounted

/-- Over a run of a propagator in development, exactly one line is written about constants for
each pair of a dependent and a kind of fault that an accepted definition has warned of, in
the order in which the pairs first appear. A call writes the pairs that its own definition is the
first to warn of, whatever its result is; constraints that are added or removed are of no
influence. A definition is accepted if the table takes it, and calls reach the table only by what
they ask of it. -/
theorem unresolved_reported_once (table : ConstantTable Float) (policy : ConstantOnlyPolicy)
    (tolerance : Float) (steps : List (PropagatorStep σ)) :
    let first : Propagator σ := start table { devMode := true } policy tolerance
    let p := first.run steps
    let seen := (first.acceptedIn steps).flatMap ConstantUpdate.unresolved
    p.table = table.after (steps.flatMap fun s => s.call.tableCalls) ∧
      (∀ w ∈ p.log.lines, w.area = .constants → w.unresolved?.isSome) ∧
      p.log.lines.filterMap Warning.unresolved? = (InsertionSet.ofList seen).toList ∧
      ∀ (answers : SolverAnswers σ) (call : PropagatorCall σ),
        let before := p.facing answers
        let after := before.perform call
        ∃ written, after.log.lines = before.log.lines ++ written ∧
          (∀ pair, pair ∈ written.filterMap Warning.unresolved? ↔
            pair ∉ seen ∧ ∃ update, before.accepted? call = some update ∧
              pair ∈ update.unresolved) ∧
          ∀ w ∈ written, w.area = .constants → ∃ update, before.accepted? call = some update ∧
            ∃ warning ∈ update.warnings, w = after.reportOf update.id warning := by
  intro first p seen
  have hp : p.log.Reported seen := reported_run (p := first) .empty steps
  refine ⟨first.table_run steps, hp.isSome, hp.reported_eq, fun answers call => ?_⟩
  intro before after
  obtain ⟨written, hlines, hreports⟩ := exists_lines_perform before call
  refine ⟨written, hlines, fun pair => ?_, hreports⟩
  -- What the call writes is the difference of two lists without repetitions.
  have hafter : after.log.Reported _ := reported_perform (p := before) hp call
  have hbefore : before.log.Reported seen := hp
  have hsplit := hafter.reported_eq
  rw [hlines, List.filterMap_append, hbefore.reported_eq] at hsplit
  have hnodup := (InsertionSet.ofList (seen ++
    (before.accepted? call).toList.flatMap ConstantUpdate.unresolved)).nodup
  rw [← hsplit] at hnodup
  have hmem : pair ∈ (InsertionSet.ofList seen).toList ∨
      pair ∈ written.filterMap Warning.unresolved? ↔
        pair ∈ seen ∨ ∃ update, before.accepted? call = some update ∧
          pair ∈ update.unresolved := by
    rw [← List.mem_append, hsplit, ← InsertionSet.mem_iff, InsertionSet.mem_ofList,
      List.mem_append]
    simp
  have hseen : pair ∈ (InsertionSet.ofList seen).toList ↔ pair ∈ seen := InsertionSet.mem_ofList
  constructor
  · intro hwritten
    have hnew : pair ∉ seen := fun hpair =>
      List.disjoint_of_nodup_append hnodup (hseen.2 hpair) hwritten
    exact ⟨hnew, (hmem.1 (Or.inr hwritten)).resolve_left hnew⟩
  · rintro ⟨hnew, hwarned⟩
    exact (hmem.2 (Or.inr hwarned)).resolve_left (mt hseen.1 hnew)

end Propagator

end NamedConstants
