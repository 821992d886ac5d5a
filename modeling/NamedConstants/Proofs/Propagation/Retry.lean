import NamedConstants.Proofs.Propagation.Overdue

/-!
Calls that succeed after calls that have failed. A call that succeeds brings up to date
what mentions a constant that it reports as changed, and leaves the rest as it was. So it
does not make up for what an interrupted call has missed, not even if it is the same call:
by then the table has the value already, and the second call changes none.
-/
namespace NamedConstants.Propagator

variable {σ : Type} {p : Propagator σ} {id : ConstantId} {input : Formula Float}

/-- Whether the first of two equal calls has succeeded or not, the second one succeeds if
the table took the definition, and it refreshes nothing. -/
theorem setConstant_again (ht : p.table.Coherent) {t : ConstantTable Float}
    {update : ConstantUpdate Float} (hset : p.table.set id input = .ok (t, update))
    (answers : SolverAnswers σ) :
    let q : Propagator σ := (p.setConstant id input).propagator.facing answers
    ∃ table, q.table.Unaltered table ∧
      let update' : ConstantUpdate Float :=
        { id, value := update.value, changed := [], warnings := [] }
      q.setConstant id input =
        { propagator := { q with table }, update? := some update'
          result := .ok { update := update', relinearized := [], reoptimized := false } } := by
  intro q
  have hq : q.table = t := (setConstant_of_set hset).2.1.1
  obtain ⟨table, hagain, hunaltered⟩ := ConstantTable.set_again ht hset
  refine ⟨table, hq ▸ hunaltered, ?_⟩
  apply setConstant_of_unmentioned (by rw [hq, hagain]) rfl
  intro change hchange
  cases hchange

/-- A round leaves a constraint alone that mentions none of the changed constants. -/
theorem InStep.round_of_unmentioned (hp : p.InStep) (update : ConstantUpdate Float)
    {handle : Handle} {entry : Tracked σ}
    (hentry : (p.round update).1.propagator.tracked.get? handle = some entry)
    (hunmentioned : ∀ change ∈ update.changed, change.id ∉ entry.definition.constants) :
    p.tracked.get? handle = some entry := by
  obtain ⟨log, hlog⟩ := exists_warned_eq p update.id update.warnings
  unfold Propagator.round at hentry
  rw [hlog] at hentry
  obtain ⟨before, hbefore, hdefinition, -⟩ := exists_entry_of_refreshAll _ _ hentry
  have haffected : handle ∉ ({ p with log } : Propagator σ).affected update.changed := by
    intro hmem
    obtain ⟨change, hchange, hlisted⟩ := mem_affected.1 hmem
    have hmentioned := (hp.indexed.mem_handlesFor_of_get? hbefore change.id).1 hlisted
    rw [← hdefinition] at hmentioned
    exact hunmentioned change hchange hmentioned
  have hsame :=
    (refreshAll_of_not_mem { propagator := ({ p with log } : Propagator σ) } haffected).1
  rw [hentry] at hsame
  exact hsame.symm

/-- What a call that succeeds does to a constraint: it is current if it mentions a changed
constant, and as it was otherwise, so that it is current only if it was. -/
theorem InStep.entry_of_setConstant_ok (hp : p.InStep) {report : PropagationReport}
    (hok : (p.setConstant id input).result = .ok report) {handle : Handle} {entry : Tracked σ}
    (hentry : (p.setConstant id input).propagator.tracked.get? handle = some entry) :
    ((∃ change ∈ report.update.changed, change.id ∈ entry.definition.constants) →
      (p.setConstant id input).propagator.IsCurrent entry) ∧
    ((∀ change ∈ report.update.changed, change.id ∉ entry.definition.constants) →
      p.tracked.get? handle = some entry ∧
        ((p.setConstant id input).propagator.IsCurrent entry ↔ p.IsCurrent entry)) := by
  obtain ⟨table, hset, -, hpropagate⟩ := setConstant_eq_ok hok
  have htable : ({ p with table } : Propagator σ).InStep := hp.congr rfl rfl rfl rfl rfl rfl
  obtain ⟨⟨solver, hpropagator⟩, ⟨hfinal, hpolicy, htolerance⟩, -⟩ := setConstant_of_set hset
  obtain ⟨hround, -⟩ := propagate_eq_ok hpropagate
  rw [hpropagator] at hentry
  constructor
  · rintro ⟨change, hchange, hmentioned⟩
    rcases htable.round_entry report.update hentry with
      hcurrent | ⟨-, -, hunmentioned | ⟨failure, hfailure, -⟩⟩
    · rw [hpropagator]
      exact hcurrent.congr (fun _ _ => rfl) rfl rfl
    · exact absurd hmentioned (hunmentioned change hchange)
    · rw [hround] at hfailure
      cases hfailure
  · intro hunmentioned
    have hvalues : ∀ c ∈ entry.definition.constants, table.valueOf? c = p.table.valueOf? c := by
      intro c hc
      by_contra hne
      obtain ⟨change, hchange, rfl⟩ := ConstantTable.exists_change_of_valueOf?_ne hset hne
      exact hunmentioned change hchange hc
    refine ⟨htable.round_of_unmentioned report.update hentry hunmentioned, ?_, ?_⟩
    · intro h
      exact h.congr (fun c hc => by rw [hfinal, hvalues c hc]) hpolicy.symm htolerance.symm
    · intro h
      exact h.congr (fun c hc => by rw [hfinal, hvalues c hc]) hpolicy htolerance

/-- What an update that succeeds can be relied on for: in every state that a run through
the propagator leads to, and however many calls have failed before, the table has accepted
the reported update, a constraint that mentions a changed constant is current after it, and
so is every constraint that no earlier call has left overdue. An overdue constraint that
mentions no changed constant stays as it was. -/
theorem current_after_setConstant (table : ConstantTable Float) (log : Log WarningKey)
    (policy : ConstantOnlyPolicy) (tolerance : Float) (steps : List (PropagatorStep σ))
    (hthrough : ∀ s ∈ steps, s.call.IsThrough) (answers : SolverAnswers σ) (id : ConstantId)
    (input : Formula Float) (report : PropagationReport)
    (hok : ((((start table log policy tolerance).run steps).facing answers).setConstant id
      input).result = .ok report) :
    let first : Propagator σ := start table log policy tolerance
    let before : Propagator σ := (first.run steps).facing answers
    let after : Propagator σ := (before.setConstant id input).propagator
    before.table.set id input = .ok (after.table, report.update) ∧
      ∀ handle entry, after.tracked.get? handle = some entry →
        ((∃ change ∈ report.update.changed, change.id ∈ entry.definition.constants) →
          after.IsCurrent entry) ∧
        (¬ first.Overdue steps handle → after.IsCurrent entry) ∧
        ((∀ change ∈ report.update.changed, change.id ∉ entry.definition.constants) →
          before.tracked.get? handle = some entry ∧
            (after.IsCurrent entry ↔ before.IsCurrent entry)) := by
  intro first before after
  refine ⟨set_of_setConstant_eq_ok hok, fun handle entry hentry => ?_⟩
  have hbefore : before.InStep :=
    (inStep_run (inStep_start table log policy tolerance) steps).facing answers
  obtain ⟨hmentioned, hunmentioned⟩ := hbefore.entry_of_setConstant_ok hok hentry
  refine ⟨hmentioned, ?_, hunmentioned⟩
  intro hnot
  by_cases hchanged : ∃ change ∈ report.update.changed, change.id ∈ entry.definition.constants
  · exact hmentioned hchanged
  · push Not at hchanged
    obtain ⟨htracked, hiff⟩ := hunmentioned hchanged
    have hcurrent : (first.run steps).IsCurrent entry :=
      isCurrent_of_not_overdue table log policy tolerance steps hthrough htracked hnot
    exact hiff.2 (hcurrent.congr (fun _ _ => rfl) rfl rfl)

/-- A refused update that is made again: the second call succeeds, and the constraint that
mentions the constant is still installed with the old value. -/
theorem stale_after_retry :
    let before : Propagator Nat :=
      ((start ∅ { devMode := true } .reject defaultTolerance).run pinnedSteps).facing {}
    (∀ s ∈ pinnedSteps, s.call.IsThrough) ∧
      (∃ report, (before.setConstant 1 (.literal 3)).result = .ok report) ∧
      ∃ entry, (before.setConstant 1 (.literal 3)).propagator.tracked.get? 1 = some entry ∧
        1 ∈ entry.definition.constants ∧
        ¬ (before.setConstant 1 (.literal 3)).propagator.IsCurrent entry := by
  intro before
  have hbefore : before = pinnedAt 2 3 := run_pinnedSteps
  have hset := set_numbered (v := 3) (w := 3) (by decide)
  rw [if_pos rfl] at hset
  have hcall : (pinnedAt 2 3).setConstant 1 (.literal 3) = _ :=
    setConstant_of_unmentioned hset rfl fun change hchange => by cases hchange
  rw [hbefore, hcall]
  refine ⟨isThrough_pinnedSteps, ⟨_, rfl⟩, _, rfl, ?_, ?_⟩
  · decide
  · have hform : (pinnedAt 2 3).linearize pinned 1 = .ok (pinnedForm 3) :=
      linearize_pinned rfl (by decide +kernel)
    have hne : (pinnedForm 2).offset ≠ (pinnedForm 3).offset := by decide +kernel
    intro hcurrent
    have heq := hcurrent.linear_eq hform
    exact hne (congrArg (fun form => form.offset) (Option.some.inj heq))

/-- After the refused update another value is set, and the constraint is current again. -/
theorem current_after_setConstant_pinned :
    let before : Propagator Nat :=
      ((start ∅ { devMode := true } .reject defaultTolerance).run pinnedSteps).facing {}
    let after : Propagator Nat := (before.setConstant 1 (.literal 4)).propagator
    (∀ s ∈ pinnedSteps, s.call.IsThrough) ∧
      (∃ report, (before.setConstant 1 (.literal 4)).result = .ok report) ∧
      after.tracked.get? 1 = some (pinnedEntry 4) ∧
      ∀ handle entry, after.tracked.get? handle = some entry → 1 ∈ entry.definition.constants →
        after.IsCurrent entry := by
  intro before after
  obtain ⟨hok, hentry, -⟩ := setConstant_pinned
  rw [← run_pinnedSteps] at hok hentry
  refine ⟨isThrough_pinnedSteps, ⟨_, hok⟩, hentry, ?_⟩
  intro handle entry hentry hmentioned
  obtain ⟨-, hcurrent⟩ := current_after_setConstant ∅ { devMode := true } .reject defaultTolerance
    pinnedSteps isThrough_pinnedSteps {} 1 (.literal 4) _ hok
  exact (hcurrent handle entry hentry).1 ⟨_, List.mem_singleton_self _, hmentioned⟩

end NamedConstants.Propagator
