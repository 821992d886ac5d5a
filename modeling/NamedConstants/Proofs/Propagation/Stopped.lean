import NamedConstants.Proofs.Propagation.Requests

/-!
What a setting that fails leaves behind. If the table has rejected the definition, that is
nothing at all. Otherwise the definition stays, and the constraints that mention a changed
constant are cut in two where the round has stopped: those before the cut are up to date in
the registry and in the solver, those after it are in both as they were. The solver is asked
to optimize only if the round has come to its end, so a refusal at that point finds all of
them up to date.
-/
namespace NamedConstants

namespace Propagator

variable {σ : Type} {p : Propagator σ}

theorem Refreshed.answers {p' : Propagator σ} {handle : Handle} {entry : Tracked σ}
    (h : Refreshed p handle entry p') :
    p'.solver.refusal = p.solver.refusal ∧
      p'.solver.optimizeFailure = p.solver.optimizeFailure := by
  cases h with
  | replaced token linear solver _ _ hsolver =>
    obtain ⟨-, rfl⟩ := Recorder.replace_eq_ok hsolver
    exact ⟨rfl, rfl⟩
  | attached token linear solver _ _ hsolver =>
    obtain ⟨-, rfl⟩ := Recorder.install_eq_ok hsolver
    exact ⟨rfl, rfl⟩
  | detached token fault solver _ _ _ hsolver =>
    obtain ⟨-, rfl⟩ := Recorder.remove_eq_ok hsolver
    exact ⟨rfl, rfl⟩
  | stayed => exact ⟨rfl, rfl⟩

/-- The solver does not change its mind during a call. -/
theorem setConstant_answers (p : Propagator σ) (id : ConstantId) (input : Formula Float) :
    (p.setConstant id input).propagator.solver.refusal = p.solver.refusal ∧
      (p.setConstant id input).propagator.solver.optimizeFailure = p.solver.optimizeFailure := by
  rcases p.setConstant_cases id input with ⟨fault, -, heq, -⟩ | ⟨table, update, -, heq, -⟩
  · rw [heq]
    exact ⟨rfl, rfl⟩
  · obtain ⟨log, hround⟩ := ({ p with table } : Propagator σ).exists_round_eq_refreshAll update
    have hanswers := (refreshAll_induction
      (P := fun q => q.solver.refusal = p.solver.refusal ∧
        q.solver.optimizeFailure = p.solver.optimizeFailure)
      (fun q _ _ _ hq _ hrefreshed =>
        ⟨hrefreshed.answers.1.trans hq.1, hrefreshed.answers.2.trans hq.2⟩)
      (({ p with table } : Propagator σ).affected update.changed)
      { propagator := { p with table, log } } ⟨rfl, rfl⟩).1
    rw [← hround] at hanswers
    obtain ⟨solver, hpropagate, rfl | rfl⟩ :=
      ({ p with table } : Propagator σ).exists_propagate_eq update
    · rw [heq, hpropagate]
      exact hanswers
    · rw [heq, hpropagate]
      exact hanswers

theorem Updated.kind_ne_reoptimize {entry entry' : Tracked σ} {requests : List (SolverCall σ)}
    (h : p.Updated entry entry' requests) : ∀ call ∈ requests, call.kind ≠ .reoptimize := by
  intro call hcall
  cases h with
  | stayed => cases hcall
  | _ =>
    rw [List.mem_singleton.1 hcall]
    exact SolverCall.Kind.noConfusion

/-- To optimize is not among the requests of a round. -/
theorem Swept.count_reoptimize {round final : Round σ} {done : List Handle}
    {requests : Handle → List (SolverCall σ)} (h : Swept round final done requests) :
    final.propagator.solver.count .reoptimize = round.propagator.solver.count .reoptimize := by
  have hnone : (done.flatMap requests).countP (fun call => call.kind = .reoptimize) = 0 := by
    rw [List.countP_eq_zero]
    intro call hcall
    obtain ⟨handle, hhandle, hsent⟩ := List.mem_flatMap.1 hcall
    obtain ⟨entry, entry', -, -, hupdated⟩ := h.updated handle hhandle
    simpa using hupdated.kind_ne_reoptimize call hsent
  rw [Recorder.count, h.calls_eq, List.countP_append, hnone]
  rfl

/-- A setting that fails after the table took the definition ends where its round has
stopped, or with a request to optimize that follows a whole round. -/
theorem InStep.exists_swept_of_setConstant_error (hp : p.InStep) {id : ConstantId}
    {input : Formula Float} {table : ConstantTable Float} {update : ConstantUpdate Float}
    (hset : p.table.set id input = .ok (table, update)) {failure : PropagationFailure}
    (hfail : (p.setConstant id input).result = .error failure) :
    ∃ log final done rest requests,
      ({ p with table } : Propagator σ).affected update.changed = done ++ rest ∧
      Swept { propagator := { p with table, log } } final done requests ∧
      ((∃ handle later entry, rest = handle :: later ∧ p.tracked.get? handle = some entry ∧
          final.propagator.Stuck handle entry failure ∧
          (p.setConstant id input).propagator = final.propagator) ∨
        ∃ detail, rest = [] ∧ final.touched = true ∧
          final.propagator.solver.optimizeFailure = some detail ∧
          failure = .infeasible { detail } ∧
          (p.setConstant id input).propagator =
            { final.propagator with solver := final.propagator.solver.record .reoptimize }) := by
  have htable : ({ p with table } : Propagator σ).InStep := hp.congr rfl rfl rfl rfl rfl rfl
  have hcall : (p.setConstant id input).propagator =
      (({ p with table } : Propagator σ).propagate update).1 := by
    simp only [Propagator.setConstant, hset]
  simp only [Propagator.setConstant, hset] at hfail
  rw [hcall]
  obtain ⟨log, done, rest, requests, haffected, hswept, hcut⟩ :=
    htable.exists_swept_of_round update
  refine ⟨log, _, done, rest, requests, haffected, hswept, ?_⟩
  rcases propagate_eq_error hfail with
    ⟨hround, hstopped⟩ | ⟨detail, hround, htouched, hoptimize, hfailure, hstopped⟩
  · rcases hcut with ⟨-, hok⟩ | ⟨handle, later, entry, failure', hrest, hentry, hstuck, herror⟩
    · rw [hok] at hround
      cases hround
    · rw [hround, Except.error.injEq] at herror
      exact Or.inl ⟨handle, later, entry, hrest, hentry, herror ▸ hstuck, hstopped⟩
  · rcases hcut with ⟨hrest, -⟩ | ⟨_, _, _, _, -, -, -, herror⟩
    · exact Or.inr ⟨detail, hrest, htouched, hoptimize, hfailure, hstopped⟩
    · rw [hround] at herror
      cases herror

/-- What a setting that fails leaves behind, in any state of any run. Either the table has
rejected the definition and nothing has changed, or the table has the new definition. In
that case some of the constraints that mention a changed constant are done: these are the
first ones in ascending order. Each of them was updated in one of the four ways, all other
constraints are as they were, and so is what the solver holds for them. If any are left,
the first of these is the one that has failed and nothing has been optimized. If none is
left, it is the one request to optimize that has failed. -/
theorem failure_of_setConstant (table : ConstantTable Float) (log : Log WarningKey)
    (policy : ConstantOnlyPolicy) (tolerance : Float) (steps : List (PropagatorStep σ))
    (answers : SolverAnswers σ) (id : ConstantId) (input : Formula Float)
    (failure : PropagationFailure)
    (hfail : ((((start table log policy tolerance).run steps).facing answers).setConstant id
      input).result = .error failure) :
    let before : Propagator σ := ((start table log policy tolerance).run steps).facing answers
    let after : Propagator σ := (before.setConstant id input).propagator
    (∃ fault, before.table.set id input = .error fault ∧
        failure = .constant (.resolution fault) ∧ after = before) ∨
      ∃ update done rest, before.table.set id input = .ok (after.table, update) ∧
        (done ++ rest).Pairwise (· < ·) ∧
        (∀ handle, handle ∈ done ++ rest ↔ ∃ entry, before.tracked.get? handle = some entry ∧
          ∃ change ∈ update.changed, change.id ∈ entry.definition.constants) ∧
        (∀ handle ∉ done, after.tracked.get? handle = before.tracked.get? handle) ∧
        Agrees after.tracked.get? after.solver.installed.get? ∧
        (after.solver.refusal = answers.refusal ∧
          after.solver.optimizeFailure = answers.optimizeFailure) ∧
        ∃ requests : Handle → List (SolverCall σ),
          (∀ handle ∈ done, ∃ entry entry', before.tracked.get? handle = some entry ∧
            after.tracked.get? handle = some entry' ∧
            after.Updated entry entry' (requests handle)) ∧
          ((∃ handle later entry, rest = handle :: later ∧
              before.tracked.get? handle = some entry ∧ after.Stuck handle entry failure ∧
              after.solver.calls = before.solver.calls ++ done.flatMap requests ∧
              after.solver.count .reoptimize = before.solver.count .reoptimize) ∨
            ∃ detail, rest = [] ∧ answers.optimizeFailure = some detail ∧
              failure = .infeasible { detail } ∧ done.flatMap requests ≠ [] ∧
              after.solver.calls =
                before.solver.calls ++ done.flatMap requests ++ [.reoptimize] ∧
              after.solver.count .reoptimize = before.solver.count .reoptimize + 1) := by
  intro before after
  have hbefore : before.InStep :=
    (inStep_run (inStep_start table log policy tolerance) steps).facing answers
  rcases before.setConstant_cases id input with
    ⟨fault, hset, hafter, heq⟩ | ⟨table', update, hset, -, -⟩
  · have hfailure := heq.symm.trans hfail
    rw [Except.error.injEq] at hfailure
    exact Or.inl ⟨fault, hset, hfailure.symm, hafter⟩
  right
  have hagrees : Agrees after.tracked.get? after.solver.installed.get? :=
    (hbefore.setConstant id input).agrees
  have hanswers : after.solver.refusal = answers.refusal ∧
      after.solver.optimizeFailure = answers.optimizeFailure := before.setConstant_answers id input
  have htable : ({ before with table := table' } : Propagator σ).InStep :=
    hbefore.congr rfl rfl rfl rfl rfl rfl
  obtain ⟨log', final, done, rest, requests, haffected, hswept, hcut⟩ :=
    hbefore.exists_swept_of_setConstant_error hset hfail
  obtain ⟨solver', tracked, hfinal⟩ := hswept.frame
  -- Whichever way it has ended, after the round the most that was written is the solver.
  obtain ⟨solver, hafter⟩ : ∃ solver, after = { final.propagator with solver } := by
    rcases hcut with ⟨_, _, _, -, -, -, heq⟩ | ⟨_, -, -, -, -, heq⟩
    · exact ⟨_, heq⟩
    · exact ⟨_, heq⟩
  have htable' : after.table = table' := by rw [hafter, hfinal]
  have htracked : after.tracked = final.propagator.tracked := by rw [hafter]
  refine ⟨update, done, rest, htable' ▸ hset, haffected ▸ pairwise_affected _ _,
    fun handle => haffected ▸ htable.mem_affected_iff, fun handle hhandle => ?_, hagrees,
    hanswers, requests, fun handle hhandle => ?_, ?_⟩
  · rw [htracked]
    exact hswept.others handle hhandle
  · obtain ⟨entry, entry', hentry, hentry', hupdated⟩ := hswept.updated handle hhandle
    refine ⟨entry, entry', hentry, htracked ▸ hentry', ?_⟩
    rw [hafter]
    exact hupdated.congr rfl rfl rfl
  · rcases hcut with ⟨handle, later, entry, hrest, hentry, hstuck, heq⟩ |
      ⟨detail, hrest, htouched, hoptimize, hfailure, heq⟩
    · rw [show after = final.propagator from heq]
      exact Or.inl ⟨handle, later, entry, hrest, hentry, hstuck, hswept.calls_eq,
        hswept.count_reoptimize⟩
    · have hdetail : answers.optimizeFailure = some detail := by
        rw [← hanswers.2, show after = _ from heq]
        exact hoptimize
      rw [show after = _ from heq]
      refine Or.inr ⟨detail, hrest, hdetail, hfailure, ?_, ?_, ?_⟩
      · simpa using hswept.touched_iff.1 htouched
      · exact congrArg (· ++ [SolverCall.reoptimize]) hswept.calls_eq
      · rw [Recorder.count_record, hswept.count_reoptimize]
        rfl

def pairSteps : List (PropagatorStep Nat) :=
  [{ call := .add pinned 1 }, { call := .add pinned 1 }]

def grantsThree : SolverAnswers Nat where
  refusal calls _ := if calls.length < 3 then none else some "busy"

def pair : Propagator Nat where
  table := numbered 2
  solver :=
    { refusal := grantsThree.refusal
      calls := [.install 1 (pinnedForm 2), .install 2 (pinnedForm 2)]
      installed := (InsertionMap.singleton 1 (pinnedForm 2)).insert 2 (pinnedForm 2)
      nextToken := 3 }
  log := { devMode := true }
  tracked := (InsertionMap.singleton 1 (pinnedEntry 2)).insert 2
    { pinnedEntry 2 with slot := .installed 2 }
  mentions := .singleton 1 ((InsertionSet.singleton 1).insert 2)
  nextHandle := 3

theorem run_pairSteps :
    ((start (numbered 2) { devMode := true } .reject defaultTolerance).run pairSteps).facing
      grantsThree = pair := by
  have hfirst : (start (numbered 2) { devMode := true } .reject defaultTolerance).step
      { call := .add pinned 1 } = pinnedAt 2 2 :=
    step_add_pinned (by decide +kernel)
  have hform : ((pinnedAt 2 2).facing {}).linearize pinned 1 = .ok (pinnedForm 2) :=
    linearize_pinned rfl (by decide +kernel)
  rw [run, pairSteps, List.foldl_cons, hfirst, List.foldl_cons, List.foldl_nil]
  simp only [step, perform, add, hform]
  rfl

theorem setConstant_pair :
    (pair.setConstant 1 (.literal 3)).result = .error (.infeasible { detail := "busy" }) := by
  let q : Propagator Nat := { pair with table := numbered 3 }
  have hset := set_numbered (v := 2) (w := 3) (by decide)
  rw [if_neg (by decide)] at hset
  have haffected : q.affected [{ id := 1, previous := some 2, value := some 3 }] = [1, 2] :=
    List.mergeSort_of_pairwise (by decide)
  have hform {p : Propagator Nat} (htable : p.table = numbered 3) :
      p.linearize pinned 1 = .ok (pinnedForm 3) :=
    linearize_pinned (by rw [htable]; rfl) (by decide +kernel)
  have hfirst : ∃ next, refresh { propagator := q } 1 (pinnedEntry 2) = .ok next ∧
      next.propagator.tracked.get? 2 = some { pinnedEntry 2 with slot := .installed 2 } ∧
      refresh next 2 { pinnedEntry 2 with slot := .installed 2 } =
        .error (.infeasible { detail := "busy" }) := by
    simp only [refresh, pinnedEntry, hform (p := q) rfl]
    refine ⟨_, rfl, rfl, ?_⟩
    rw [hform rfl]
    rfl
  obtain ⟨next, hnext, hsecond, hrefused⟩ := hfirst
  have hentry : q.tracked.get? 1 = some (pinnedEntry 2) := rfl
  refine (setConstant_of_set (p := pair) hset).2.2 _ ?_
  change (q.round _).2 = _
  simp only [round, List.foldl_nil, haffected, refreshAll, hentry, hnext, hsecond, hrefused]

theorem exists_tracked_pair {handle : Handle} :
    (∃ entry, pair.tracked.get? handle = some entry ∧ 1 ∈ entry.definition.constants) ↔
      handle = 1 ∨ handle = 2 := by
  constructor
  · rintro ⟨entry, hentry, -⟩
    simp only [pair, InsertionMap.get?_insert, InsertionMap.get?_singleton] at hentry
    split at hentry
    · exact Or.inr ‹_›
    · split at hentry
      · exact Or.inl ‹_›
      · cases hentry
  · rintro (rfl | rfl)
    · exact ⟨_, rfl, by decide⟩
    · exact ⟨_, rfl, by decide⟩

/-- The solver grants the replacement of the first constraint and refuses that of the
second one, which stays as it was. -/
theorem failure_of_setConstant_pair :
    let before : Propagator Nat :=
      ((start (numbered 2) { devMode := true } .reject defaultTolerance).run pairSteps).facing
        grantsThree
    let after : Propagator Nat := (before.setConstant 1 (.literal 3)).propagator
    (before.setConstant 1 (.literal 3)).result = .error (.infeasible { detail := "busy" }) ∧
      after.table = numbered 3 ∧
      after.solver.calls = before.solver.calls ++ [.replace 1 (pinnedForm 3)] ∧
      after.tracked.get? 2 = before.tracked.get? 2 := by
  have hspec := failure_of_setConstant (numbered 2) { devMode := true } .reject defaultTolerance
    pairSteps grantsThree 1 (.literal 3) (.infeasible { detail := "busy" })
    (by rw [run_pairSteps, setConstant_pair])
  have hset := set_numbered (v := 2) (w := 3) (by decide)
  rw [if_neg (by decide)] at hset
  simp only [run_pairSteps] at hspec ⊢
  refine ⟨setConstant_pair, ?_⟩
  obtain ⟨fault, -, hfailure, -⟩ | ⟨update, done, rest, hset', hsorted, hmem, hothers, -, hanswers,
    requests, hupdated, hcut⟩ := hspec
  · cases hfailure
  have heq := hset'.symm.trans hset
  rw [Except.ok.injEq, Prod.mk.injEq] at heq
  obtain ⟨htable, rfl⟩ := heq
  have hall : done ++ rest = [1, 2] := by
    refine hsorted.eq_of_mem_iff (by decide) fun handle => ?_
    rw [hmem, List.mem_pair, ← exists_tracked_pair]
    simp only [List.mem_singleton, exists_eq_left]
  rcases hcut with ⟨handle, later, entry, rfl, -, hstuck, hcalls, -⟩ | ⟨detail, -, hoptimize, -⟩
  · rcases done with _ | ⟨first, _ | ⟨second, done⟩⟩
    · -- Two requests were granted before the call, so a third one is granted too.
      cases hstuck with
      | refused linear detail hlinear hrefusal =>
        rw [hanswers.1, hcalls] at hrefusal
        cases hrefusal
    · obtain ⟨rfl, rfl, rfl⟩ : first = 1 ∧ handle = 2 ∧ later = [] := by simpa using hall
      obtain ⟨entry', updated, hentry, -, hreplaced⟩ := hupdated 1 (List.mem_singleton_self 1)
      obtain rfl : pinnedEntry 2 = entry' := Option.some.inj hentry
      have hform : (pair.setConstant 1 (.literal 3)).propagator.linearize pinned 1 =
          .ok (pinnedForm 3) :=
        linearize_pinned (by rw [htable]; rfl) (by decide +kernel)
      rw [List.flatMap_singleton, hreplaced.requests_eq_replace rfl hform] at hcalls
      exact ⟨htable, hcalls, hothers 2 (by decide)⟩
    · simp at hall
  · cases hoptimize

end Propagator

end NamedConstants
