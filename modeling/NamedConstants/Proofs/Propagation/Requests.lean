import NamedConstants.Proofs.Linear.Normal
import NamedConstants.Proofs.Propagation.Retry

/-!
What a setting asks of the solver. A round goes through the affected constraints in
ascending order, and each of them costs at most one request, of a kind that depends on
where it stood and on what it has become. It stops at the first failure, so what it has
done is a list of requests for an initial segment of the affected constraints.
-/
namespace NamedConstants

namespace Propagator

variable {σ : Type} {p p' : Propagator σ}

/-- What becomes of the entry of a constraint that has been linearized again, and the
requests which that takes. -/
inductive Updated (p' : Propagator σ) (entry : Tracked σ) :
    Tracked σ → List (SolverCall σ) → Prop where
  | replaced (token : SolverToken) (linear : LinearConstraint Float σ)
      (hlinear : p'.linearize entry.definition entry.strength = .ok linear)
      (hterms : linear.terms ≠ []) (hslot : entry.slot = .installed token) :
      Updated p' entry { entry with linear := some linear, slot := .installed token }
        [.replace token linear]
  | installed (token : SolverToken) (linear : LinearConstraint Float σ)
      (hlinear : p'.linearize entry.definition entry.strength = .ok linear)
      (hterms : linear.terms ≠ []) (hslot : entry.slot = .detached) :
      Updated p' entry { entry with linear := some linear, slot := .installed token }
        [.install token linear]
  | removed (token : SolverToken) (offset : Float)
      (hlinear : p'.linearize entry.definition entry.strength = .error (.noVariables offset))
      (hpolicy : p'.policy = .skip) (hslot : entry.slot = .installed token) :
      Updated p' entry { entry with linear := none, slot := .detached } [.remove token]
  | stayed (offset : Float)
      (hlinear : p'.linearize entry.definition entry.strength = .error (.noVariables offset))
      (hpolicy : p'.policy = .skip) (hslot : entry.slot = .detached) :
      Updated p' entry { entry with linear := none, slot := .detached } []

theorem Updated.congr {entry entry' : Tracked σ} {requests : List (SolverCall σ)}
    (h : p.Updated entry entry' requests) (htable : p'.table = p.table)
    (hpolicy : p'.policy = p.policy) (htolerance : p'.tolerance = p.tolerance) :
    p'.Updated entry entry' requests := by
  have hlinear : p'.linearize entry.definition entry.strength =
      p.linearize entry.definition entry.strength := by
    rw [linearize, linearize, htable, htolerance]
  cases h with
  | replaced token linear hform => exact .replaced token linear (hlinear.trans hform) ‹_› ‹_›
  | installed token linear hform => exact .installed token linear (hlinear.trans hform) ‹_› ‹_›
  | removed token offset hform hskip =>
    exact .removed token offset (hlinear.trans hform) (hpolicy.trans hskip) ‹_›
  | stayed offset hform hskip =>
    exact .stayed offset (hlinear.trans hform) (hpolicy.trans hskip) ‹_›

theorem Updated.requests_eq_replace {entry entry' : Tracked σ} {requests : List (SolverCall σ)}
    {token : SolverToken} {linear : LinearConstraint Float σ}
    (h : p.Updated entry entry' requests) (hslot : entry.slot = .installed token)
    (hlinear : p.linearize entry.definition entry.strength = .ok linear) :
    requests = [.replace token linear] := by
  cases h with
  | replaced token' linear' hlinear' _ hslot' =>
    rw [hslot, Slot.installed.injEq] at hslot'
    rw [hlinear, Except.ok.injEq] at hlinear'
    rw [hslot', hlinear']
  | installed _ _ _ _ hslot' => rw [hslot] at hslot'; cases hslot'
  | removed _ _ hlinear' => rw [hlinear] at hlinear'; cases hlinear'
  | stayed _ hlinear' => rw [hlinear] at hlinear'; cases hlinear'

theorem exists_noVariables_of_tolerates {fault : LinearizeFault Float} (h : p.Tolerates fault) :
    ∃ offset, fault = .noVariables offset := by
  cases fault with
  | noVariables offset => exact ⟨offset, rfl⟩
  | _ => exact h.elim

/-- A refresh that succeeds writes the updated entry, and records what that takes. -/
theorem exists_updated_of_refresh {round next : Round σ} {handle : Handle} {entry : Tracked σ}
    (h : refresh round handle entry = .ok next) :
    ∃ entry' requests, next.propagator.Updated entry entry' requests ∧
      next.propagator.tracked = round.propagator.tracked.insert handle entry' ∧
      next.propagator.solver.calls = round.propagator.solver.calls ++ requests ∧
      (next.touched = true ↔ round.touched = true ∨ requests ≠ []) := by
  obtain ⟨hrefreshed, -⟩ := refresh_eq_ok h
  obtain ⟨propagator, relinearized, touched⟩ := next
  dsimp only at hrefreshed ⊢
  cases hrefreshed with
  | replaced token linear solver hlinear hslot hsolver =>
    have htouched : touched = true := by
      simp only [refresh, hlinear, send, hslot, hsolver, Except.ok.injEq, Round.mk.injEq] at h
      exact h.2.2.symm
    have hterms := (Constraint.isNormal_of_linearize hlinear).1.terms_ne_nil
    obtain ⟨-, rfl⟩ := Recorder.replace_eq_ok hsolver
    refine ⟨_, _, .replaced token linear hlinear hterms hslot, rfl, rfl, ?_⟩
    simp [htouched]
  | attached token linear solver hlinear hslot hsolver =>
    have htouched : touched = true := by
      simp only [refresh, hlinear, send, hslot, hsolver, Except.ok.injEq, Round.mk.injEq] at h
      exact h.2.2.symm
    have hterms := (Constraint.isNormal_of_linearize hlinear).1.terms_ne_nil
    obtain ⟨rfl, rfl⟩ := Recorder.install_eq_ok hsolver
    refine ⟨_, _, .installed _ linear hlinear hterms hslot, rfl, rfl, ?_⟩
    simp [htouched]
  | detached token fault solver hlinear htolerates hslot hsolver =>
    have htouched : touched = (round.touched || true) := by
      simp only [refresh, hlinear, if_pos htolerates, withdraw, hslot, hsolver, Except.ok.injEq,
        Round.mk.injEq] at h
      exact h.2.2.symm
    have hskip := skip_of_tolerates htolerates
    obtain ⟨offset, rfl⟩ := exists_noVariables_of_tolerates htolerates
    obtain ⟨-, rfl⟩ := Recorder.remove_eq_ok hsolver
    refine ⟨_, _, .removed token offset hlinear hskip hslot, rfl, rfl, ?_⟩
    simp [htouched]
  | stayed fault hlinear htolerates hslot =>
    have htouched : touched = (round.touched || false) := by
      simp only [refresh, hlinear, if_pos htolerates, withdraw, hslot, Except.ok.injEq,
        Round.mk.injEq] at h
      exact h.2.2.symm
    have hskip := skip_of_tolerates htolerates
    obtain ⟨offset, rfl⟩ := exists_noVariables_of_tolerates htolerates
    refine ⟨_, _, .stayed offset hlinear hskip hslot, rfl, (List.append_nil _).symm, ?_⟩
    simp [htouched]

/-- Between two points of a round the given constraints have been brought up to date, in
turn, and nothing else has been done. -/
structure Swept (round final : Round σ) (done : List Handle)
    (requests : Handle → List (SolverCall σ)) : Prop where
  frame : ∃ solver tracked, final.propagator = { round.propagator with solver, tracked }
  relinearized_eq : final.relinearized = round.relinearized ++ done
  updated : ∀ handle ∈ done, ∃ entry entry',
    round.propagator.tracked.get? handle = some entry ∧
      final.propagator.tracked.get? handle = some entry' ∧
      final.propagator.Updated entry entry' (requests handle)
  others : ∀ handle ∉ done,
    final.propagator.tracked.get? handle = round.propagator.tracked.get? handle
  calls_eq : final.propagator.solver.calls =
    round.propagator.solver.calls ++ done.flatMap requests
  touched_iff : final.touched = true ↔ round.touched = true ∨ done.flatMap requests ≠ []

namespace Swept

variable {round next final : Round σ} {done : List Handle}
  {requests : Handle → List (SolverCall σ)}

theorem refl (round : Round σ) : Swept round round [] fun _ => [] where
  frame := ⟨_, _, rfl⟩
  relinearized_eq := (List.append_nil _).symm
  updated _ h := absurd h List.not_mem_nil
  others _ _ := rfl
  calls_eq := (List.append_nil _).symm
  touched_iff := by simp

/-- One more constraint, before those that the rest of the round is about. -/
theorem cons {first : Handle} {entry : Tracked σ} (h : Swept next final done requests)
    (hfirst : first ∉ done) (hentry : round.propagator.tracked.get? first = some entry)
    (hrefresh : refresh round first entry = .ok next) :
    ∃ requests', Swept round final (first :: done) requests' := by
  obtain ⟨hrefreshed, hrelinearized⟩ := refresh_eq_ok hrefresh
  obtain ⟨entry', sent, hupdated, htracked, hcalls, htouched⟩ := exists_updated_of_refresh hrefresh
  obtain ⟨solver, tracked, hfinal⟩ := h.frame
  have hother (handle : Handle) (hne : handle ≠ first) :
      next.propagator.tracked.get? handle = round.propagator.tracked.get? handle := by
    rw [htracked, InsertionMap.get?_insert_of_ne _ _ hne]
  have hsent : (first :: done).flatMap (Function.update requests first sent) =
      sent ++ done.flatMap requests := by
    rw [List.flatMap_cons, Function.update_self]
    congr 1
    refine List.flatMap_congr fun handle hhandle => ?_
    have hne : handle ≠ first := fun heq => hfirst (heq ▸ hhandle)
    exact Function.update_of_ne hne _ _
  refine ⟨Function.update requests first sent, ?_⟩
  constructor
  · obtain ⟨solver', linear, slot, hnext⟩ := hrefreshed.exists_eq
    refine ⟨solver, tracked, ?_⟩
    rw [hfinal, hnext]
  · rw [h.relinearized_eq, hrelinearized, List.append_assoc, List.singleton_append]
  · intro handle hhandle
    by_cases hne : handle = first
    · subst hne
      refine ⟨entry, entry', hentry, ?_, ?_⟩
      · rw [h.others handle hfirst, htracked, InsertionMap.get?_insert_self]
      · rw [Function.update_self, hfinal]
        exact hupdated.congr rfl rfl rfl
    · obtain ⟨e, e', he, hrest⟩ := h.updated handle ((List.mem_cons.1 hhandle).resolve_left hne)
      rw [hother handle hne] at he
      rw [Function.update_of_ne hne]
      exact ⟨e, e', he, hrest⟩
  · intro handle hhandle
    rw [List.mem_cons, not_or] at hhandle
    rw [h.others handle hhandle.2, hother handle hhandle.1]
  · rw [h.calls_eq, hcalls, hsent, List.append_assoc]
  · rw [h.touched_iff, htouched, hsent, or_assoc]
    simp [imp_iff_not_or]

end Swept

/-- A round over tracked constraints sweeps an initial segment of them, and stops before
the first constraint that cannot be refreshed. -/
theorem exists_swept {handles : List Handle} (hnodup : handles.Nodup) (round : Round σ)
    (htracked : ∀ handle ∈ handles, ∃ entry, round.propagator.tracked.get? handle = some entry) :
    ∃ done rest requests, handles = done ++ rest ∧
      Swept round (refreshAll round handles).1 done requests ∧
      ((rest = [] ∧ (refreshAll round handles).2 = .ok ()) ∨
        ∃ handle tail entry failure, rest = handle :: tail ∧
          (refreshAll round handles).1.propagator.tracked.get? handle = some entry ∧
          refresh (refreshAll round handles).1 handle entry = .error failure ∧
          (refreshAll round handles).2 = .error failure) := by
  induction handles generalizing round with
  | nil => exact ⟨[], [], _, rfl, .refl round, Or.inl ⟨rfl, rfl⟩⟩
  | cons first rest ih =>
    obtain ⟨hfirst, hrest⟩ := List.nodup_cons.1 hnodup
    obtain ⟨entry, hentry⟩ := htracked first List.mem_cons_self
    simp only [refreshAll, hentry]
    cases hrefresh : refresh round first entry with
    | error failure =>
      exact ⟨[], first :: rest, _, rfl, .refl round,
        Or.inr ⟨first, rest, entry, failure, rfl, hentry, hrefresh, rfl⟩⟩
    | ok next =>
      have hnext : ∀ handle ∈ rest, ∃ e, next.propagator.tracked.get? handle = some e := by
        intro handle hhandle
        have hne : handle ≠ first := fun heq => hfirst (heq ▸ hhandle)
        obtain ⟨solver, linear, slot, heq⟩ := (refresh_eq_ok hrefresh).1.exists_eq
        rw [heq, InsertionMap.get?_insert_of_ne _ _ hne]
        exact htracked handle (List.mem_cons_of_mem _ hhandle)
      obtain ⟨done, left, requests, hhandles, hswept, houtcome⟩ := ih hrest next hnext
      have hnew : first ∉ done := fun hmem => hfirst (hhandles ▸ List.mem_append_left left hmem)
      obtain ⟨requests', hswept'⟩ := hswept.cons hnew hentry hrefresh
      exact ⟨first :: done, left, requests', by rw [hhandles, List.cons_append], hswept', houtcome⟩

theorem pairwise_affected (p : Propagator σ) (changed : List (ConstantChange Float)) :
    (p.affected changed).Pairwise (· < ·) := by
  have hsorted : (p.affected changed).Pairwise (· ≤ ·) := List.pairwise_mergeSort' (· ≤ ·) _
  refine (hsorted.and (nodup_affected p changed)).imp fun h => ?_
  exact lt_of_le_of_ne h.1 h.2

theorem InStep.mem_affected_iff (hp : p.InStep) {changed : List (ConstantChange Float)}
    {handle : Handle} :
    handle ∈ p.affected changed ↔ ∃ entry, p.tracked.get? handle = some entry ∧
      ∃ change ∈ changed, change.id ∈ entry.definition.constants := by
  simp only [mem_affected, hp.indexed.mem_handlesFor_iff]
  constructor
  · rintro ⟨change, hchange, entry, hentry, hmentioned⟩
    exact ⟨entry, hentry, change, hchange, hmentioned⟩
  · rintro ⟨entry, hentry, change, hchange, hmentioned⟩
    exact ⟨change, hchange, entry, hentry, hmentioned⟩

theorem exists_round_eq_refreshAll (p : Propagator σ) (update : ConstantUpdate Float) :
    ∃ log, p.round update =
      refreshAll { propagator := { p with log } } (p.affected update.changed) := by
  obtain ⟨log, hlog⟩ := exists_warned_eq p update.id update.warnings
  refine ⟨log, ?_⟩
  rw [round, hlog]
  rfl

/-- A round sweeps the constraints that mention a changed constant, all of them or up to
the first one that is stuck. -/
theorem InStep.exists_swept_of_round (hp : p.InStep) (update : ConstantUpdate Float) :
    ∃ log done rest requests, p.affected update.changed = done ++ rest ∧
      Swept { propagator := { p with log } } (p.round update).1 done requests ∧
      ((rest = [] ∧ (p.round update).2 = .ok ()) ∨
        ∃ handle later entry failure, rest = handle :: later ∧
          p.tracked.get? handle = some entry ∧
          (p.round update).1.propagator.Stuck handle entry failure ∧
          (p.round update).2 = .error failure) := by
  have hround := (hp.round update).1
  obtain ⟨log, heq⟩ := p.exists_round_eq_refreshAll update
  rw [heq] at hround ⊢
  have hnodup := nodup_affected p update.changed
  obtain ⟨done, rest, requests, hhandles, hswept, hcase⟩ :=
    exists_swept hnodup { propagator := { p with log } }
      fun handle hhandle => (hp.mem_affected_iff.1 hhandle).imp fun _ h => h.1
  refine ⟨log, done, rest, requests, hhandles, hswept, ?_⟩
  rcases hcase with hall | ⟨handle, later, entry, failure, rfl, hentry, hrefresh, hfailure⟩
  · exact Or.inl hall
  · right
    have hstuck := hround.stuck_of_refresh hentry hrefresh
    rw [hhandles] at hnodup
    have hleft : handle ∉ done :=
      fun hmem => List.disjoint_of_nodup_append hnodup hmem List.mem_cons_self
    rw [hswept.others handle hleft] at hentry
    exact ⟨handle, later, entry, failure, rfl, hentry, hstuck, hfailure⟩

/-- A round that is not interrupted sweeps them all. -/
theorem InStep.exists_swept_round (hp : p.InStep) {update : ConstantUpdate Float}
    (hok : (p.round update).2 = .ok ()) :
    ∃ log requests, Swept { propagator := { p with log } } (p.round update).1
      (p.affected update.changed) requests := by
  obtain ⟨log, done, rest, requests, hhandles, hswept, ⟨rfl, -⟩ | ⟨_, _, _, _, -, -, -, herror⟩⟩ :=
    hp.exists_swept_of_round update
  · rw [List.append_nil] at hhandles
    exact ⟨log, requests, hhandles ▸ hswept⟩
  · rw [hok] at herror
    cases herror

/-- After a round that has succeeded the solver is asked to optimize if it has been asked
for anything. -/
theorem calls_of_propagate_eq_ok {update : ConstantUpdate Float} {report : PropagationReport}
    (h : (p.propagate update).2 = .ok report) :
    (p.propagate update).1.tracked = (p.round update).1.propagator.tracked ∧
      (p.propagate update).1.solver.calls = (p.round update).1.propagator.solver.calls ++
        if report.reoptimized then [.reoptimize] else [] := by
  obtain ⟨hround, -, -, hreoptimized⟩ := propagate_eq_ok h
  rw [hreoptimized]
  unfold propagate
  generalize p.round update = result at hround ⊢
  obtain ⟨round, outcome⟩ := result
  dsimp only at hround
  subst hround
  by_cases htouched : round.touched = true
  · simp [htouched, Recorder.reoptimize, Recorder.record]
  · simp [htouched]

/-- What a setting that succeeds has asked of the solver, in any state of any run. The table
has accepted the definition with the reported update. The constraints that were linearized again are those that mention a changed constant, in
ascending order. Each of them was updated in one of the four ways, in this order, with its
requests; if there were any, one request to optimize came last. All other constraints are
as they were. -/
theorem requests_of_setConstant (table : ConstantTable Float) (log : Log WarningKey)
    (policy : ConstantOnlyPolicy) (tolerance : Float) (steps : List (PropagatorStep σ))
    (answers : SolverAnswers σ) (id : ConstantId) (input : Formula Float)
    (report : PropagationReport)
    (hok : ((((start table log policy tolerance).run steps).facing answers).setConstant id
      input).result = .ok report) :
    let before : Propagator σ := ((start table log policy tolerance).run steps).facing answers
    let after : Propagator σ := (before.setConstant id input).propagator
    before.table.set id input = .ok (after.table, report.update) ∧
      report.relinearized.Pairwise (· < ·) ∧
      (∀ handle, handle ∈ report.relinearized ↔ ∃ entry,
        before.tracked.get? handle = some entry ∧
          ∃ change ∈ report.update.changed, change.id ∈ entry.definition.constants) ∧
      (∃ requests : Handle → List (SolverCall σ),
        (∀ handle ∈ report.relinearized, ∃ entry entry',
          before.tracked.get? handle = some entry ∧ after.tracked.get? handle = some entry' ∧
            after.Updated entry entry' (requests handle)) ∧
        after.solver.calls = before.solver.calls ++ report.relinearized.flatMap requests ++
          (if report.reoptimized then [.reoptimize] else []) ∧
        (report.reoptimized = true ↔ report.relinearized.flatMap requests ≠ [])) ∧
      ∀ handle ∉ report.relinearized, after.tracked.get? handle = before.tracked.get? handle := by
  intro before after
  have hbefore : before.InStep :=
    (inStep_run (inStep_start table log policy tolerance) steps).facing answers
  obtain ⟨table', hset, hafter, hpropagate⟩ := setConstant_eq_ok hok
  have htable : ({ before with table := table' } : Propagator σ).InStep :=
    hbefore.congr rfl rfl rfl rfl rfl rfl
  obtain ⟨hround, -, hrelinearized, hreoptimized⟩ := propagate_eq_ok hpropagate
  obtain ⟨htracked, hcalls⟩ := calls_of_propagate_eq_ok hpropagate
  obtain ⟨log', requests, hswept⟩ := htable.exists_swept_round hround
  have hall : report.relinearized =
      ({ before with table := table' } : Propagator σ).affected report.update.changed := by
    rw [hrelinearized, hswept.relinearized_eq, List.nil_append]
  rw [← hafter] at htracked hcalls
  refine ⟨?_, ?_, fun handle => ?_, ⟨requests, fun handle hhandle => ?_, ?_, ?_⟩,
    fun handle hhandle => ?_⟩
  · exact set_of_setConstant_eq_ok hok
  · rw [hall]
    exact pairwise_affected _ _
  · rw [hall]
    exact htable.mem_affected_iff
  · obtain ⟨entry, entry', hentry, hentry', hupdated⟩ := hswept.updated handle (hall ▸ hhandle)
    obtain ⟨solver, tracked, hframe⟩ := hswept.frame
    obtain ⟨-, ⟨htable', hpolicy, htolerance⟩, -⟩ := setConstant_of_set hset
    rw [hframe] at hupdated
    exact ⟨entry, entry', hentry, htracked ▸ hentry', hupdated.congr htable' hpolicy htolerance⟩
  · rw [hcalls, hswept.calls_eq, hall]
  · rw [hreoptimized, hswept.touched_iff, hall]
    simp
  · rw [htracked]
    exact hswept.others handle (hall ▸ hhandle)

/-- A constraint that is installed in the form for 2 is replaced when the constant is set
to 4. -/
theorem requests_of_setConstant_pinned :
    let before : Propagator Nat :=
      ((start ∅ { devMode := true } .reject defaultTolerance).run pinnedSteps).facing {}
    let after : Propagator Nat := (before.setConstant 1 (.literal 4)).propagator
    (∃ report, (before.setConstant 1 (.literal 4)).result = .ok report ∧
      before.table.set 1 (.literal 4) = .ok (after.table, report.update) ∧
      report.relinearized = [1]) ∧
      after.solver.calls = before.solver.calls ++ [.replace 1 (pinnedForm 4), .reoptimize] := by
  intro before after
  obtain ⟨hok, -⟩ := setConstant_pinned
  rw [← run_pinnedSteps] at hok
  obtain ⟨hset, -, -, ⟨requests, hupdated, hcalls, -⟩, -⟩ := requests_of_setConstant ∅
    { devMode := true } .reject defaultTolerance pinnedSteps {} 1 (.literal 4) _ hok
  refine ⟨⟨_, hok, hset, rfl⟩, ?_⟩
  obtain ⟨entry, entry', hentry, -, hentry'⟩ := hupdated 1 (List.mem_singleton_self 1)
  have hrequests : [1].flatMap requests = [.replace 1 (pinnedForm 4)] := by
    rw [run_pinnedSteps] at hentry hentry'
    obtain rfl : pinnedEntry 2 = entry := Option.some.inj hentry
    have hset := set_numbered (v := 3) (w := 4) (by decide)
    have htable := (setConstant_of_set (p := pinnedAt 2 3) hset).2.1.1
    have hform : ((pinnedAt 2 3).setConstant 1 (.literal 4)).propagator.linearize pinned 1 =
        .ok (pinnedForm 4) :=
      linearize_pinned (by rw [htable]; rfl) (by decide +kernel)
    rw [List.flatMap_singleton]
    exact hentry'.requests_eq_replace rfl hform
  rw [hcalls, List.append_assoc]
  change _ ++ ([1].flatMap requests ++ _) = _
  rw [hrequests]
  rfl

end Propagator

end NamedConstants
