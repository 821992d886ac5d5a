import NamedConstants.Propagation.Update
import NamedConstants.Proofs.Propagation.Registry

/-!
What a round of propagation does, one constraint at a time. A refreshed constraint is
replaced, attached, detached, or stays detached; nothing else is written. A property
that each of these four keeps is kept by the whole round, also by one that stops early.
-/
namespace NamedConstants

/-- A failure after the table has taken the definition: a constraint could not be
linearized again, or the solver has refused. -/
def PropagationFailure.Interrupts : PropagationFailure → Prop
  | constant (.relinearizationFailed _ _) => True
  | infeasible _ => True
  | _ => False

namespace Propagator

variable {σ : Type}

/-- The four ways in which refreshing a tracked constraint succeeds. -/
inductive Refreshed (p : Propagator σ) (handle : Handle) (entry : Tracked σ) :
    Propagator σ → Prop where
  | replaced (token : SolverToken) (linear : LinearConstraint Float σ) (solver : Recorder σ)
      (hlinear : p.linearize entry.definition entry.strength = .ok linear)
      (hslot : entry.slot = .installed token)
      (hsolver : p.solver.replace token linear = .ok solver) :
      Refreshed p handle entry
        ({ p with solver }.place handle entry (some linear) (.installed token))
  | attached (token : SolverToken) (linear : LinearConstraint Float σ) (solver : Recorder σ)
      (hlinear : p.linearize entry.definition entry.strength = .ok linear)
      (hslot : entry.slot = .detached)
      (hsolver : p.solver.install linear = .ok (token, solver)) :
      Refreshed p handle entry
        ({ p with solver }.place handle entry (some linear) (.installed token))
  | detached (token : SolverToken) (fault : LinearizeFault Float) (solver : Recorder σ)
      (hlinear : p.linearize entry.definition entry.strength = .error fault)
      (htolerates : p.Tolerates fault)
      (hslot : entry.slot = .installed token)
      (hsolver : p.solver.remove token = .ok solver) :
      Refreshed p handle entry ({ p with solver }.place handle entry none .detached)
  | stayed (fault : LinearizeFault Float)
      (hlinear : p.linearize entry.definition entry.strength = .error fault)
      (htolerates : p.Tolerates fault)
      (hslot : entry.slot = .detached) :
      Refreshed p handle entry (p.place handle entry none .detached)

/-- Why the refresh of a constraint fails although the solver has its token: it cannot be
linearized with the values of now, or the solver refuses what it has become. -/
inductive Stuck (p : Propagator σ) (handle : Handle) (entry : Tracked σ) :
    PropagationFailure → Prop where
  | unlinearizable (fault : LinearizeFault Float)
      (hlinear : p.linearize entry.definition entry.strength = .error fault)
      (hfatal : ¬ p.Tolerates fault) :
      Stuck p handle entry (.constant (.relinearizationFailed handle fault))
  | refused (linear : LinearConstraint Float σ) (detail : String)
      (hlinear : p.linearize entry.definition entry.strength = .ok linear)
      (hrefusal : p.solver.refusal p.solver.calls linear = some detail) :
      Stuck p handle entry (.infeasible { detail })

theorem Stuck.interrupts {p : Propagator σ} {handle : Handle} {entry : Tracked σ}
    {failure : PropagationFailure} (h : p.Stuck handle entry failure) : failure.Interrupts := by
  cases h <;> trivial

/-- A refresh succeeds in one of the four ways, or it fails: it is stuck, or it is about a
token that is not installed. -/
theorem refresh_cases (round : Round σ) (handle : Handle) (entry : Tracked σ) :
    (∃ next, refresh round handle entry = .ok next ∧
      Refreshed round.propagator handle entry next.propagator ∧
      next.relinearized = round.relinearized ++ [handle]) ∨
    ∃ failure, refresh round handle entry = .error failure ∧
      (round.propagator.Stuck handle entry failure ∨
        ∃ misuse token, failure = .misuse misuse ∧ entry.slot = .installed token ∧
          round.propagator.solver.installed.contains token = false) := by
  unfold refresh
  cases hlinear : round.propagator.linearize entry.definition entry.strength with
  | ok linear =>
    simp only [send]
    cases hslot : entry.slot with
    | installed token =>
      dsimp only
      cases hsolver : round.propagator.solver.replace token linear with
      | ok solver =>
        exact Or.inl ⟨_, rfl, .replaced token linear solver hlinear hslot hsolver, rfl⟩
      | error failure =>
        refine Or.inr ⟨_, rfl, ?_⟩
        rcases Recorder.replace_eq_error hsolver with
          ⟨hnot, misuse, rfl⟩ | ⟨detail, hrefusal, rfl⟩
        · exact Or.inr ⟨misuse, token, rfl, rfl, hnot⟩
        · exact Or.inl (.refused linear detail hlinear hrefusal)
    | detached =>
      dsimp only
      cases hsolver : round.propagator.solver.install linear with
      | ok result =>
        exact Or.inl ⟨_, rfl, .attached result.1 linear result.2 hlinear hslot hsolver, rfl⟩
      | error infeasible =>
        have hrefusal := Recorder.install_eq_error hsolver
        exact Or.inr ⟨_, rfl, Or.inl (.refused linear infeasible.detail hlinear hrefusal)⟩
  | error fault =>
    dsimp only
    by_cases htolerates : round.propagator.Tolerates fault
    · rw [if_pos htolerates]
      simp only [withdraw]
      cases hslot : entry.slot with
      | installed token =>
        dsimp only
        cases hsolver : round.propagator.solver.remove token with
        | ok solver =>
          exact Or.inl ⟨_, rfl, .detached token fault solver hlinear htolerates hslot hsolver, rfl⟩
        | error m =>
          exact Or.inr ⟨_, rfl, Or.inr
            ⟨m, token, rfl, rfl, Recorder.not_contains_of_remove_misuse hsolver⟩⟩
      | detached => exact Or.inl ⟨_, rfl, .stayed fault hlinear htolerates hslot, rfl⟩
    · rw [if_neg htolerates]
      exact Or.inr ⟨_, rfl, Or.inl (.unlinearizable fault hlinear htolerates)⟩

theorem refresh_eq_ok {round next : Round σ} {handle : Handle} {entry : Tracked σ}
    (h : refresh round handle entry = .ok next) :
    Refreshed round.propagator handle entry next.propagator ∧
      next.relinearized = round.relinearized ++ [handle] := by
  rcases refresh_cases round handle entry with ⟨next', heq, hnext⟩ | ⟨failure, heq, -⟩
  · rw [h, Except.ok.injEq] at heq
    exact heq ▸ hnext
  · rw [h] at heq
    cases heq

theorem refresh_eq_error {round : Round σ} {handle : Handle} {entry : Tracked σ}
    {failure : PropagationFailure} (h : refresh round handle entry = .error failure) :
    round.propagator.Stuck handle entry failure ∨ ∃ misuse token, failure = .misuse misuse ∧
      entry.slot = .installed token ∧
      round.propagator.solver.installed.contains token = false := by
  rcases refresh_cases round handle entry with ⟨next, heq, -⟩ | ⟨failure', heq, hfailure⟩
  · rw [h] at heq
    cases heq
  · rw [h, Except.error.injEq] at heq
    exact heq ▸ hfailure

/-- Refreshing writes the solver and the entry of the constraint, and nothing else. -/
theorem Refreshed.exists_eq {p p' : Propagator σ} {handle : Handle} {entry : Tracked σ}
    (h : Refreshed p handle entry p') :
    ∃ solver linear slot, p' =
      { p with solver, tracked := p.tracked.insert handle { entry with linear, slot } } := by
  cases h with
  | replaced token linear solver => exact ⟨solver, some linear, .installed token, rfl⟩
  | attached token linear solver => exact ⟨solver, some linear, .installed token, rfl⟩
  | detached token fault solver => exact ⟨solver, none, .detached, rfl⟩
  | stayed fault => exact ⟨p.solver, none, .detached, rfl⟩

theorem Indexed.of_refreshed {p p' : Propagator σ} (hp : p.Indexed) {handle : Handle}
    {entry : Tracked σ} (hentry : p.tracked.get? handle = some entry)
    (h : Refreshed p handle entry p') : p'.Indexed := by
  obtain ⟨solver, linear, slot, rfl⟩ := h.exists_eq
  constructor
  · intro k id
    have hiff := hp.mem_handlesFor_iff k id
    rw [InsertionMap.get?_insert]
    by_cases hk : k = handle
    · subst hk
      simpa [hentry, handlesFor] using hiff
    · simpa [hk, handlesFor] using hiff
  · intro k hk
    have hnone := hp.fresh k hk
    have hne : k ≠ handle := by
      rintro rfl
      rw [hnone] at hentry
      cases hentry
    rw [InsertionMap.get?_insert, if_neg hne, hnone]

/-- What every refresh keeps is kept by a whole round, and where the round stops too. -/
theorem refreshAll_induction {P : Propagator σ → Prop}
    (hstep : ∀ p handle entry p', P p → p.tracked.get? handle = some entry →
      Refreshed p handle entry p' → P p')
    (handles : List Handle) (round : Round σ) (h : P round.propagator) :
    P (refreshAll round handles).1.propagator ∧
      ∀ failure, (refreshAll round handles).2 = .error failure →
        ∃ stopped handle entry, P stopped.propagator ∧
          stopped.propagator.tracked.get? handle = some entry ∧
          refresh stopped handle entry = .error failure := by
  induction handles generalizing round with
  | nil =>
    refine ⟨h, fun failure hfailure => ?_⟩
    cases hfailure
  | cons handle rest ih =>
    unfold refreshAll
    cases hentry : round.propagator.tracked.get? handle with
    | none => exact ih round h
    | some entry =>
      dsimp only
      cases hrefresh : refresh round handle entry with
      | error failure =>
        refine ⟨h, fun failure' hfailure => ?_⟩
        cases hfailure
        exact ⟨round, handle, entry, h, hentry, hrefresh⟩
      | ok next => exact ih next (hstep _ _ _ _ h hentry (refresh_eq_ok hrefresh).1)

theorem exists_refreshAll_eq (handles : List Handle) (round : Round σ) :
    ∃ solver tracked, (refreshAll round handles).1.propagator =
      { round.propagator with solver, tracked } := by
  refine (refreshAll_induction (P := fun p => ∃ solver tracked, p =
    { round.propagator with solver, tracked }) ?_ handles round ⟨_, _, rfl⟩).1
  rintro p handle entry p' ⟨solver, tracked, rfl⟩ - hrefreshed
  obtain ⟨solver', linear, slot, rfl⟩ := hrefreshed.exists_eq
  exact ⟨solver', _, rfl⟩

/-- A round does not touch the constraints that it is not about. -/
theorem refreshAll_of_not_mem {handles : List Handle} (round : Round σ) {handle : Handle}
    (h : handle ∉ handles) :
    (refreshAll round handles).1.propagator.tracked.get? handle =
        round.propagator.tracked.get? handle ∧
      (handle ∈ (refreshAll round handles).1.relinearized ↔ handle ∈ round.relinearized) := by
  induction handles generalizing round with
  | nil => exact ⟨rfl, Iff.rfl⟩
  | cons first rest ih =>
    rw [List.mem_cons, not_or] at h
    obtain ⟨hne, hrest⟩ := h
    unfold refreshAll
    cases hentry : round.propagator.tracked.get? first with
    | none => exact ih round hrest
    | some entry =>
      dsimp only
      cases hrefresh : refresh round first entry with
      | error failure => exact ⟨rfl, Iff.rfl⟩
      | ok next =>
        obtain ⟨hrefreshed, hrelinearized⟩ := refresh_eq_ok hrefresh
        obtain ⟨solver, linear, slot, hnext⟩ := hrefreshed.exists_eq
        obtain ⟨htracked, hmem⟩ := ih next hrest
        dsimp only
        rw [htracked, hmem, hrelinearized, hnext]
        constructor
        · exact InsertionMap.get?_insert_of_ne _ _ hne
        · simp [hne]

/-- Refreshing constraints rewrites neither a definition nor a strength. -/
theorem exists_entry_of_refreshAll (handles : List Handle) (round : Round σ) {handle : Handle}
    {entry' : Tracked σ}
    (h : (refreshAll round handles).1.propagator.tracked.get? handle = some entry') :
    ∃ entry, round.propagator.tracked.get? handle = some entry ∧
      entry'.definition = entry.definition ∧ entry'.strength = entry.strength := by
  refine (refreshAll_induction (P := fun q => ∀ k e', q.tracked.get? k = some e' →
    ∃ e, round.propagator.tracked.get? k = some e ∧ e'.definition = e.definition ∧
      e'.strength = e.strength) ?_ handles round
    (fun k e' he' => ⟨e', he', rfl, rfl⟩)).1 handle entry' h
  intro q other entry q' hq hentry hrefreshed k e' he'
  obtain ⟨solver, linear, slot, rfl⟩ := hrefreshed.exists_eq
  by_cases hk : k = other
  · subst hk
    have heq := he'.symm.trans (InsertionMap.get?_insert_self _ _ _)
    rw [Option.some.injEq] at heq
    rw [heq]
    exact hq k entry hentry
  · rw [InsertionMap.get?_insert_of_ne _ _ hk] at he'
    exact hq k e' he'

theorem nodup_affected (p : Propagator σ) (changed : List (ConstantChange Float)) :
    (p.affected changed).Nodup :=
  (List.mergeSort_perm _ _).nodup_iff.2 (InsertionSet.nodup _)

theorem mem_affected {p : Propagator σ} {changed : List (ConstantChange Float)} {handle : Handle} :
    handle ∈ p.affected changed ↔ ∃ change ∈ changed, handle ∈ p.handlesFor change.id := by
  unfold affected
  rw [List.mem_mergeSort, ← InsertionSet.mem_iff, InsertionSet.mem_ofList, List.mem_flatMap]
  rfl

/-- Reporting unresolved dependents writes to the log only. -/
theorem exists_warned_eq (p : Propagator σ) (id : ConstantId)
    (warnings : List (DependentWarning Float)) :
    ∃ log, warnings.foldl (warnDependent id) p = { p with log } := by
  induction warnings generalizing p with
  | nil => exact ⟨p.log, rfl⟩
  | cons warning warnings ih =>
    obtain ⟨log, hlog⟩ := ih (warnDependent id p warning)
    exact ⟨log, hlog⟩

/-- A round leaves the table, the options and the index as they are. -/
theorem exists_round_eq (p : Propagator σ) (update : ConstantUpdate Float) :
    ∃ solver log tracked, (p.round update).1.propagator = { p with solver, log, tracked } := by
  obtain ⟨log, hlog⟩ := exists_warned_eq p update.id update.warnings
  unfold round
  rw [hlog]
  obtain ⟨solver, tracked, heq⟩ := exists_refreshAll_eq
    (({ p with log } : Propagator σ).affected update.changed)
    { propagator := ({ p with log } : Propagator σ) }
  exact ⟨solver, log, tracked, heq⟩

/-- After a round the solver is at most asked to optimize. -/
theorem exists_propagate_eq (p : Propagator σ) (update : ConstantUpdate Float) :
    ∃ solver, (p.propagate update).1 = { (p.round update).1.propagator with solver } ∧
      (solver = (p.round update).1.propagator.solver ∨
        solver = (p.round update).1.propagator.solver.record .reoptimize) := by
  unfold propagate
  obtain ⟨round, outcome⟩ := p.round update
  cases outcome with
  | error failure => exact ⟨_, rfl, Or.inl rfl⟩
  | ok _ =>
    by_cases htouched : round.touched = true
    · exact ⟨_, by simp [htouched, Recorder.reoptimize], Or.inr rfl⟩
    · exact ⟨_, by simp [htouched], Or.inl rfl⟩

theorem propagate_of_round_eq_error {p : Propagator σ} {update : ConstantUpdate Float}
    {failure : PropagationFailure} (h : (p.round update).2 = .error failure) :
    (p.propagate update).2 = .error failure := by
  unfold propagate
  generalize p.round update = result at h ⊢
  obtain ⟨round, outcome⟩ := result
  dsimp only at h
  rw [h]

/-- A propagation fails where its round has stopped, or when the solver is asked to
optimize after the round; it has recorded that request then. -/
theorem propagate_eq_error {p : Propagator σ} {update : ConstantUpdate Float}
    {failure : PropagationFailure} (h : (p.propagate update).2 = .error failure) :
    ((p.round update).2 = .error failure ∧
        (p.propagate update).1 = (p.round update).1.propagator) ∨
      ∃ detail, (p.round update).2 = .ok () ∧ (p.round update).1.touched = true ∧
        (p.round update).1.propagator.solver.optimizeFailure = some detail ∧
        failure = .infeasible { detail } ∧
        (p.propagate update).1 =
          { (p.round update).1.propagator with
            solver := (p.round update).1.propagator.solver.record .reoptimize } := by
  unfold propagate at h ⊢
  generalize p.round update = result at h ⊢
  obtain ⟨round, outcome⟩ := result
  cases outcome with
  | error failure' => exact Or.inl ⟨by simpa using h, rfl⟩
  | ok _ =>
    by_cases htouched : round.touched = true
    · cases hfailure : round.propagator.solver.optimizeFailure with
      | none => simp [htouched, Recorder.reoptimize, hfailure] at h
      | some detail =>
        simp only [htouched, if_true, Recorder.reoptimize, hfailure, Except.error.injEq] at h
        refine Or.inr ⟨detail, rfl, htouched, rfl, h.symm, ?_⟩
        simp only [htouched, if_true, Recorder.reoptimize]
    · simp [htouched] at h

/-- Once the table has taken a definition, a failure is no longer the table's. -/
theorem propagate_ne_resolution (p : Propagator σ) (update : ConstantUpdate Float)
    (fault : ResolutionFault Float) :
    (p.propagate update).2 ≠ .error (.constant (.resolution fault)) := by
  intro h
  rcases propagate_eq_error h with ⟨hround, -⟩ | ⟨detail, -, -, -, hfailure, -⟩
  · obtain ⟨stopped, handle, entry, -, -, hrefresh⟩ :=
      (refreshAll_induction (P := fun _ => True) (fun _ _ _ _ _ _ _ => trivial) _ _ trivial).2
        _ hround
    rcases refresh_eq_error hrefresh with hstuck | ⟨misuse, -, hmisuse, -⟩
    · exact hstuck.interrupts
    · cases hmisuse
  · cases hfailure

theorem propagate_eq_ok {p : Propagator σ} {update : ConstantUpdate Float}
    {report : PropagationReport} (h : (p.propagate update).2 = .ok report) :
    (p.round update).2 = .ok () ∧ report.update = update ∧
      report.relinearized = (p.round update).1.relinearized ∧
      report.reoptimized = (p.round update).1.touched := by
  unfold propagate at h
  generalize p.round update = result at h ⊢
  obtain ⟨round, outcome⟩ := result
  cases outcome with
  | error failure => cases h
  | ok _ =>
    dsimp only at h
    split at h
    · dsimp only at h
      split at h
      · cases h
      · cases h
        exact ⟨rfl, rfl, rfl, rfl⟩
    · cases h
      exact ⟨rfl, rfl, rfl, rfl⟩

/-- Setting a constant either stops at the table or runs one propagation. -/
theorem setConstant_cases (p : Propagator σ) (id : ConstantId) (input : Formula Float) :
    (∃ fault, p.table.set id input = .error fault ∧ (p.setConstant id input).propagator = p ∧
        (p.setConstant id input).result = .error (.constant (.resolution fault))) ∨
      ∃ table update, p.table.set id input = .ok (table, update) ∧
        (p.setConstant id input).propagator = ({ p with table }.propagate update).1 ∧
        (p.setConstant id input).result = ({ p with table }.propagate update).2 := by
  unfold setConstant
  cases hset : p.table.set id input with
  | error fault => exact Or.inl ⟨fault, rfl, rfl, rfl⟩
  | ok result => exact Or.inr ⟨result.1, result.2, rfl, rfl, rfl⟩

/-- After an accepted definition the propagator is where its round has led, with the new
table, and a round that has stopped is the failure of the call. -/
theorem setConstant_of_set {p : Propagator σ} {id : ConstantId} {input : Formula Float}
    {table : ConstantTable Float} {update : ConstantUpdate Float}
    (h : p.table.set id input = .ok (table, update)) :
    (∃ solver, (p.setConstant id input).propagator =
        { (({ p with table } : Propagator σ).round update).1.propagator with solver }) ∧
      ((p.setConstant id input).propagator.table = table ∧
        (p.setConstant id input).propagator.policy = p.policy ∧
        (p.setConstant id input).propagator.tolerance = p.tolerance) ∧
      ∀ failure, (({ p with table } : Propagator σ).round update).2 = .error failure →
        (p.setConstant id input).result = .error failure := by
  have hpropagator : (p.setConstant id input).propagator =
      (({ p with table } : Propagator σ).propagate update).1 := by
    simp only [setConstant, h]
  have hresult : (p.setConstant id input).result =
      (({ p with table } : Propagator σ).propagate update).2 := by
    simp only [setConstant, h]
  obtain ⟨solver, hpropagate, -⟩ := ({ p with table } : Propagator σ).exists_propagate_eq update
  obtain ⟨solver', log, tracked, hround⟩ :=
    ({ p with table } : Propagator σ).exists_round_eq update
  refine ⟨⟨solver, hpropagator.trans hpropagate⟩, ?_, fun failure hfailure => ?_⟩
  · rw [hpropagator, hpropagate, hround]
    exact ⟨rfl, rfl, rfl⟩
  · rw [hresult]
    exact propagate_of_round_eq_error hfailure

/-- A setting that succeeds has passed on the update that it reports. -/
theorem setConstant_eq_ok {p : Propagator σ} {id : ConstantId} {input : Formula Float}
    {report : PropagationReport} (h : (p.setConstant id input).result = .ok report) :
    ∃ table, p.table.set id input = .ok (table, report.update) ∧
      (p.setConstant id input).propagator = ({ p with table }.propagate report.update).1 ∧
      (({ p with table } : Propagator σ).propagate report.update).2 = .ok report := by
  rcases p.setConstant_cases id input with ⟨fault, -, -, heq⟩ | ⟨table, update, hset, hafter, heq⟩
  · rw [heq] at h
    cases h
  · have hpropagate := heq.symm.trans h
    obtain ⟨-, rfl, -⟩ := propagate_eq_ok hpropagate
    exact ⟨table, hset, hafter, hpropagate⟩

/-- What a setting reports is what the table has done. -/
theorem set_of_setConstant_eq_ok {p : Propagator σ} {id : ConstantId} {input : Formula Float}
    {report : PropagationReport} (h : (p.setConstant id input).result = .ok report) :
    p.table.set id input = .ok ((p.setConstant id input).propagator.table, report.update) := by
  obtain ⟨table, hset, -⟩ := setConstant_eq_ok h
  rw [hset, (setConstant_of_set hset).2.1.1]

section Outcomes

variable {p : Propagator σ} {id : ConstantId} {input : Formula Float}

/-- A call that changes no mentioned constant and has nothing to warn of succeeds. -/
theorem setConstant_of_unmentioned {table : ConstantTable Float} {update : ConstantUpdate Float}
    (hset : p.table.set id input = .ok (table, update)) (hwarnings : update.warnings = [])
    (hunmentioned : ∀ change ∈ update.changed, ∀ handle, handle ∉ p.handlesFor change.id) :
    p.setConstant id input =
      { propagator := { p with table }, update? := some update
        result := .ok { update, relinearized := [], reoptimized := false } } := by
  have haffected : ({ p with table } : Propagator σ).affected update.changed = [] := by
    apply List.eq_nil_iff_forall_not_mem.2
    intro handle hmem
    obtain ⟨change, hchange, hlisted⟩ := mem_affected.1 hmem
    exact hunmentioned change hchange handle hlisted
  simp only [setConstant, hset, propagate, round, hwarnings, List.foldl_nil, haffected, refreshAll]
  rfl

/-- A call that stops at the first affected constraint has changed the table only. -/
theorem setConstant_of_refresh_error {table : ConstantTable Float}
    {update : ConstantUpdate Float} (hset : p.table.set id input = .ok (table, update))
    (hwarnings : update.warnings = []) {handle : Handle} {rest : List Handle}
    (haffected : ({ p with table } : Propagator σ).affected update.changed = handle :: rest)
    {entry : Tracked σ} (hentry : p.tracked.get? handle = some entry)
    {failure : PropagationFailure}
    (hrefresh : refresh { propagator := ({ p with table } : Propagator σ) } handle entry =
      .error failure) :
    p.setConstant id input =
      { propagator := { p with table }, update? := some update, result := .error failure } := by
  simp only [setConstant, hset, propagate, round, hwarnings, List.foldl_nil, haffected, refreshAll,
    hentry, hrefresh]

/-- An installed constraint that has no variables left is withdrawn. -/
theorem refresh_of_noVariables {round : Round σ} {handle : Handle} {entry : Tracked σ}
    {token : SolverToken} {fault : LinearizeFault Float} {solver : Recorder σ}
    (hslot : entry.slot = .installed token)
    (hlinear : round.propagator.linearize entry.definition entry.strength = .error fault)
    (htolerates : round.propagator.Tolerates fault)
    (hremove : round.propagator.solver.remove token = .ok solver) :
    refresh round handle entry =
      .ok
        { propagator := { round.propagator with solver }.place handle entry none .detached
          relinearized := round.relinearized ++ [handle]
          touched := true } := by
  simp only [refresh, hlinear, htolerates, if_true, withdraw, hslot, hremove, Bool.or_true]

/-- A detached constraint that has variables again is installed. -/
theorem refresh_of_detached {round : Round σ} {handle : Handle} {entry : Tracked σ}
    {linear : LinearConstraint Float σ} {token : SolverToken} {solver : Recorder σ}
    (hslot : entry.slot = .detached)
    (hlinear : round.propagator.linearize entry.definition entry.strength = .ok linear)
    (hinstall : round.propagator.solver.install linear = .ok (token, solver)) :
    refresh round handle entry =
      .ok
        { propagator :=
            { round.propagator with solver }.place handle entry (some linear) (.installed token)
          relinearized := round.relinearized ++ [handle]
          touched := true } := by
  simp only [refresh, hlinear, send, hslot, hinstall]

/-- A call that refreshes one constraint and sends the solver a change succeeds if the solver
optimizes, and leaves what the refresh has made, apart from the request to optimize. -/
theorem setConstant_of_refresh_ok {table : ConstantTable Float} {update : ConstantUpdate Float}
    (hset : p.table.set id input = .ok (table, update)) (hwarnings : update.warnings = [])
    {handle : Handle}
    (haffected : ({ p with table } : Propagator σ).affected update.changed = [handle])
    {entry : Tracked σ} (hentry : p.tracked.get? handle = some entry) {next : Round σ}
    (hrefresh : refresh { propagator := ({ p with table } : Propagator σ) } handle entry =
      .ok next)
    (htouched : next.touched = true)
    (hoptimizes : next.propagator.solver.optimizeFailure = none) :
    p.setConstant id input =
      { propagator := { next.propagator with solver := next.propagator.solver.record .reoptimize }
        update? := some update
        result := .ok { update, relinearized := next.relinearized, reoptimized := true } } := by
  simp only [setConstant, hset, propagate, round, hwarnings, List.foldl_nil, haffected, refreshAll,
    hentry, hrefresh, htouched, if_true, Recorder.reoptimize, hoptimizes]

end Outcomes

end Propagator

end NamedConstants
