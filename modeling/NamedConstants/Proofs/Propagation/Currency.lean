import NamedConstants.Proofs.Constants.Changes
import NamedConstants.Proofs.Linear.Reading
import NamedConstants.Proofs.Propagation.InStep

/-!
Propagation against linearizing everything anew. A round reaches every constraint that
mentions a changed constant, unless it is interrupted; a constraint that it does not
reach becomes overdue, until some later round reaches it. All the others have the form
that linearizing them now gives, since a form depends on the mentioned constants only.
-/
namespace NamedConstants.Propagator

variable {σ : Type} {p p' : Propagator σ}

/-- What is stored for a constraint is what linearizing it now gives: its form, or none
if it has no variables left and the policy accepts that. -/
def IsCurrent (p : Propagator σ) (entry : Tracked σ) : Prop :=
  match p.linearize entry.definition entry.strength with
  | .ok linear => entry.linear = some linear ∧ entry.slot.isInstalled = true
  | .error fault => p.Tolerates fault ∧ entry.linear = none ∧ entry.slot = .detached

theorem tolerates_congr (hpolicy : p'.policy = p.policy) (fault : LinearizeFault Float) :
    p'.Tolerates fault ↔ p.Tolerates fault := by
  cases fault with
  | noVariables offset => simp only [Tolerates, hpolicy]
  | _ => exact Iff.rfl

namespace IsCurrent

variable {entry : Tracked σ}

/-- A stored form stays current as long as the mentioned constants keep their values. -/
theorem congr (h : p.IsCurrent entry)
    (hvalues : ∀ id ∈ entry.definition.constants, p'.table.valueOf? id = p.table.valueOf? id)
    (hpolicy : p'.policy = p.policy) (htolerance : p'.tolerance = p.tolerance) :
    p'.IsCurrent entry := by
  have hlinear : p'.linearize entry.definition entry.strength =
      p.linearize entry.definition entry.strength := by
    unfold linearize
    rw [htolerance]
    exact Constraint.linearize_congr _ _ _ hvalues
  unfold IsCurrent at h ⊢
  rw [hlinear]
  cases hform : p.linearize entry.definition entry.strength with
  | ok linear =>
    rw [hform] at h
    exact h
  | error fault =>
    rw [hform] at h
    exact ⟨(tolerates_congr hpolicy fault).2 h.1, h.2⟩

theorem of_ok {linear : LinearConstraint Float σ} {token : SolverToken}
    (h : p.linearize entry.definition entry.strength = .ok linear)
    (hlinear : entry.linear = some linear) (hslot : entry.slot = .installed token) :
    p.IsCurrent entry := by
  unfold IsCurrent
  rw [h, hslot]
  exact ⟨hlinear, rfl⟩

theorem of_error {fault : LinearizeFault Float}
    (h : p.linearize entry.definition entry.strength = .error fault)
    (htolerates : p.Tolerates fault) (hlinear : entry.linear = none)
    (hslot : entry.slot = .detached) : p.IsCurrent entry := by
  unfold IsCurrent
  rw [h]
  exact ⟨htolerates, hlinear, hslot⟩

theorem linear_eq (h : p.IsCurrent entry) {linear : LinearConstraint Float σ}
    (hlinear : p.linearize entry.definition entry.strength = .ok linear) :
    entry.linear = some linear := by
  unfold IsCurrent at h
  rw [hlinear] at h
  exact h.1

end IsCurrent

/-- A refreshed constraint is current, and nothing else is written. -/
theorem Refreshed.exists_isCurrent {handle : Handle} {entry : Tracked σ}
    (h : Refreshed p handle entry p') :
    ∃ entry', p'.tracked.get? handle = some entry' ∧ p'.IsCurrent entry' := by
  cases h with
  | replaced token linear solver hlinear =>
    exact ⟨_, InsertionMap.get?_insert_self _ _ _, .of_ok hlinear rfl rfl⟩
  | attached token linear solver hlinear =>
    exact ⟨_, InsertionMap.get?_insert_self _ _ _, .of_ok hlinear rfl rfl⟩
  | detached token fault solver hlinear htolerates =>
    exact ⟨_, InsertionMap.get?_insert_self _ _ _, .of_error hlinear htolerates rfl rfl⟩
  | stayed fault hlinear htolerates =>
    exact ⟨_, InsertionMap.get?_insert_self _ _ _, .of_error hlinear htolerates rfl rfl⟩

theorem Added.exists_isCurrent {definition : Constraint Float} {strength : σ}
    (h : Added p definition strength p') :
    ∃ entry, p'.tracked = p.tracked.insert p.nextHandle entry ∧ p'.IsCurrent entry := by
  cases h with
  | skipped fault log hlinear htolerates => exact ⟨_, rfl, .of_error hlinear htolerates rfl rfl⟩
  | installed linear token solver hlinear => exact ⟨_, rfl, .of_ok hlinear rfl rfl⟩

/-- A round refreshes a constraint that it is about, or it stops without touching it. -/
theorem refreshAll_of_mem {handles : List Handle} (hnodup : handles.Nodup) (round : Round σ)
    {handle : Handle} (h : handle ∈ handles) (hnew : handle ∉ round.relinearized)
    {entry : Tracked σ} (hentry : round.propagator.tracked.get? handle = some entry) :
    (handle ∈ (refreshAll round handles).1.relinearized ∧
      ∃ entry', (refreshAll round handles).1.propagator.tracked.get? handle = some entry' ∧
        (refreshAll round handles).1.propagator.IsCurrent entry') ∨
    (handle ∉ (refreshAll round handles).1.relinearized ∧
      (refreshAll round handles).1.propagator.tracked.get? handle = some entry ∧
      ∃ failure, (refreshAll round handles).2 = .error failure) := by
  induction handles generalizing round with
  | nil => cases h
  | cons first rest ih =>
    obtain ⟨hfirst, hnodup'⟩ := List.nodup_cons.1 hnodup
    unfold refreshAll
    cases hother : round.propagator.tracked.get? first with
    | none =>
      have hne : handle ≠ first := by
        rintro rfl
        rw [hother] at hentry
        cases hentry
      exact ih hnodup' round ((List.mem_cons.1 h).resolve_left hne) hnew hentry
    | some other =>
      dsimp only
      cases hrefresh : refresh round first other with
      | error failure => exact Or.inr ⟨hnew, hentry, failure, rfl⟩
      | ok next =>
        dsimp only
        obtain ⟨hrefreshed, hrelinearized⟩ := refresh_eq_ok hrefresh
        by_cases hne : handle = first
        · -- the rest of the round is not about the constraint, which is current by now
          subst hne
          left
          obtain ⟨entry', hentry', hcurrent⟩ := hrefreshed.exists_isCurrent
          obtain ⟨htracked, hmem⟩ := refreshAll_of_not_mem next hfirst
          obtain ⟨solver, tracked, hframe⟩ := exists_refreshAll_eq rest next
          refine ⟨hmem.2 (by rw [hrelinearized]; simp), entry', by rw [htracked, hentry'], ?_⟩
          rw [hframe]
          exact hcurrent.congr (fun _ _ => rfl) rfl rfl
        · obtain ⟨solver, linear, slot, hnext⟩ := hrefreshed.exists_eq
          refine ih hnodup' next ((List.mem_cons.1 h).resolve_left hne) ?_ ?_
          · rw [hrelinearized, List.mem_append, List.mem_singleton, not_or]
            exact ⟨hnew, hne⟩
          · rw [hnext]
            exact (InsertionMap.get?_insert_of_ne _ _ hne).trans hentry

/-- After a round a constraint is current, or it is as it was, and then it mentions none
of the changed constants or the round was interrupted. -/
theorem InStep.round_entry (hp : p.InStep) (update : ConstantUpdate Float) {handle : Handle}
    {entry' : Tracked σ}
    (hentry' : (p.round update).1.propagator.tracked.get? handle = some entry') :
    (p.round update).1.propagator.IsCurrent entry' ∨
      (handle ∉ (p.round update).1.relinearized ∧ p.tracked.get? handle = some entry' ∧
        ((∀ change ∈ update.changed, change.id ∉ entry'.definition.constants) ∨
          ∃ failure, (p.round update).2 = .error failure ∧ failure.Interrupts)) := by
  have hinterrupts := (hp.round update).2
  obtain ⟨log, hlog⟩ := exists_warned_eq p update.id update.warnings
  unfold Propagator.round at hentry' hinterrupts ⊢
  rw [hlog] at hentry' hinterrupts ⊢
  by_cases haffected : handle ∈ ({ p with log } : Propagator σ).affected update.changed
  · obtain ⟨change, -, hlisted⟩ := mem_affected.1 haffected
    obtain ⟨entry, hentry, -⟩ := (hp.indexed.mem_handlesFor_iff handle change.id).1 hlisted
    rcases refreshAll_of_mem (nodup_affected _ _) { propagator := ({ p with log } : Propagator σ) }
      haffected List.not_mem_nil hentry with ⟨-, e, he, hcurrent⟩ | ⟨hnot, he, failure, hfailure⟩
    · rw [hentry', Option.some.injEq] at he
      subst he
      exact Or.inl hcurrent
    · rw [hentry', Option.some.injEq] at he
      subst he
      exact Or.inr ⟨hnot, hentry, Or.inr ⟨failure, hfailure, hinterrupts failure hfailure⟩⟩
  · obtain ⟨htracked, hmem⟩ :=
      refreshAll_of_not_mem { propagator := ({ p with log } : Propagator σ) } haffected
    rw [htracked] at hentry'
    have hnot := mt hmem.1 List.not_mem_nil
    refine Or.inr ⟨hnot, hentry', Or.inl fun change hchange hid => ?_⟩
    have hlisted := (hp.indexed.mem_handlesFor_iff handle change.id).2 ⟨entry', hentry', hid⟩
    exact haffected (mem_affected.2 ⟨change, hchange, hlisted⟩)

/-- The constraints that a call has linearized again, also if it failed after that. -/
def relinearizedBy (p : Propagator σ) : PropagatorCall σ → List Handle
  | .setConstant id input =>
    match p.table.set id input with
    | .ok (table, update) => ({ p with table }.round update).1.relinearized
    | .error _ => []
  | _ => []

theorem relinearizedBy_of_result_eq_ok {id : ConstantId} {input : Formula Float}
    {report : PropagationReport} (h : (p.setConstant id input).result = .ok report) :
    p.relinearizedBy (.setConstant id input) = report.relinearized := by
  obtain ⟨table, hset, -, hpropagate⟩ := setConstant_eq_ok h
  obtain ⟨-, -, hrelinearized, -⟩ := propagate_eq_ok hpropagate
  rw [relinearizedBy, hset, hrelinearized]

def Interrupted (p : Propagator σ) : PropagatorCall σ → Prop
  | .setConstant id input =>
    ∃ failure, (p.setConstant id input).result = .error failure ∧ failure.Interrupts
  | _ => False

/-- The call has changed the value of a constant that the constraint mentions, and was
interrupted at the constraint or before it came to it. -/
def Missed (p : Propagator σ) (call : PropagatorCall σ) (handle : Handle) : Prop :=
  p.Interrupted call ∧ handle ∉ p.relinearizedBy call ∧
    ∃ entry, p.tracked.get? handle = some entry ∧
      ∃ id ∈ entry.definition.constants,
        (p.perform call).table.valueOf? id ≠ p.table.valueOf? id

/-- After a call a constraint is current, or it is as it was, and then the call has missed
it or has kept it current. -/
def Kept (p : Propagator σ) (call : PropagatorCall σ) (handle : Handle) (entry' : Tracked σ) :
    Prop :=
  (p.perform call).IsCurrent entry' ∨
    (handle ∉ p.relinearizedBy call ∧ p.tracked.get? handle = some entry' ∧
      (p.Missed call handle ∨ (p.IsCurrent entry' → (p.perform call).IsCurrent entry')))

theorem kept_add {definition : Constraint Float} {strength : σ} {handle : Handle}
    {entry' : Tracked σ}
    (hentry' : (p.perform (.add definition strength)).tracked.get? handle = some entry') :
    p.Kept (.add definition strength) handle entry' := by
  unfold Kept
  simp only [perform] at hentry' ⊢
  cases hadd : p.add definition strength with
  | error failure =>
    rw [hadd] at hentry'
    exact Or.inr ⟨List.not_mem_nil, hentry', Or.inr id⟩
  | ok result =>
    obtain ⟨added, q⟩ := result
    simp only [hadd] at hentry' ⊢
    have hq := (add_eq_ok hadd).2
    obtain ⟨htable, hpolicy, htolerance⟩ := hq.frame
    obtain ⟨entry, htracked, hcurrent⟩ := hq.exists_isCurrent
    rw [htracked, InsertionMap.get?_insert] at hentry'
    split at hentry'
    · rw [Option.some.injEq] at hentry'
      subst hentry'
      exact Or.inl hcurrent
    · refine Or.inr ⟨List.not_mem_nil, hentry', Or.inr fun h => ?_⟩
      exact h.congr (fun id _ => by rw [htable]) hpolicy htolerance

theorem kept_remove {removed handle : Handle} {entry' : Tracked σ}
    (hentry' : (p.perform (.remove removed)).tracked.get? handle = some entry') :
    p.Kept (.remove removed) handle entry' := by
  unfold Kept
  simp only [perform] at hentry' ⊢
  cases hremove : p.remove removed with
  | error misuse =>
    rw [hremove] at hentry'
    exact Or.inr ⟨List.not_mem_nil, hentry', Or.inr id⟩
  | ok result =>
    obtain ⟨found, q⟩ := result
    simp only [hremove] at hentry' ⊢
    have hq := remove_eq_ok hremove
    obtain ⟨htable, hpolicy, htolerance⟩ := hq.frame
    refine Or.inr ⟨List.not_mem_nil, hq.get?_of_get? hentry', Or.inr fun h => ?_⟩
    exact h.congr (fun id _ => by rw [htable]) hpolicy htolerance

theorem kept_setConstant (hp : p.InStep) {id : ConstantId} {input : Formula Float}
    {handle : Handle} {entry' : Tracked σ}
    (hentry' : (p.perform (.setConstant id input)).tracked.get? handle = some entry') :
    p.Kept (.setConstant id input) handle entry' := by
  have hperform : p.perform (.setConstant id input) = (p.setConstant id input).propagator := rfl
  unfold Kept
  rw [hperform] at hentry' ⊢
  rcases p.setConstant_cases id input with ⟨fault, hset, heq, -⟩ | ⟨table, update, hset, -, -⟩
  · rw [heq] at hentry' ⊢
    refine Or.inr ⟨?_, hentry', Or.inr fun h => h⟩
    simp [relinearizedBy, hset]
  · have htable : ({ p with table } : Propagator σ).InStep := hp.congr rfl rfl rfl rfl rfl rfl
    have hrelinearized : p.relinearizedBy (.setConstant id input) =
        (({ p with table } : Propagator σ).round update).1.relinearized := by
      simp [relinearizedBy, hset]
    obtain ⟨⟨solver, heq⟩, ⟨hfinal, hpolicy, htolerance⟩, hfailed⟩ := setConstant_of_set hset
    rw [hrelinearized]
    rw [heq] at hentry'
    rcases htable.round_entry update hentry' with hcurrent | ⟨hnot, hentry, hcase⟩
    · left
      rw [heq]
      exact hcurrent.congr (fun _ _ => rfl) rfl rfl
    · refine Or.inr ⟨hnot, hentry, ?_⟩
      by_cases hvalues : ∀ c ∈ entry'.definition.constants, table.valueOf? c = p.table.valueOf? c
      · exact Or.inr fun h => h.congr (by rw [hfinal]; exact hvalues) hpolicy htolerance
      · left
        push Not at hvalues
        obtain ⟨c, hc, hne⟩ := hvalues
        rcases hcase with hunmentioned | ⟨failure, hfailure, hinterrupts⟩
        · obtain ⟨change, hchange, rfl⟩ := ConstantTable.exists_change_of_valueOf?_ne hset hne
          exact absurd hc (hunmentioned change hchange)
        · refine ⟨⟨failure, hfailed failure hfailure, hinterrupts⟩, by rwa [hrelinearized], entry',
            hentry, c, hc, ?_⟩
          rw [hperform, hfinal]
          exact hne

end NamedConstants.Propagator
