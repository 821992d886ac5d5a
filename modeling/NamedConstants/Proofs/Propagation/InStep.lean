import NamedConstants.Proofs.Propagation.Registry
import NamedConstants.Proofs.Propagation.Runs

/-!
The registry and the solver stay in step. Each installed constraint has a token of its
own, under which the solver holds its form, and the solver holds nothing besides. Every
call writes at one handle and at one token at a time, which is the handle's own or free,
so one lemma about such a write serves adding, removing and all kinds of refreshing.
-/
namespace NamedConstants.Propagator

variable {σ : Type} {p p' : Propagator σ}

/-- What is tracked and what is installed fit together. -/
structure Agrees (tracked : Handle → Option (Tracked σ))
    (installed : SolverToken → Option (LinearConstraint Float σ)) : Prop where
  detached : ∀ handle entry, tracked handle = some entry → entry.slot = .detached →
    entry.linear = none
  held : ∀ handle entry token, tracked handle = some entry → entry.slot = .installed token →
    ∃ linear, entry.linear = some linear ∧ installed token = some linear
  owned : ∀ token linear, installed token = some linear →
    ∃ handle entry, tracked handle = some entry ∧ entry.slot = .installed token
  inj : ∀ h₁ h₂ e₁ e₂ token, tracked h₁ = some e₁ → tracked h₂ = some e₂ →
    e₁.slot = .installed token → e₂.slot = .installed token → h₁ = h₂

/-- What is written at a handle, and what the solver has at the token after that. -/
inductive Written (token : SolverToken) :
    Option (Tracked σ) → Option (LinearConstraint Float σ) → Prop where
  | installed (entry : Tracked σ) (linear : LinearConstraint Float σ)
      (hslot : entry.slot = .installed token) (hlinear : entry.linear = some linear) :
      Written token (some entry) (some linear)
  | detached (entry : Tracked σ) (hslot : entry.slot = .detached) (hlinear : entry.linear = none) :
      Written token (some entry) none
  | untracked : Written token none none

namespace Written

variable {token t : SolverToken} {new : Option (Tracked σ)}
  {form : Option (LinearConstraint Float σ)} {entry : Tracked σ}

theorem linear_eq_none (h : Written token new form) (hentry : new = some entry)
    (hslot : entry.slot = .detached) : entry.linear = none := by
  cases h with
  | installed entry' linear hslot' =>
    cases hentry
    rw [hslot'] at hslot
    cases hslot
  | detached entry' hslot' hlinear =>
    cases hentry
    exact hlinear
  | untracked => cases hentry

theorem form_eq (h : Written token new form) (hentry : new = some entry)
    (hslot : entry.slot = .installed t) :
    t = token ∧ ∃ linear, entry.linear = some linear ∧ form = some linear := by
  cases h with
  | installed entry' linear hslot' hlinear =>
    cases hentry
    rw [hslot', Slot.installed.injEq] at hslot
    exact ⟨hslot.symm, linear, hlinear, rfl⟩
  | detached entry' hslot' =>
    cases hentry
    rw [hslot'] at hslot
    cases hslot
  | untracked => cases hentry

theorem exists_entry (h : Written token new form) {linear : LinearConstraint Float σ}
    (hform : form = some linear) : ∃ entry, new = some entry ∧ entry.slot = .installed token := by
  cases h with
  | installed entry' linear' hslot => exact ⟨entry', rfl, hslot⟩
  | detached => cases hform
  | untracked => cases hform

end Written

/-- The token is free or belongs to the handle, and the handle has no other one. -/
theorem Agrees.update {tracked : Handle → Option (Tracked σ)}
    {installed : SolverToken → Option (LinearConstraint Float σ)} (h : Agrees tracked installed)
    {handle : Handle} {token : SolverToken} {new : Option (Tracked σ)}
    {form : Option (LinearConstraint Float σ)}
    (hfree : ∀ k e, tracked k = some e → e.slot = .installed token → k = handle)
    (hown : ∀ e t, tracked handle = some e → e.slot = .installed t → t = token)
    (hnew : Written token new form) :
    Agrees (Function.update tracked handle new) (Function.update installed token form) where
  detached k e hk hslot := by
    rw [Function.update_apply] at hk
    split at hk
    · exact hnew.linear_eq_none hk hslot
    · exact h.detached k e hk hslot
  held k e t hk hslot := by
    rw [Function.update_apply] at hk
    split at hk
    · obtain ⟨rfl, linear, hlinear, hform⟩ := hnew.form_eq hk hslot
      exact ⟨linear, hlinear, by rw [Function.update_self, hform]⟩
    · rename_i hne
      obtain ⟨linear, hlinear, hinstalled⟩ := h.held k e t hk hslot
      have htoken : t ≠ token := by
        rintro rfl
        exact hne (hfree k e hk hslot)
      exact ⟨linear, hlinear, by rw [Function.update_of_ne htoken, hinstalled]⟩
  owned t linear ht := by
    rw [Function.update_apply] at ht
    split at ht
    · rename_i htoken
      obtain ⟨entry, hentry, hslot⟩ := hnew.exists_entry ht
      exact ⟨handle, entry, by rw [Function.update_self, hentry], htoken ▸ hslot⟩
    · rename_i htoken
      obtain ⟨k, e, hk, hslot⟩ := h.owned t linear ht
      have hne : k ≠ handle := by
        rintro rfl
        exact htoken (hown e t hk hslot)
      exact ⟨k, e, by rw [Function.update_of_ne hne, hk], hslot⟩
  inj k₁ k₂ e₁ e₂ t h₁ h₂ hslot₁ hslot₂ := by
    rw [Function.update_apply] at h₁ h₂
    split at h₁ <;> split at h₂ <;> rename_i hk₁ hk₂
    · rw [hk₁, hk₂]
    · obtain ⟨rfl, -⟩ := hnew.form_eq h₁ hslot₁
      exact absurd (hfree k₂ e₂ h₂ hslot₂) hk₂
    · obtain ⟨rfl, -⟩ := hnew.form_eq h₂ hslot₂
      exact absurd (hfree k₁ e₁ h₁ hslot₁) hk₁
    · exact h.inj k₁ k₂ e₁ e₂ t h₁ h₂ hslot₁ hslot₂

/-- The invariant of a propagator with a solver of its own. -/
structure InStep (p : Propagator σ) : Prop where
  indexed : p.Indexed
  agrees : Agrees p.tracked.get? p.solver.installed.get?
  fresh : ∀ token, p.solver.nextToken ≤ token → p.solver.installed.get? token = none
  skips : ∀ handle entry, p.tracked.get? handle = some entry → entry.slot = .detached →
    p.policy = .skip

/-- The handle has this token, or it has none and this one is yet to be given out. -/
def At (p : Propagator σ) (handle : Handle) (token : SolverToken) : Prop :=
  (∃ entry, p.tracked.get? handle = some entry ∧ entry.slot = .installed token) ∨
    p.solver.nextToken ≤ token ∧
      ∀ entry t, p.tracked.get? handle = some entry → entry.slot ≠ .installed t

theorem At.of_detached {handle : Handle}
    (h : ∀ entry, p.tracked.get? handle = some entry → entry.slot = .detached) :
    p.At handle p.solver.nextToken := by
  refine Or.inr ⟨Int.le_refl _, fun entry t hentry hslot => ?_⟩
  rw [h entry hentry] at hslot
  cases hslot

theorem skip_of_tolerates {fault : LinearizeFault Float} (h : p.Tolerates fault) :
    p.policy = .skip := by
  cases fault with
  | noVariables offset => exact h
  | _ => exact h.elim

namespace InStep

/-- A token that the solver has yet to give out belongs to no constraint. -/
theorem slot_ne_of_fresh (hp : p.InStep) {token : SolverToken} (ht : p.solver.nextToken ≤ token)
    {handle : Handle} {entry : Tracked σ} (hentry : p.tracked.get? handle = some entry) :
    entry.slot ≠ .installed token := by
  intro hslot
  obtain ⟨linear, -, hinstalled⟩ := hp.agrees.held handle entry token hentry hslot
  rw [hp.fresh token ht] at hinstalled
  cases hinstalled

theorem contains_of_slot (hp : p.InStep) {handle : Handle} {entry : Tracked σ}
    {token : SolverToken} (hentry : p.tracked.get? handle = some entry)
    (hslot : entry.slot = .installed token) : p.solver.installed.contains token = true := by
  obtain ⟨linear, -, hinstalled⟩ := hp.agrees.held handle entry token hentry hslot
  exact InsertionMap.contains_of_get? hinstalled

theorem token_lt (hp : p.InStep) {handle : Handle} {entry : Tracked σ} {token : SolverToken}
    (hentry : p.tracked.get? handle = some entry) (hslot : entry.slot = .installed token) :
    token < p.solver.nextToken :=
  Int.not_le.1 fun ht => hp.slot_ne_of_fresh ht hentry hslot

/-- A write at one handle and at its token, or at one that is yet to be given out. -/
theorem write (hp : p.InStep) (hindexed : p'.Indexed) {handle : Handle} {token : SolverToken}
    (hat : p.At handle token) {new : Option (Tracked σ)}
    {form : Option (LinearConstraint Float σ)} (hnew : Written token new form)
    (htracked : p'.tracked.get? = Function.update p.tracked.get? handle new)
    (hinstalled : p'.solver.installed.get? = Function.update p.solver.installed.get? token form)
    (hnext : p.solver.nextToken ≤ p'.solver.nextToken)
    (htoken : form ≠ none → token < p'.solver.nextToken) (hpolicy : p'.policy = p.policy)
    (hskips : ∀ entry, new = some entry → entry.slot = .detached → p.policy = .skip) :
    p'.InStep where
  indexed := hindexed
  agrees := by
    rw [htracked, hinstalled]
    refine hp.agrees.update ?_ ?_ hnew
    · intro k e hk hslot
      rcases hat with ⟨entry, hentry, hslot'⟩ | ⟨hfresh, -⟩
      · exact hp.agrees.inj k handle e entry token hk hentry hslot hslot'
      · exact absurd hslot (hp.slot_ne_of_fresh hfresh hk)
    · intro e t he hslot
      rcases hat with ⟨entry, hentry, hslot'⟩ | ⟨-, hnone⟩
      · rw [hentry, Option.some.injEq] at he
        subst he
        rw [hslot, Slot.installed.injEq] at hslot'
        exact hslot'
      · exact absurd hslot (hnone e t he)
  fresh t ht := by
    rw [hinstalled, Function.update_apply]
    split
    · rename_i heq
      subst heq
      by_contra hform
      exact Int.not_le.2 (htoken hform) ht
    · exact hp.fresh t (Int.le_trans hnext ht)
  skips k e hk hslot := by
    rw [hpolicy]
    rw [htracked, Function.update_apply] at hk
    split at hk
    · exact hskips e hk hslot
    · exact hp.skips k e hk hslot

/-- Nothing is written in the solver if the handle has no token there. -/
theorem update_nextToken (hp : p.InStep) :
    p.solver.installed.get? = Function.update p.solver.installed.get? p.solver.nextToken none :=
  (Function.update_eq_self_iff.2 (hp.fresh _ (Int.le_refl _)).symm).symm

/-- The invariant reads the registry and what the solver holds, and nothing else. -/
theorem congr (hp : p.InStep) (htracked : p'.tracked = p.tracked)
    (hmentions : p'.mentions = p.mentions) (hnextHandle : p'.nextHandle = p.nextHandle)
    (hinstalled : p'.solver.installed = p.solver.installed)
    (hnextToken : p'.solver.nextToken = p.solver.nextToken) (hpolicy : p'.policy = p.policy) :
    p'.InStep where
  indexed :=
    { mem_handlesFor_iff := by
        unfold handlesFor
        rw [hmentions, htracked]
        exact hp.indexed.mem_handlesFor_iff
      fresh := by
        rw [hnextHandle, htracked]
        exact hp.indexed.fresh }
  agrees := by
    rw [htracked, hinstalled]
    exact hp.agrees
  fresh := by
    rw [hnextToken, hinstalled]
    exact hp.fresh
  skips := by
    rw [htracked, hpolicy]
    exact hp.skips

theorem of_refreshed (hp : p.InStep) {handle : Handle} {entry : Tracked σ}
    (hentry : p.tracked.get? handle = some entry) (h : Refreshed p handle entry p') :
    p'.InStep := by
  have hindexed := hp.indexed.of_refreshed hentry h
  have hfree (hslot : entry.slot = .detached) : p.At handle p.solver.nextToken := by
    refine At.of_detached fun e he => ?_
    rw [hentry, Option.some.injEq] at he
    rw [← he, hslot]
  cases h with
  | replaced token linear solver hlinear hslot hsolver =>
    obtain ⟨-, rfl⟩ := Recorder.replace_eq_ok hsolver
    refine hp.write hindexed (Or.inl ⟨entry, hentry, hslot⟩) (.installed _ linear rfl rfl)
      (InsertionMap.get?_insert_eq_update _ _ _) (InsertionMap.get?_insert_eq_update _ _ _)
      (Int.le_refl _) (fun _ => hp.token_lt hentry hslot) rfl ?_
    rintro _ ⟨⟩ ⟨⟩
  | attached token linear solver hlinear hslot hsolver =>
    obtain ⟨rfl, rfl⟩ := Recorder.install_eq_ok hsolver
    refine hp.write hindexed (hfree hslot) (.installed _ linear rfl rfl)
      (InsertionMap.get?_insert_eq_update _ _ _) (InsertionMap.get?_insert_eq_update _ _ _)
      (Int.le_add_one (Int.le_refl _)) (fun _ => Int.lt_succ _) rfl ?_
    rintro _ ⟨⟩ ⟨⟩
  | detached token fault solver hlinear htolerates hslot hsolver =>
    obtain ⟨-, rfl⟩ := Recorder.remove_eq_ok hsolver
    exact hp.write hindexed (Or.inl ⟨entry, hentry, hslot⟩) (.detached _ rfl rfl)
      (InsertionMap.get?_insert_eq_update _ _ _) (InsertionMap.get?_erase_eq_update _ _)
      (Int.le_refl _) (absurd rfl) rfl fun _ _ _ => skip_of_tolerates htolerates
  | stayed fault hlinear htolerates hslot =>
    exact hp.write hindexed (hfree hslot) (.detached _ rfl rfl)
      (InsertionMap.get?_insert_eq_update _ _ _) hp.update_nextToken (Int.le_refl _) (absurd rfl)
      rfl fun _ _ _ => skip_of_tolerates htolerates

theorem of_added (hp : p.InStep) {definition : Constraint Float} {strength : σ}
    (h : Added p definition strength p') : p'.InStep := by
  have hindexed := hp.indexed.of_added h
  have hfree : p.At p.nextHandle p.solver.nextToken := by
    refine At.of_detached fun e he => ?_
    rw [hp.indexed.fresh _ (Int.le_refl _)] at he
    cases he
  cases h with
  | skipped fault log hlinear htolerates =>
    exact hp.write hindexed hfree (.detached _ rfl rfl) (InsertionMap.get?_insert_eq_update _ _ _)
      hp.update_nextToken (Int.le_refl _) (absurd rfl) rfl fun _ _ _ => skip_of_tolerates htolerates
  | installed linear token solver hlinear hsolver =>
    obtain ⟨rfl, rfl⟩ := Recorder.install_eq_ok hsolver
    refine hp.write hindexed hfree (.installed _ linear rfl rfl)
      (InsertionMap.get?_insert_eq_update _ _ _) (InsertionMap.get?_insert_eq_update _ _ _)
      (Int.le_add_one (Int.le_refl _)) (fun _ => Int.lt_succ _) rfl ?_
    rintro _ ⟨⟩ ⟨⟩

theorem of_removed (hp : p.InStep) {handle : Handle} (h : Removed p handle p') : p'.InStep := by
  have hindexed := hp.indexed.of_removed h
  cases h with
  | absent => exact hp
  | uninstalled entry token solver hentry hslot hsolver =>
    obtain ⟨-, rfl⟩ := Recorder.remove_eq_ok hsolver
    refine hp.write hindexed (Or.inl ⟨entry, hentry, hslot⟩) .untracked
      (InsertionMap.get?_erase_eq_update _ _) (InsertionMap.get?_erase_eq_update _ _)
      (Int.le_refl _) (absurd rfl) rfl ?_
    rintro _ ⟨⟩
  | forgotten entry log hentry hslot =>
    have hfree : p.At handle p.solver.nextToken := by
      refine At.of_detached fun e he => ?_
      rw [hentry, Option.some.injEq] at he
      rw [← he, hslot]
    refine hp.write hindexed hfree .untracked (InsertionMap.get?_erase_eq_update _ _)
      hp.update_nextToken (Int.le_refl _) (absurd rfl) rfl ?_
    rintro _ ⟨⟩

/-- The refresh of a tracked constraint is never a misuse of its token. -/
theorem stuck_of_refresh {round : Round σ} (hp : round.propagator.InStep) {handle : Handle}
    {entry : Tracked σ} (hentry : round.propagator.tracked.get? handle = some entry)
    {failure : PropagationFailure} (h : refresh round handle entry = .error failure) :
    round.propagator.Stuck handle entry failure := by
  rcases refresh_eq_error h with hstuck | ⟨-, token, -, hslot, hnot⟩
  · exact hstuck
  · rw [hp.contains_of_slot hentry hslot] at hnot
    cases hnot

/-- A round keeps the invariant wherever it stops, and never stops at a misuse. -/
theorem round (hp : p.InStep) (update : ConstantUpdate Float) :
    (p.round update).1.propagator.InStep ∧
      ∀ failure, (p.round update).2 = .error failure → failure.Interrupts := by
  obtain ⟨log, hlog⟩ := exists_warned_eq p update.id update.warnings
  have hwarned : ({ p with log } : Propagator σ).InStep := hp.congr rfl rfl rfl rfl rfl rfl
  unfold Propagator.round
  rw [hlog]
  obtain ⟨hkept, hstopped⟩ := refreshAll_induction (P := InStep)
    (fun q handle entry q' hq hentry hrefreshed => hq.of_refreshed hentry hrefreshed)
    (({ p with log } : Propagator σ).affected update.changed)
    { propagator := ({ p with log } : Propagator σ) } hwarned
  refine ⟨hkept, fun failure hfailure => ?_⟩
  obtain ⟨stopped, handle, entry, hstep, hentry, hrefresh⟩ := hstopped failure hfailure
  exact (hstep.stuck_of_refresh hentry hrefresh).interrupts

theorem propagate (hp : p.InStep) (update : ConstantUpdate Float) :
    (p.propagate update).1.InStep := by
  obtain ⟨solver, heq, hsolver⟩ := p.exists_propagate_eq update
  rw [heq]
  rcases hsolver with rfl | rfl
  · exact (hp.round update).1
  · exact (hp.round update).1.congr rfl rfl rfl rfl rfl rfl

theorem setConstant (hp : p.InStep) (id : ConstantId) (input : Formula Float) :
    (p.setConstant id input).propagator.InStep := by
  rcases p.setConstant_cases id input with ⟨fault, -, heq, -⟩ | ⟨table, update, -, heq, -⟩
  · rw [heq]
    exact hp
  · have htable : ({ p with table } : Propagator σ).InStep := hp.congr rfl rfl rfl rfl rfl rfl
    rw [heq]
    exact htable.propagate update

theorem facing (hp : p.InStep) (answers : SolverAnswers σ) : (p.facing answers).InStep :=
  hp.congr rfl rfl rfl rfl rfl rfl

theorem perform (hp : p.InStep) (call : PropagatorCall σ) : (p.perform call).InStep := by
  cases call with
  | table call => exact hp.congr rfl rfl rfl rfl rfl rfl
  | add definition strength =>
    simp only [Propagator.perform]
    cases hadd : p.add definition strength with
    | error failure => exact hp
    | ok result => exact hp.of_added (add_eq_ok hadd).2
  | remove handle =>
    simp only [Propagator.perform]
    cases hremove : p.remove handle with
    | error misuse => exact hp
    | ok result => exact hp.of_removed (remove_eq_ok hremove)
  | setConstant id input => exact hp.setConstant id input

theorem remove_ne_error (hp : p.InStep) (handle : Handle) (misuse : SolverMisuse) :
    p.remove handle ≠ .error misuse := by
  intro h
  obtain ⟨entry, token, hentry, hslot, hnot⟩ := remove_eq_error h
  rw [hp.contains_of_slot hentry hslot] at hnot
  cases hnot

theorem setConstant_ne_misuse (hp : p.InStep) (id : ConstantId) (input : Formula Float)
    (misuse : SolverMisuse) : (p.setConstant id input).result ≠ .error (.misuse misuse) := by
  intro h
  rcases p.setConstant_cases id input with ⟨fault, -, -, heq⟩ | ⟨table, update, -, -, heq⟩
  · rw [heq] at h
    cases h
  · have htable : ({ p with table } : Propagator σ).InStep := hp.congr rfl rfl rfl rfl rfl rfl
    rw [heq] at h
    rcases propagate_eq_error h with ⟨hround, -⟩ | ⟨detail, -, -, -, hfailure, -⟩
    · exact (htable.round update).2 _ hround
    · cases hfailure

end InStep

theorem inStep_start (table : ConstantTable Float) (log : Log WarningKey)
    (policy : ConstantOnlyPolicy) (tolerance : Float) :
    (start table log policy tolerance : Propagator σ).InStep where
  indexed :=
    { mem_handlesFor_iff := fun handle id => by
        constructor
        · exact fun h => absurd h (InsertionSet.not_mem_empty _)
        · rintro ⟨entry, ⟨⟩, -⟩
      fresh := fun _ _ => rfl }
  agrees :=
    { detached := fun _ _ h => by cases h
      held := fun _ _ _ h => by cases h
      owned := fun _ _ h => by cases h
      inj := fun _ _ _ _ _ h => by cases h }
  fresh _ _ := rfl
  skips _ _ h := by cases h

theorem inStep_run (hp : p.InStep) (steps : List (PropagatorStep σ)) : (p.run steps).InStep :=
  run_induction (fun _ answers hq => hq.facing answers) (fun _ call hq => hq.perform call) hp steps

/-- After any calls, whatever the solver answered to them, the solver holds the forms of
the installed constraints, each under a token of its own, and nothing else; detached
constraints have no form, and there are none unless the policy is to skip. So no call can
ask the solver for a token that is not installed. -/
theorem solver_holds_installed (table : ConstantTable Float) (log : Log WarningKey)
    (policy : ConstantOnlyPolicy) (tolerance : Float) (steps : List (PropagatorStep σ)) :
    let p : Propagator σ := (start table log policy tolerance).run steps
    (∀ token linear, p.solver.installed.get? token = some linear ↔
      ∃ handle entry, p.tracked.get? handle = some entry ∧ entry.slot = .installed token ∧
        entry.linear = some linear) ∧
    (∀ handle entry token, p.tracked.get? handle = some entry → entry.slot = .installed token →
      entry.linear.isSome = true ∧
        ∀ other entry', p.tracked.get? other = some entry' → entry'.slot = .installed token →
          other = handle) ∧
    (∀ handle entry, p.tracked.get? handle = some entry → entry.slot = .detached →
      entry.linear = none ∧ policy = .skip) ∧
    ∀ answers misuse, (∀ handle, (p.facing answers).remove handle ≠ .error misuse) ∧
      ∀ id input, ((p.facing answers).setConstant id input).result ≠ .error (.misuse misuse) := by
  intro p
  have hp : p.InStep := inStep_run (inStep_start table log policy tolerance) steps
  have hpolicy : p.policy = policy := (policy_run _ steps).1
  refine ⟨fun token linear => ⟨fun hinstalled => ?_, ?_⟩, fun handle entry token hentry hslot => ?_,
    fun handle entry hentry hslot => ?_, fun answers misuse => ?_⟩
  · obtain ⟨handle, entry, hentry, hslot⟩ := hp.agrees.owned token linear hinstalled
    obtain ⟨linear', hlinear, hinstalled'⟩ := hp.agrees.held handle entry token hentry hslot
    rw [hinstalled, Option.some.injEq] at hinstalled'
    exact ⟨handle, entry, hentry, hslot, hinstalled' ▸ hlinear⟩
  · rintro ⟨handle, entry, hentry, hslot, hlinear⟩
    obtain ⟨linear', hlinear', hinstalled⟩ := hp.agrees.held handle entry token hentry hslot
    rw [hlinear, Option.some.injEq] at hlinear'
    rw [hinstalled, hlinear']
  · obtain ⟨linear, hlinear, -⟩ := hp.agrees.held handle entry token hentry hslot
    refine ⟨by rw [hlinear]; rfl, fun other entry' hentry' hslot' => ?_⟩
    exact hp.agrees.inj other handle entry' entry token hentry' hentry hslot' hslot
  · refine ⟨hp.agrees.detached handle entry hentry hslot, ?_⟩
    rw [← hpolicy]
    exact hp.skips handle entry hentry hslot
  · exact ⟨fun handle => (hp.facing answers).remove_ne_error handle misuse,
      fun id input => (hp.facing answers).setConstant_ne_misuse id input misuse⟩

end NamedConstants.Propagator
