import NamedConstants.Proofs.Propagation.Skipped

/-!
Which constraints the log remembers to have reported as skipped. Only the addition of a
constraint reports it, and only a removal forgets the report. But a removal looks at where the
constraint stands by then, not at what was reported: it forgets the key of one that is skipped,
and leaves the key alone if the constraint has been installed since. As handles are not given
out again, such a key stays in the log for good.
-/
namespace NamedConstants.Propagator

variable {σ : Type} {p p' : Propagator σ}

/-- The call adds a constraint under the handle, and the constraint is skipped. -/
def Skips (p : Propagator σ) (call : PropagatorCall σ) (handle : Handle) : Prop :=
  ∃ definition strength added entry, call = .add definition strength ∧
    p.add definition strength = .ok (handle, added) ∧
    added.tracked.get? handle = some entry ∧ entry.slot = .detached

/-- The call removes the constraint from the registry while it is installed. -/
def Uninstalls (p : Propagator σ) (call : PropagatorCall σ) (handle : Handle) : Prop :=
  ∃ entry token removed after, call = .remove handle ∧
    p.tracked.get? handle = some entry ∧ entry.slot = .installed token ∧
    p.remove handle = .ok (removed, after)

def Happens (event : Propagator σ → PropagatorCall σ → Handle → Prop) (p : Propagator σ)
    (handle : Handle) : List (PropagatorStep σ) → Prop
  | [] => False
  | s :: steps =>
    event (p.facing s.answers) s.call handle ∨ Happens event (p.step s) handle steps

theorem contains_of_added {definition : Constraint Float} {strength : σ}
    (h : Added p definition strength p') (k : Handle) :
    p'.contains k = true ↔ k = p.nextHandle ∨ p.contains k = true := by
  cases h with
  | skipped | installed =>
    simp only [contains, InsertionMap.contains, register, InsertionMap.get?_insert]
    by_cases hk : k = p.nextHandle <;> simp [hk]

theorem contains_of_removed {handle : Handle} (h : Removed p handle p') (k : Handle) :
    p'.contains k = true ↔ k ≠ handle ∧ p.contains k = true := by
  cases h with
  | absent hentry =>
    simp only [contains, InsertionMap.contains]
    by_cases hk : k = handle <;> simp [hk, hentry]
  | uninstalled | forgotten =>
    simp only [contains, InsertionMap.contains, InsertionMap.get?_erase]
    by_cases hk : k = handle <;> simp [hk]

/-- Warnings about dependents have keys of their own. -/
theorem remembers_warnDependents {p : Propagator σ} (hdev : p.log.devMode = true)
    (changed : ConstantId) (warnings : List (DependentWarning Float)) :
    (warnings.foldl (warnDependent changed) p).log.devMode = p.log.devMode ∧
      ∀ key, (warnings.foldl (warnDependent changed) p).log.Remembers .constraints key ↔
        p.log.Remembers .constraints key := by
  induction warnings generalizing p with
  | nil => exact ⟨rfl, fun _ => Iff.rfl⟩
  | cons warning warnings ih =>
    have hfirst : (warnDependent changed p warning).log.devMode = p.log.devMode :=
      p.log.devMode_warn _ _ _
    obtain ⟨hrest, hremembers⟩ := ih (p := warnDependent changed p warning) (hfirst.trans hdev)
    refine ⟨hrest.trans hfirst, fun key => (hremembers key).trans ?_⟩
    simp [warnDependent, Log.remembers_warn hdev]

/-- The log remembers what was skipped when it was added, and is tracked still or was installed
when it was removed. -/
structure Remembering (p : Propagator σ) (skipped uninstalled : Handle → Prop) : Prop where
  devMode_eq : p.log.devMode = true
  remembers_iff : ∀ k, p.log.Remembers .constraints (.detached k) ↔
    skipped k ∧ (p.contains k = true ∨ uninstalled k)
  lt_of_contains : ∀ k, p.contains k = true → k < p.nextHandle
  lt_of_skipped : ∀ k, skipped k → k < p.nextHandle
  gone : ∀ k, uninstalled k → k < p.nextHandle ∧ ¬ p.contains k = true

namespace Remembering

variable {skipped uninstalled : Handle → Prop}

theorem of_same (h : p.Remembering skipped uninstalled) (hdev : p'.log.devMode = p.log.devMode)
    (hlog : ∀ k, p'.log.Remembers .constraints (.detached k) ↔
      p.log.Remembers .constraints (.detached k))
    (hcontains : ∀ k, p'.contains k = true ↔ p.contains k = true)
    (hnext : p'.nextHandle = p.nextHandle) : p'.Remembering skipped uninstalled where
  devMode_eq := hdev.trans h.devMode_eq
  remembers_iff k := by rw [hlog, h.remembers_iff, hcontains]
  lt_of_contains k hk := hnext ▸ h.lt_of_contains k ((hcontains k).1 hk)
  lt_of_skipped k hk := hnext ▸ h.lt_of_skipped k hk
  gone k hk := by
    rw [hnext, hcontains]
    exact h.gone k hk

theorem add (h : p.Remembering skipped uninstalled) {definition : Constraint Float} {strength : σ}
    {handle : Handle} (hadd : p.add definition strength = .ok (handle, p')) :
    p'.Remembering (fun k => skipped k ∨ p.Skips (.add definition strength) k) uninstalled := by
  obtain ⟨entry, hentry, hlog⟩ := log_of_add hadd
  have hskips : ∀ k, p.Skips (.add definition strength) k ↔
      k = handle ∧ entry.slot = .detached := by
    intro k
    constructor
    · rintro ⟨_, _, added, found, hcall, hadd', hfound, hslot⟩
      cases hcall
      rw [hadd] at hadd'
      cases hadd'
      rw [hentry] at hfound
      cases hfound
      exact ⟨rfl, hslot⟩
    · rintro ⟨rfl, hslot⟩
      exact ⟨_, _, _, _, rfl, hadd, hentry, hslot⟩
  have hlt : handle < p'.nextHandle := lt_nextHandle_of_add hadd
  obtain ⟨rfl, hadded⟩ := add_eq_ok hadd
  have hcontains := contains_of_added hadded
  have hdev : p'.log.devMode = p.log.devMode := by
    rw [hlog]
    cases entry.slot <;> simp
  refine ⟨hdev.trans h.devMode_eq, fun k => ?_, fun k hk => ?_, fun k hk => ?_, fun k hk => ?_⟩
  · rw [hcontains, hskips, hlog]
    have hold := h.remembers_iff k
    cases hslot : entry.slot with
    | installed token =>
      -- The handle that is given out is new, so nothing was said of it before.
      by_cases hk : k = p.nextHandle
      · subst hk
        have hnew : ¬ skipped p.nextHandle := fun hk => Int.lt_irrefl _ (h.lt_of_skipped _ hk)
        simp [hold, hnew]
      · simp [hold, hk]
    | detached =>
      simp only [Log.remembers_warn h.devMode_eq, hold]
      by_cases hk : k = p.nextHandle
      · simp [hk]
      · simp [hk]
  · rcases (hcontains k).1 hk with rfl | hk
    · exact hlt
    · exact Int.lt_trans (h.lt_of_contains k hk) hlt
  · rcases hk with hk | hk
    · exact Int.lt_trans (h.lt_of_skipped k hk) hlt
    · exact ((hskips k).1 hk).1 ▸ hlt
  · obtain ⟨hbefore, hgone⟩ := h.gone k hk
    rw [hcontains]
    exact ⟨Int.lt_trans hbefore hlt, not_or.2 ⟨Int.ne_of_lt hbefore, hgone⟩⟩

theorem remove (h : p.Remembering skipped uninstalled) {handle : Handle} {removed : Bool}
    (hremove : p.remove handle = .ok (removed, p')) :
    p'.Remembering skipped (fun k => uninstalled k ∨ p.Uninstalls (.remove handle) k) := by
  have hcontains := contains_of_removed (remove_eq_ok hremove)
  have hnext : p'.nextHandle = p.nextHandle := (registered_of_removed (remove_eq_ok hremove)).2
  have hlt : ∀ k, p'.contains k = true → k < p'.nextHandle := by
    intro k hk
    rw [hnext]
    exact h.lt_of_contains k ((hcontains k).1 hk).2
  have hskipped : ∀ k, skipped k → k < p'.nextHandle := fun k hk => hnext ▸ h.lt_of_skipped k hk
  rcases log_of_remove hremove with ⟨entry, hentry, hslot, hlog⟩ | ⟨hslots, hlog⟩
  -- The constraint is skipped, and the key is forgotten together with the handle.
  · have htracked : p.contains handle = true := InsertionMap.contains_of_get? hentry
    have huninstalls : ∀ k, ¬ p.Uninstalls (.remove handle) k := by
      rintro k ⟨found, token, _, _, hcall, hfound, hslot', -⟩
      cases hcall
      rw [hentry] at hfound
      cases hfound
      rw [hslot] at hslot'
      cases hslot'
    have hpresent : ¬ uninstalled handle := fun hgone => (h.gone handle hgone).2 htracked
    refine ⟨?_, fun k => ?_, hlt, hskipped, fun k hk => ?_⟩
    · rw [hlog]
      exact h.devMode_eq
    · rw [hlog, Log.remembers_forget, h.remembers_iff, hcontains]
      by_cases hk : k = handle
      · subst hk
        simp [huninstalls, hpresent]
      · simp [huninstalls, hk]
    · obtain ⟨hbefore, hgone⟩ := h.gone k (hk.resolve_right (huninstalls k))
      rw [hnext, hcontains]
      exact ⟨hbefore, fun hk => hgone hk.2⟩
  -- It is installed or not tracked at all: the log stays, so what it remembered is still there.
  · have huninstalls : ∀ k, p.Uninstalls (.remove handle) k ↔
        k = handle ∧ p.contains k = true := by
      intro k
      constructor
      · rintro ⟨found, token, _, _, hcall, hfound, -, -⟩
        cases hcall
        exact ⟨rfl, InsertionMap.contains_of_get? hfound⟩
      · rintro ⟨rfl, htracked⟩
        obtain ⟨entry, hentry⟩ := Option.isSome_iff_exists.1 htracked
        cases hslot : entry.slot with
        | installed token => exact ⟨entry, token, removed, p', rfl, hentry, hslot, hremove⟩
        | detached => exact absurd hslot (hslots entry hentry)
    refine ⟨?_, fun k => ?_, hlt, hskipped, fun k hk => ?_⟩
    · rw [hlog]
      exact h.devMode_eq
    · rw [hlog, h.remembers_iff, hcontains, huninstalls]
      by_cases hk : k = handle
      · simp [hk, or_comm]
      · simp [hk]
    · rw [hnext, hcontains]
      rcases hk with hk | hk
      · obtain ⟨hbefore, hgone⟩ := h.gone k hk
        exact ⟨hbefore, fun hk => hgone hk.2⟩
      · obtain ⟨rfl, htracked⟩ := (huninstalls k).1 hk
        exact ⟨h.lt_of_contains k htracked, fun hk => hk.1 rfl⟩

theorem setConstant (h : p.Remembering skipped uninstalled) (id : ConstantId)
    (input : Formula Float) :
    (p.setConstant id input).propagator.Remembering skipped uninstalled := by
  have hsame := SameRegistry.of_setConstant p id input
  have hcontains : ∀ k, (p.setConstant id input).propagator.contains k = true ↔
      p.contains k = true := by
    intro k
    rw [← mem_map_handle_registered, ← mem_map_handle_registered, hsame.registered_eq]
  rcases p.setConstant_cases id input with ⟨fault, -, heq, -⟩ | ⟨table, update, hset, -, -⟩
  · rw [heq]
    exact h
  · obtain ⟨hdev, hremembers⟩ := remembers_warnDependents (p := { p with table }) h.devMode_eq
      update.id update.warnings
    rw [← log_of_set hset] at hdev hremembers
    exact h.of_same hdev (fun k => hremembers _) hcontains hsame.nextHandle_eq

theorem perform (h : p.Remembering skipped uninstalled) (call : PropagatorCall σ) :
    (p.perform call).Remembering (fun k => skipped k ∨ p.Skips call k)
      (fun k => uninstalled k ∨ p.Uninstalls call k) := by
  cases call with
  | table call =>
    have hsame : (p.perform (.table call)).Remembering skipped uninstalled :=
      h.of_same rfl (fun _ => Iff.rfl) (fun _ => Iff.rfl) rfl
    simpa [Skips, Uninstalls] using hsame
  | add definition strength =>
    simp only [Propagator.perform]
    cases hadd : p.add definition strength with
    | error failure => simpa [Skips, Uninstalls, hadd] using h
    | ok result => simpa [Uninstalls] using h.add hadd
  | remove handle =>
    simp only [Propagator.perform]
    cases hremove : p.remove handle with
    | error misuse =>
      have hstays : ∀ k, ¬ p.Uninstalls (.remove handle) k := by
        rintro k ⟨_, _, _, _, hcall, -, -, hremove'⟩
        cases hcall
        rw [hremove] at hremove'
        cases hremove'
      simpa [Skips, hstays] using h
    | ok result => simpa [Skips] using h.remove hremove
  | setConstant id input =>
    simp only [Propagator.perform]
    simpa [Skips, Uninstalls] using h.setConstant id input

/-- What the log remembers after a run, by what has happened in it. -/
theorem run (h : p.Remembering skipped uninstalled) (steps : List (PropagatorStep σ)) :
    (p.run steps).Remembering (fun k => skipped k ∨ Happens Skips p k steps)
      (fun k => uninstalled k ∨ Happens Uninstalls p k steps) := by
  induction steps generalizing p skipped uninstalled with
  | nil => simpa [Happens, Propagator.run] using h
  | cons s steps ih =>
    have hfacing : (p.facing s.answers).Remembering skipped uninstalled :=
      h.of_same rfl (fun _ => Iff.rfl) (fun _ => Iff.rfl) rfl
    have hrest := ih (hfacing.perform s.call)
    simp only [or_assoc] at hrest
    exact hrest

end Remembering

theorem remembering_start (table : ConstantTable Float) (policy : ConstantOnlyPolicy)
    (tolerance : Float) :
    (start table { devMode := true } policy tolerance : Propagator σ).Remembering
      (fun _ => False) (fun _ => False) where
  devMode_eq := rfl
  remembers_iff k := by simp [start, Log.Remembers, InsertionSet.not_mem_empty]
  lt_of_contains k hk := by cases hk
  lt_of_skipped k hk := hk.elim
  gone k hk := hk.elim

/-- After a run of a propagator in development, the log remembers exactly the constraints that
were skipped when they were added, and that are either tracked still or were installed when
they were removed. So a removal forgets the report on a constraint that is skipped at that
moment; the reports that outlive their constraints are those on constraints that have been
installed since. -/
theorem remembered_reports (table : ConstantTable Float) (policy : ConstantOnlyPolicy)
    (tolerance : Float) (steps : List (PropagatorStep σ)) (handle : Handle) :
    let first : Propagator σ := start table { devMode := true } policy tolerance
    let p := first.run steps
    (p.log.Remembers .constraints (.detached handle) ↔
      Happens Skips first handle steps ∧
        (p.contains handle = true ∨ Happens Uninstalls first handle steps)) ∧
    (p.log.Remembers .constraints (.detached handle) ∧ p.contains handle = false ↔
      Happens Skips first handle steps ∧ Happens Uninstalls first handle steps) := by
  intro first p
  have hp : p.Remembering _ _ := (remembering_start table policy tolerance).run steps
  have hremembers : p.log.Remembers .constraints (.detached handle) ↔
      Happens Skips first handle steps ∧
        (p.contains handle = true ∨ Happens Uninstalls first handle steps) := by
    rw [hp.remembers_iff, false_or, false_or]
  have hgone : Happens Uninstalls first handle steps → p.contains handle = false := fun h =>
    Bool.eq_false_iff.2 (hp.gone handle (Or.inr h)).2
  refine ⟨hremembers, ?_⟩
  rw [hremembers]
  constructor
  · rintro ⟨⟨hskips, htracked | huninstalls⟩, hnot⟩
    · rw [hnot] at htracked
      cases htracked
    · exact ⟨hskips, huninstalls⟩
  · rintro ⟨hskips, huninstalls⟩
    exact ⟨⟨hskips, Or.inr huninstalls⟩, hgone huninstalls⟩

/-- The constraint is skipped when it is added, installed when the constant becomes one, and
then removed. -/
def abandoningSteps : List (PropagatorStep Nat) :=
  [{ call := .table (.declare "c") }, { call := .setConstant 1 (.literal 0) },
    { call := .add scaled 1 }, { call := .setConstant 1 (.literal 1) }, { call := .remove 1 }]

theorem remove_scaledInstalled (solver : Recorder Nat) (log : Log WarningKey)
    (hinstalled : solver.installed.contains 1 = true) :
    ∃ after, ((scaledAt 1 solver log scaledInstalled).facing {}).remove 1 = .ok (true, after) ∧
      after.log = log ∧ after.contains 1 = false := by
  let p : Propagator Nat := (scaledAt 1 solver log scaledInstalled).facing {}
  have hentry : p.tracked.get? 1 = some scaledInstalled := rfl
  have hcontains : p.solver.installed.contains 1 = true := hinstalled
  have hremove : p.solver.remove 1 = .ok _ := if_pos hcontains
  change ∃ after, p.remove 1 = _ ∧ _
  simp only [remove, hentry, scaledInstalled, hremove]
  exact ⟨_, rfl, rfl, rfl⟩

/-- After these calls the log remembers a constraint that is not tracked. -/
theorem exists_remembered_untracked :
    let p : Propagator Nat :=
      (start ∅ { devMode := true } .skip defaultTolerance).run abandoningSteps
    p.log.Remembers .constraints (.detached 1) ∧ p.contains 1 = false ∧
      ¬ ∀ handle, p.log.Remembers .constraints (.detached handle) → p.contains handle = true := by
  intro p
  have hdeclare : (start ∅ { devMode := true } .skip defaultTolerance : Propagator Nat).step
      { call := .table (.declare "c") } =
        start { labels := ["c"] } { devMode := true } .skip defaultTolerance := rfl
  have hdefine := step_define (σ := Nat) (v := 0) { devMode := true } .skip (by decide)
  obtain ⟨log, hadd⟩ := add_scaled_zero { devMode := true }
  have hskip : (start (numbered 0) { devMode := true } .skip defaultTolerance).step
      { call := .add scaled 1 } = scaledAt 0 {} log scaledSkipped := by
    simp only [step, perform, hadd]
  have hlog : log.Remembers .constraints (.detached 1) := by
    obtain ⟨entry, hentry, hlog⟩ := log_of_add hadd
    cases hentry
    have hwarned : log = Log.warn { devMode := true } .constraints (.detached 1) _ := hlog
    rw [hwarned, Log.remembers_warn rfl]
    exact Or.inl ⟨rfl, rfl⟩
  obtain ⟨solver, hattach, hinstalled, -⟩ := step_scaledAt_one {} log
  have hattach : (scaledAt 0 {} log scaledSkipped).step { call := .setConstant 1 (.literal 1) } =
      scaledAt 1 solver log scaledInstalled := hattach
  obtain ⟨after, hremove, hkept, huntracked⟩ := remove_scaledInstalled solver log hinstalled
  have hp : p = after := by
    simp only [p, run, abandoningSteps, List.foldl_cons, List.foldl_nil, hdeclare, hdefine, hskip,
      hattach]
    simp only [step, perform, hremove]
  rw [hp, hkept]
  refine ⟨hlog, huntracked, fun hall => ?_⟩
  have htracked := hall 1 hlog
  rw [huntracked] at htracked
  cases htracked

end NamedConstants.Propagator
