import NamedConstants.Proofs.Propagation.Handles
import NamedConstants.Proofs.Propagation.Retry

/-!
What is written of a constraint that is tracked without being sent to the solver. Only its
addition reports it. The key of the report is the handle that is given out next, so it is
always new, and no later call writes under it: a constraint that was installed and loses its
variables when a constant is set is skipped without a word.
-/
namespace NamedConstants

namespace Log

variable {κ : Type} [DecidableEq κ]

/-- The key is remembered, that is, another warning with it would not be written. -/
def Remembers (log : Log κ) (area : WarningArea) (key : κ) : Prop := (area, key) ∈ log.reported

theorem warn_cases (log : Log κ) (area : WarningArea) (key : κ) (detail : String) :
    log.warn area key detail = log ∨
      log.warn area key detail =
        { log with
          reported := log.reported.insert (area, key)
          lines := log.lines ++ [{ area := area, key := key, detail := detail }] } := by
  unfold warn
  split
  · exact Or.inl rfl
  · exact Or.inr rfl

@[simp] theorem devMode_warn (log : Log κ) (area : WarningArea) (key : κ) (detail : String) :
    (log.warn area key detail).devMode = log.devMode := by
  rcases log.warn_cases area key detail with hwarn | hwarn <;> rw [hwarn]

/-- In development a warning is remembered, whether it was written just now or before. -/
theorem remembers_warn {log : Log κ} (hdev : log.devMode = true) {area area' : WarningArea}
    {key key' : κ} (detail : String) :
    (log.warn area key detail).Remembers area' key' ↔
      (area' = area ∧ key' = key) ∨ log.Remembers area' key' := by
  unfold Remembers warn
  by_cases hknown : (area, key) ∈ log.reported
  · simp only [hknown, decide_true, Bool.or_true, if_true, iff_or_self]
    rintro ⟨rfl, rfl⟩
    exact hknown
  · simp [hdev, hknown, InsertionSet.mem_insert]

theorem remembers_forget {log : Log κ} {area area' : WarningArea} {key key' : κ} :
    (log.forget area key).Remembers area' key' ↔
      ¬ (area' = area ∧ key' = key) ∧ log.Remembers area' key' := by
  unfold Remembers forget
  rw [InsertionSet.mem_erase, ne_eq, Prod.mk.injEq]

theorem lines_warn_of_new {log : Log κ} {area : WarningArea} {key : κ} (hdev : log.devMode = true)
    (hnew : ¬ log.Remembers area key) (detail : String) :
    (log.warn area key detail).lines =
      log.lines ++ [{ area := area, key := key, detail := detail }] := by
  unfold Remembers at hnew
  simp [warn, hdev, hnew]

end Log

namespace Warning

def IsSkip (w : Warning WarningKey) (handle : Handle) : Prop :=
  w.area = .constraints ∧ w.key = .detached handle

instance (w : Warning WarningKey) (handle : Handle) : Decidable (w.IsSkip handle) :=
  inferInstanceAs (Decidable (_ ∧ _))

end Warning

namespace Propagator

variable {σ : Type} {p p' : Propagator σ}

/-- From one state to a later one the log has grown by some lines, and constraints are
reported as skipped only under handles that were given out in between. -/
structure Writes (p p' : Propagator σ) (written : List (Warning WarningKey)) : Prop where
  devMode_eq : p'.log.devMode = p.log.devMode
  lines_eq : p'.log.lines = p.log.lines ++ written
  nextHandle_le : p.nextHandle ≤ p'.nextHandle
  le_of_isSkip : ∀ w ∈ written, ∀ handle, w.IsSkip handle → p.nextHandle ≤ handle
  remembers : ∀ handle, p'.log.Remembers .constraints (.detached handle) →
    p.log.Remembers .constraints (.detached handle) ∨ handle < p'.nextHandle

namespace Writes

theorem of_log_eq (hlog : p'.log = p.log) (hnext : p.nextHandle ≤ p'.nextHandle) :
    Writes p p' [] where
  devMode_eq := by rw [hlog]
  lines_eq := by rw [hlog, List.append_nil]
  nextHandle_le := hnext
  le_of_isSkip w hw := by cases hw
  remembers handle h := Or.inl (hlog ▸ h)

theorem trans {p'' : Propagator σ} {written written' : List (Warning WarningKey)}
    (h : Writes p p' written) (h' : Writes p' p'' written') :
    Writes p p'' (written ++ written') where
  devMode_eq := h'.devMode_eq.trans h.devMode_eq
  lines_eq := by rw [h'.lines_eq, h.lines_eq, List.append_assoc]
  nextHandle_le := Int.le_trans h.nextHandle_le h'.nextHandle_le
  le_of_isSkip w hw handle hskip := by
    rcases List.mem_append.1 hw with hw | hw
    · exact h.le_of_isSkip w hw handle hskip
    · exact Int.le_trans h.nextHandle_le (h'.le_of_isSkip w hw handle hskip)
  remembers handle hremembers := by
    rcases h'.remembers handle hremembers with hbefore | hlt
    · rcases h.remembers handle hbefore with hbefore | hlt
      · exact Or.inl hbefore
      · exact Or.inr (Int.lt_of_lt_of_le hlt h'.nextHandle_le)
    · exact Or.inr hlt

/-- A warning that is not about a skipped constraint, or about one that was added just now. -/
theorem of_warn {area : WarningArea} {key : WarningKey} {detail : String}
    (hlog : p'.log = p.log.warn area key detail) (hnext : p.nextHandle ≤ p'.nextHandle)
    (hkey : ∀ handle, area = .constraints → key = .detached handle →
      p.nextHandle ≤ handle ∧ handle < p'.nextHandle) :
    ∃ written, Writes p p' written := by
  rcases p.log.warn_cases area key detail with hwarn | hwarn <;> rw [hwarn] at hlog
  · exact ⟨_, of_log_eq hlog hnext⟩
  · refine ⟨[{ area, key, detail }], by rw [hlog], by rw [hlog], hnext, ?_, ?_⟩
    · intro w hw handle hskip
      rw [List.mem_singleton] at hw
      subst hw
      exact (hkey handle hskip.1 hskip.2).1
    · intro handle hremembers
      rw [hlog] at hremembers
      rcases InsertionSet.mem_insert.1 hremembers with heq | hbefore
      · rw [Prod.mk.injEq] at heq
        exact Or.inr (hkey handle heq.1.symm heq.2.symm).2
      · exact Or.inl hbefore

theorem filter_eq_nil {written : List (Warning WarningKey)} (h : Writes p p' written)
    {handle : Handle} (hlt : handle < p.nextHandle) :
    written.filter (fun w => w.IsSkip handle) = [] := by
  rw [List.filter_eq_nil_iff]
  intro w hw hskip
  exact Int.not_lt.2 (h.le_of_isSkip w hw handle (of_decide_eq_true hskip)) hlt

end Writes

/-- Adding a constraint reports it if it is skipped, and writes nothing otherwise. -/
theorem log_of_add {definition : Constraint Float} {strength : σ} {handle : Handle}
    (h : p.add definition strength = .ok (handle, p')) :
    ∃ entry, p'.tracked.get? handle = some entry ∧ p'.log =
      match entry.slot with
      | .installed _ => p.log
      | .detached =>
        p.log.warn .constraints (.detached handle) (p.detachedText handle definition) := by
  unfold add at h
  cases hlinear : p.linearize definition strength with
  | error fault =>
    simp only [hlinear] at h
    by_cases htolerates : p.Tolerates fault
    · rw [if_pos htolerates] at h
      cases h
      exact ⟨_, InsertionMap.get?_insert_self _ _ _, rfl⟩
    · rw [if_neg htolerates] at h
      cases h
  | ok linear =>
    simp only [hlinear] at h
    cases hsolver : p.solver.install linear with
    | error infeasible => rw [hsolver] at h; cases h
    | ok result =>
      rw [hsolver] at h
      cases h
      exact ⟨_, InsertionMap.get?_insert_self _ _ _, rfl⟩

theorem lt_nextHandle_of_add {definition : Constraint Float} {strength : σ} {handle : Handle}
    (h : p.add definition strength = .ok (handle, p')) : handle < p'.nextHandle := by
  obtain ⟨rfl, hadded⟩ := add_eq_ok h
  cases hadded <;> exact Int.lt_succ p.nextHandle

theorem writes_add {definition : Constraint Float} {strength : σ} {handle : Handle}
    (h : p.add definition strength = .ok (handle, p')) : ∃ written, Writes p p' written := by
  have hhandle : handle = p.nextHandle := (add_eq_ok h).1
  have hlt : handle < p'.nextHandle := lt_nextHandle_of_add h
  have hnext : p.nextHandle ≤ p'.nextHandle := hhandle ▸ Int.le_of_lt hlt
  obtain ⟨entry, -, hlog⟩ := log_of_add h
  cases hslot : entry.slot with
  | installed token =>
    rw [hslot] at hlog
    exact ⟨_, .of_log_eq hlog hnext⟩
  | detached =>
    rw [hslot] at hlog
    refine Writes.of_warn hlog hnext fun k _ hk => ?_
    cases hk
    exact ⟨Int.le_of_eq hhandle.symm, hlt⟩

/-- Removing a constraint forgets its key if it is skipped at that moment, and leaves the log
alone otherwise. -/
theorem log_of_remove {handle : Handle} {removed : Bool} (h : p.remove handle = .ok (removed, p')) :
    (∃ entry, p.tracked.get? handle = some entry ∧ entry.slot = .detached ∧
        p'.log = p.log.forget .constraints (.detached handle)) ∨
      (∀ entry, p.tracked.get? handle = some entry → entry.slot ≠ .detached) ∧
        p'.log = p.log := by
  unfold remove at h
  cases hentry : p.tracked.get? handle with
  | none =>
    rw [hentry] at h
    cases h
    exact Or.inr ⟨nofun, rfl⟩
  | some entry =>
    simp only [hentry] at h
    cases hslot : entry.slot with
    | installed token =>
      simp only [hslot] at h
      cases hsolver : p.solver.remove token with
      | error misuse => rw [hsolver] at h; cases h
      | ok solver =>
        rw [hsolver] at h
        cases h
        refine Or.inr ⟨fun entry' hentry' => ?_, rfl⟩
        cases hentry'
        simp [hslot]
    | detached =>
      simp only [hslot] at h
      cases h
      exact Or.inl ⟨entry, rfl, hslot, rfl⟩

theorem writes_remove {handle : Handle} {removed : Bool}
    (h : p.remove handle = .ok (removed, p')) : Writes p p' [] := by
  have hnext : p'.nextHandle = p.nextHandle :=
    (registered_of_removed (remove_eq_ok h)).2
  rcases log_of_remove h with ⟨entry, -, -, hlog⟩ | ⟨-, hlog⟩
  · refine ⟨by rw [hlog]; rfl, by rw [hlog, List.append_nil]; rfl, Int.le_of_eq hnext.symm, ?_, ?_⟩
    · intro w hw
      cases hw
    · intro k hremembers
      rw [hlog] at hremembers
      exact Or.inl (InsertionSet.mem_erase.1 hremembers).2
  · exact .of_log_eq hlog (Int.le_of_eq hnext.symm)

theorem writes_warnDependents (p : Propagator σ) (id : ConstantId)
    (warnings : List (DependentWarning Float)) :
    ∃ written, Writes p (warnings.foldl (warnDependent id) p) written := by
  induction warnings generalizing p with
  | nil => exact ⟨_, .of_log_eq rfl (Int.le_refl _)⟩
  | cons warning warnings ih =>
    obtain ⟨first, hfirst⟩ : ∃ written, Writes p (warnDependent id p warning) written :=
      Writes.of_warn rfl (Int.le_refl _) fun _ harea => by cases harea
    obtain ⟨rest, hrest⟩ := ih (warnDependent id p warning)
    exact ⟨_, hfirst.trans hrest⟩

/-- After an accepted definition the log is what the warnings about the dependents have left: the
refreshing of constraints writes nothing, and neither does a failure. -/
theorem log_of_set {id : ConstantId} {input : Formula Float} {table : ConstantTable Float}
    {update : ConstantUpdate Float} (h : p.table.set id input = .ok (table, update)) :
    (p.setConstant id input).propagator.log =
      (update.warnings.foldl (warnDependent update.id) { p with table }).log := by
  let changed : Propagator σ := { p with table }
  let warned : Propagator σ := update.warnings.foldl (warnDependent update.id) changed
  obtain ⟨⟨solver, heq⟩, -⟩ := setConstant_of_set h
  obtain ⟨solver', tracked, hround⟩ :=
    exists_refreshAll_eq (warned.affected update.changed) { propagator := warned }
  have hlog : (changed.round update).1.propagator.log = warned.log := by
    unfold round
    rw [hround]
  rw [heq]
  exact hlog

/-- Setting a constant writes the warnings about its dependents only, whatever constraints it
detaches. -/
theorem writes_setConstant (p : Propagator σ) (id : ConstantId) (input : Formula Float) :
    ∃ written, Writes p (p.setConstant id input).propagator written := by
  have hnext := (SameRegistry.of_setConstant p id input).nextHandle_eq
  rcases p.setConstant_cases id input with ⟨fault, -, heq, -⟩ | ⟨table, update, hset, -, -⟩
  · rw [heq]
    exact ⟨_, .of_log_eq rfl (Int.le_refl _)⟩
  · let changed : Propagator σ := { p with table }
    let warned : Propagator σ := update.warnings.foldl (warnDependent update.id) changed
    have hchanged : Writes p changed [] := .of_log_eq rfl (Int.le_refl _)
    obtain ⟨written, hwarned⟩ := writes_warnDependents changed update.id update.warnings
    have hsame : warned.nextHandle = p.nextHandle := by
      obtain ⟨log, heq⟩ := exists_warned_eq changed update.id update.warnings
      simp only [warned, heq]
      rfl
    exact ⟨_, (hchanged.trans hwarned).trans
      (.of_log_eq (log_of_set hset) (Int.le_of_eq (hsame.trans hnext.symm)))⟩

theorem writes_perform (p : Propagator σ) (call : PropagatorCall σ) :
    ∃ written, Writes p (p.perform call) written := by
  have hself : Writes p p [] := .of_log_eq rfl (Int.le_refl _)
  cases call with
  | table call => exact ⟨_, .of_log_eq rfl (Int.le_refl _)⟩
  | add definition strength =>
    simp only [perform]
    cases hadd : p.add definition strength with
    | error failure => exact ⟨_, hself⟩
    | ok result => exact writes_add hadd
  | remove handle =>
    simp only [perform]
    cases hremove : p.remove handle with
    | error misuse => exact ⟨_, hself⟩
    | ok result => exact ⟨_, writes_remove hremove⟩
  | setConstant id input => exact writes_setConstant p id input

theorem writes_run (p : Propagator σ) (steps : List (PropagatorStep σ)) :
    ∃ written, Writes p (p.run steps) written := by
  induction steps generalizing p with
  | nil => exact ⟨_, .of_log_eq rfl (Int.le_refl _)⟩
  | cons s steps ih =>
    have hfacing : Writes p (p.facing s.answers) [] := .of_log_eq rfl (Int.le_refl _)
    obtain ⟨first, hfirst⟩ := writes_perform (p.facing s.answers) s.call
    obtain ⟨rest, hrest⟩ := ih (p.step s)
    exact ⟨_, (hfacing.trans hfirst).trans hrest⟩

/-- What is written of a constraint from its addition on, whatever is called afterwards: one
line if it had no variables when it was added, and nothing if it was installed then. So it is
the addition alone that reports a constraint as skipped. When a later call detaches it,
nothing is written. -/
theorem skips_since_add (table : ConstantTable Float) (policy : ConstantOnlyPolicy)
    (tolerance : Float) (steps : List (PropagatorStep σ)) (answers : SolverAnswers σ)
    (definition : Constraint Float) (strength : σ) (handle : Handle) (added : Propagator σ)
    (hadd : (((start table { devMode := true } policy tolerance).run steps).facing answers).add
      definition strength = .ok (handle, added)) (later : List (PropagatorStep σ)) :
    let before : Propagator σ := (start table { devMode := true } policy tolerance).run steps
    ∃ entry written, added.tracked.get? handle = some entry ∧
      (added.run later).log.lines = before.log.lines ++ written ∧
      written.filter (fun w => w.IsSkip handle) =
        match entry.slot with
        | .installed _ => []
        | .detached =>
          [{ area := .constraints, key := .detached handle
             detail := before.detachedText handle definition }] := by
  intro before
  have hhandle : handle = before.nextHandle := (add_eq_ok hadd).1
  obtain ⟨sofar, hsofar⟩ :=
    writes_run (start table { devMode := true } policy tolerance : Propagator σ) steps
  have hnew : ¬ before.log.Remembers .constraints (.detached handle) := by
    intro hremembers
    rcases hsofar.remembers handle hremembers with hstart | hlt
    · exact InsertionSet.not_mem_empty _ hstart
    · exact Int.lt_irrefl _ (hhandle ▸ hlt)
  obtain ⟨rest, hrest⟩ := writes_run added later
  have hquiet : rest.filter (fun w => w.IsSkip handle) = [] :=
    hrest.filter_eq_nil (lt_nextHandle_of_add hadd)
  obtain ⟨entry, hentry, hlog⟩ := log_of_add hadd
  cases hslot : entry.slot with
  | installed token =>
    rw [hslot] at hlog
    refine ⟨entry, rest, hentry, ?_, ?_⟩
    · rw [hrest.lines_eq, hlog]
      rfl
    · rw [hquiet, hslot]
  | detached =>
    rw [hslot] at hlog
    let line : Warning WarningKey :=
      { area := .constraints, key := .detached handle
        detail := before.detachedText handle definition }
    have hlines : added.log.lines = before.log.lines ++ [line] := by
      rw [hlog]
      exact Log.lines_warn_of_new hsofar.devMode_eq hnew _
    have hskip : decide (line.IsSkip handle) = true := decide_eq_true ⟨rfl, rfl⟩
    refine ⟨entry, line :: rest, hentry, ?_, ?_⟩
    · rw [hrest.lines_eq, hlines, List.append_assoc, List.singleton_append]
    · rw [List.filter_cons, if_pos hskip, hquiet, hslot]

theorem step_setConstant (p : Propagator σ) (id : ConstantId) (input : Formula Float)
    (answers : SolverAnswers σ) :
    p.step { call := .setConstant id input, answers } =
      ((p.facing answers).setConstant id input).propagator :=
  rfl

def scaled : Constraint Float where
  lhs := .binary .mul (.constant 1) (.var "x")
  relation := .equal
  rhs := .literal 0

def scaledForm : LinearConstraint Float Nat where
  terms := [⟨"x", 1⟩]
  offset := 0
  relation := .equal
  strength := 1
  constants := .singleton 1
  definition := scaled

def scaledInstalled : Tracked Nat where
  definition := scaled
  strength := 1
  linear := some scaledForm
  slot := .installed 1

def scaledSkipped : Tracked Nat where
  definition := scaled
  strength := 1
  linear := none
  slot := .detached

def scaledAt (v : Float) (solver : Recorder Nat) (log : Log WarningKey) (entry : Tracked Nat) :
    Propagator Nat where
  table := numbered v
  solver := solver
  log := log
  policy := .skip
  tracked := .singleton 1 entry
  mentions := .singleton 1 (.singleton 1)
  nextHandle := 2

section Scaled

variable (solver : Recorder Nat) (log : Log WarningKey) (entry : Tracked Nat)

theorem linearize_scaled_one {p : Propagator Nat} (htable : p.table = numbered 1)
    (htolerance : p.tolerance = defaultTolerance) : p.linearize scaled 1 = .ok scaledForm := by
  have hform : scaled.linearize defaultTolerance (numbered 1).valueOf? 1 = .ok scaledForm := by
    decide +kernel
  rw [linearize, htable, htolerance, hform]

theorem linearize_scaled_zero {p : Propagator Nat} (htable : p.table = numbered 0)
    (htolerance : p.tolerance = defaultTolerance) :
    p.linearize scaled 1 = .error (.noVariables 0) := by
  have hfault : scaled.linearize defaultTolerance (numbered 0).valueOf? (1 : Nat) =
      .error (.noVariables 0) := by
    decide +kernel
  rw [linearize, htable, htolerance, hfault]

/-- Zero takes the variable away, and the constraint is withdrawn. -/
theorem step_scaledAt_zero (token : SolverToken)
    (hinstalled : solver.installed.contains token = true) :
    ∃ solver', (scaledAt 1 solver log { scaledInstalled with slot := .installed token }).step
          { call := .setConstant 1 (.literal 0) } = scaledAt 0 solver' log scaledSkipped ∧
        solver'.nextToken = solver.nextToken ∧
        solver'.calls = solver.calls ++ [.remove token, .reoptimize] := by
  have hset := set_numbered (v := 1) (w := 0) (by decide)
  rw [if_neg (by decide)] at hset
  let entry : Tracked Nat := { scaledInstalled with slot := .installed token }
  let p : Propagator Nat := (scaledAt 1 solver log entry).facing {}
  have hfault : ({ p with table := numbered 0 } : Propagator Nat).linearize scaled 1 =
      .error (.noVariables 0) := linearize_scaled_zero rfl rfl
  have hremove : p.solver.remove token = .ok _ := if_pos hinstalled
  let r : Round Nat := { propagator := { p with table := numbered 0 } }
  have hrefresh : refresh r 1 entry = _ := refresh_of_noVariables rfl hfault rfl hremove
  have hcall := setConstant_of_refresh_ok (p := p) hset rfl (List.mergeSort_singleton 1) rfl
    hrefresh rfl rfl
  exact ⟨_, (step_setConstant _ _ _ _).trans (congrArg Propagation.propagator hcall), rfl,
    List.append_assoc _ _ _⟩

/-- One brings the variable back, and the constraint is installed under the next token. -/
theorem step_scaledAt_one :
    ∃ solver', (scaledAt 0 solver log scaledSkipped).step
          { call := .setConstant 1 (.literal 1) } =
        scaledAt 1 solver' log { scaledInstalled with slot := .installed solver.nextToken } ∧
      solver'.installed.contains solver.nextToken = true ∧
      solver'.calls = solver.calls ++ [.install solver.nextToken scaledForm, .reoptimize] := by
  have hset := set_numbered (v := 0) (w := 1) (by decide)
  rw [if_neg (by decide)] at hset
  let p : Propagator Nat := (scaledAt 0 solver log scaledSkipped).facing {}
  have hform : ({ p with table := numbered 1 } : Propagator Nat).linearize scaled 1 =
      .ok scaledForm := linearize_scaled_one rfl rfl
  have hinstall : p.solver.install scaledForm = .ok (solver.nextToken, _) := rfl
  let r : Round Nat := { propagator := { p with table := numbered 1 } }
  have hrefresh : refresh r 1 scaledSkipped = _ := refresh_of_detached rfl hform hinstall
  have hcall := setConstant_of_refresh_ok (p := p) hset rfl (List.mergeSort_singleton 1) rfl
    hrefresh rfl rfl
  refine ⟨_, (step_setConstant _ _ _ _).trans (congrArg Propagation.propagator hcall), ?_,
    List.append_assoc _ _ _⟩
  exact InsertionMap.contains_of_get? (InsertionMap.get?_insert_self _ _ _)

theorem add_scaled_one :
    (start (numbered 1) log .skip defaultTolerance).step { call := .add scaled 1 } =
      scaledAt 1
        { calls := [.install 1 scaledForm], installed := .singleton 1 scaledForm, nextToken := 2 }
        log scaledInstalled := by
  let p : Propagator Nat := (start (numbered 1) log .skip defaultTolerance).facing {}
  have hform : p.linearize scaled 1 = .ok scaledForm := linearize_scaled_one rfl rfl
  change p.perform _ = _
  simp only [perform, add, hform]
  rfl

theorem add_scaled_zero :
    ∃ log', ((start (numbered 0) log .skip defaultTolerance).facing {}).add scaled 1 =
      .ok (1, scaledAt 0 {} log' scaledSkipped) := by
  let p : Propagator Nat := (start (numbered 0) log .skip defaultTolerance).facing {}
  have hfault : p.linearize scaled 1 = .error (.noVariables 0) := linearize_scaled_zero rfl rfl
  have htolerates : p.Tolerates (.noVariables 0) := rfl
  change ∃ log', p.add scaled 1 = _
  simp only [add, hfault, htolerates, if_true]
  exact ⟨_, rfl⟩

end Scaled

/-- The constraint is added while the constant is zero. It is installed when the constant
becomes one and detached again when it becomes zero, and reported once all the same. -/
theorem skips_since_add_scaled :
    let before : Propagator Nat := start (numbered 0) { devMode := true } .skip defaultTolerance
    ∃ added : Propagator Nat, (before.facing {}).add scaled 1 = .ok (1, added) ∧
      let after : Propagator Nat := added.run
        [{ call := .setConstant 1 (.literal 1) }, { call := .setConstant 1 (.literal 0) }]
      (added.run [{ call := .setConstant 1 (.literal 1) }]).tracked.get? 1 =
          some scaledInstalled ∧
        after.tracked.get? 1 = some scaledSkipped ∧
        after.log.lines.filter (fun w => w.IsSkip 1) =
          [{ area := .constraints, key := .detached 1, detail := before.detachedText 1 scaled }] := by
  intro before
  obtain ⟨log, hadd⟩ := add_scaled_zero { devMode := true }
  refine ⟨_, hadd, ?_⟩
  intro after
  obtain ⟨solver, hone, hinstalled, -⟩ := step_scaledAt_one {} log
  obtain ⟨solver', hzero, -⟩ := step_scaledAt_zero solver log _ hinstalled
  have hafter : after = scaledAt 0 solver' log scaledSkipped := by
    simp only [after, run, List.foldl_cons, List.foldl_nil, hone, hzero]
  obtain ⟨entry, written, hentry, hlines, hskips⟩ := skips_since_add (numbered 0) .skip
    defaultTolerance [] {} scaled 1 1 _ hadd
    [{ call := .setConstant 1 (.literal 1) }, { call := .setConstant 1 (.literal 0) }]
  obtain rfl : scaledSkipped = entry := Option.some.inj hentry
  refine ⟨?_, ?_, ?_⟩
  · rw [run, List.foldl_cons, List.foldl_nil, hone]
    rfl
  · rw [hafter]
    rfl
  · rw [hlines]
    exact hskips

/-- The constraint is added while the constant is one. Then the constant becomes zero. -/
def detachingSteps : List (PropagatorStep Nat) :=
  [{ call := .table (.declare "c") }, { call := .setConstant 1 (.literal 1) },
    { call := .add scaled 1 }, { call := .setConstant 1 (.literal 0) }]

/-- After these calls the constraint is skipped, and nothing at all has been written. -/
theorem exists_detached_unreported :
    let p : Propagator Nat :=
      (start ∅ { devMode := true } .skip defaultTolerance).run detachingSteps
    p.tracked.get? 1 = some scaledSkipped ∧ p.log.lines = [] ∧
      ¬ ∀ handle entry, p.tracked.get? handle = some entry → entry.slot = .detached →
        ∃ w ∈ p.log.lines, w.IsSkip handle := by
  intro p
  have hadd := add_scaled_one { devMode := true }
  obtain ⟨solver, hzero, -⟩ := step_scaledAt_zero
    { calls := [.install 1 scaledForm], installed := .singleton 1 scaledForm, nextToken := 2 }
    { devMode := true } 1 rfl
  have hdeclare : (start ∅ { devMode := true } .skip defaultTolerance : Propagator Nat).step
      { call := .table (.declare "c") } =
        start { labels := ["c"] } { devMode := true } .skip defaultTolerance := rfl
  have hdefine := step_define (σ := Nat) (v := 1) { devMode := true } .skip (by decide)
  have hp : p = scaledAt 0 solver { devMode := true } scaledSkipped := by
    simp only [p, run, detachingSteps, List.foldl_cons, List.foldl_nil, hdeclare, hdefine, hadd]
    exact hzero
  rw [hp]
  refine ⟨rfl, rfl, fun hreported => ?_⟩
  obtain ⟨w, hw, -⟩ := hreported 1 scaledSkipped rfl rfl
  cases hw

end Propagator

end NamedConstants
