import Mathlib.Data.List.Induction
import NamedConstants.Proofs.Propagation.Currency

/-!
The constraints that a run leaves overdue: some call has missed them, and no later call
has linearized them again. They are the only ones whose stored form can be out of date.
-/
namespace NamedConstants

/-- A variable against a constant. -/
theorem Constraint.linearize_var_constant {lookup : ConstantId → Option Float} {id : ConstantId}
    {v tolerance : Float} {σ : Type} {strength : σ} {name : String} {relation : Relation}
    (hvalue : lookup id = some v)
    (hfinite : Arithmetic.isFinite (Arithmetic.zero + -Arithmetic.one * v + Arithmetic.zero) =
      true) :
    Constraint.linearize tolerance lookup strength
        { lhs := .var name, relation, rhs := .constant id } =
      .ok
        { terms := [⟨name, Arithmetic.one⟩]
          offset := Arithmetic.zero + -Arithmetic.one * v + Arithmetic.zero
          relation, strength
          constants := .singleton id
          definition := { lhs := .var name, relation, rhs := .constant id } } := by
  have hterms : nonzeroTerms [(name, (Arithmetic.one : Float))] =
      .ok [⟨name, Arithmetic.one⟩] := by
    have hone : Arithmetic.isFinite (Arithmetic.one : Float) = true := by decide
    have hnonzero : Arithmetic.isZero (Arithmetic.one : Float) = false := by decide
    simp only [nonzeroTerms, hone, hnonzero]
    rfl
  simp only [linearize, Expr.linearForm, hvalue, LinearForm.ofVariable, LinearForm.ofConstant,
    LinearForm.combine, hfinite, InsertionMap.singleton, EmptyCollection.emptyCollection,
    List.foldl_nil, hterms]
  rfl

namespace Propagator

variable {σ : Type}

def relinearizedIn (p : Propagator σ) : List (PropagatorStep σ) → List Handle
  | [] => []
  | s :: steps => (p.facing s.answers).relinearizedBy s.call ++ (p.step s).relinearizedIn steps

theorem relinearizedIn_append_singleton (p : Propagator σ) (steps : List (PropagatorStep σ))
    (s : PropagatorStep σ) :
    p.relinearizedIn (steps ++ [s]) =
      p.relinearizedIn steps ++ ((p.run steps).facing s.answers).relinearizedBy s.call := by
  induction steps generalizing p with
  | nil => simp [relinearizedIn, run]
  | cons first steps ih =>
    have hrun : p.run (first :: steps) = (p.step first).run steps := rfl
    rw [List.cons_append, relinearizedIn, relinearizedIn, ih, hrun, List.append_assoc]

/-- A call has missed the constraint, and no later one has linearized it again. -/
def Overdue (p : Propagator σ) (steps : List (PropagatorStep σ)) (handle : Handle) : Prop :=
  ∃ earlier s later, steps = earlier ++ s :: later ∧
    ((p.run earlier).facing s.answers).Missed s.call handle ∧
    handle ∉ ((p.run earlier).step s).relinearizedIn later

namespace Overdue

variable {p : Propagator σ} {steps : List (PropagatorStep σ)} {s : PropagatorStep σ}
  {handle : Handle}

theorem of_missed (h : ((p.run steps).facing s.answers).Missed s.call handle) :
    p.Overdue (steps ++ [s]) handle :=
  ⟨steps, s, [], rfl, h, List.not_mem_nil⟩

theorem append_singleton (h : p.Overdue steps handle)
    (hnot : handle ∉ ((p.run steps).facing s.answers).relinearizedBy s.call) :
    p.Overdue (steps ++ [s]) handle := by
  obtain ⟨earlier, missing, later, rfl, hmissed, hlater⟩ := h
  refine ⟨earlier, missing, later ++ [s], by simp, hmissed, ?_⟩
  rw [relinearizedIn_append_singleton, List.mem_append, not_or, ← run_append_cons]
  exact ⟨hlater, hnot⟩

/-- A constraint that the last call has linearized is not overdue. -/
theorem not_append_singleton
    (h : handle ∈ ((p.run steps).facing s.answers).relinearizedBy s.call) :
    ¬ p.Overdue (steps ++ [s]) handle := by
  rintro ⟨earlier, missing, later, hsteps, ⟨-, hnot, -⟩, hlater⟩
  rcases List.eq_nil_or_concat' later with rfl | ⟨init, last, rfl⟩
  · obtain ⟨rfl, rfl⟩ := List.append_singleton_inj.1 hsteps
    exact hnot h
  · rw [← List.cons_append, ← List.append_assoc] at hsteps
    obtain ⟨rfl, rfl⟩ := List.append_singleton_inj.1 hsteps
    rw [relinearizedIn_append_singleton, List.mem_append, not_or, ← run_append_cons] at hlater
    exact hlater.2 h

end Overdue

theorem kept_perform {p : Propagator σ} (hp : p.InStep) {call : PropagatorCall σ}
    (hthrough : call.IsThrough) {handle : Handle} {entry' : Tracked σ}
    (hentry' : (p.perform call).tracked.get? handle = some entry') :
    p.Kept call handle entry' := by
  cases call with
  | table call =>
    cases call with
    | declare label =>
      exact Or.inr ⟨List.not_mem_nil, hentry', Or.inr fun h => h.congr (fun _ _ => rfl) rfl rfl⟩
    | set id input => exact hthrough.elim
  | add definition strength => exact kept_add hentry'
  | remove removed => exact kept_remove hentry'
  | setConstant id input => exact kept_setConstant hp hentry'

/-- A constraint that is not overdue is current after every run through the propagator. -/
theorem isCurrent_of_not_overdue (table : ConstantTable Float) (log : Log WarningKey)
    (policy : ConstantOnlyPolicy) (tolerance : Float) (steps : List (PropagatorStep σ))
    (hthrough : ∀ s ∈ steps, s.call.IsThrough) {handle : Handle} {entry : Tracked σ}
    (hentry : ((start table log policy tolerance).run steps).tracked.get? handle = some entry)
    (hnot : ¬ (start table log policy tolerance).Overdue steps handle) :
    ((start table log policy tolerance).run steps).IsCurrent entry := by
  induction steps using List.reverseRecOn generalizing entry with
  | nil => cases hentry
  | append_singleton steps s ih =>
    have hp : ((start table log policy tolerance).run steps).InStep :=
      inStep_run (inStep_start table log policy tolerance) steps
    have hstep : s.call.IsThrough := hthrough s (by simp)
    rw [run_append_singleton] at hentry ⊢
    rcases kept_perform (hp.facing s.answers) hstep hentry with
      hcurrent | ⟨hrelinearized, hbefore, hmissed | hkeep⟩
    · exact hcurrent
    · exact absurd (Overdue.of_missed hmissed) hnot
    · apply hkeep
      have hcurrent := ih (fun s' hs' => hthrough s' (List.mem_append_left _ hs')) hbefore
        fun hold => hnot (hold.append_singleton hrelinearized)
      exact hcurrent.congr (fun _ _ => rfl) rfl rfl

/-- Incremental propagation against linearizing anew: after any run in which the table is
set through the propagator only, whatever the solver answers, each constraint that is not
overdue has stored what linearizing it against the table gives, and if no call was
interrupted this is each constraint. -/
theorem stored_forms_current (table : ConstantTable Float) (log : Log WarningKey)
    (policy : ConstantOnlyPolicy) (tolerance : Float) (steps : List (PropagatorStep σ))
    (hthrough : ∀ s ∈ steps, s.call.IsThrough) :
    let first : Propagator σ := start table log policy tolerance
    (∀ handle entry, (first.run steps).tracked.get? handle = some entry →
      ¬ first.Overdue steps handle → (first.run steps).IsCurrent entry) ∧
    ((∀ earlier s later, steps = earlier ++ s :: later →
        ¬ ((first.run earlier).facing s.answers).Interrupted s.call) →
      ∀ handle entry, (first.run steps).tracked.get? handle = some entry →
        (first.run steps).IsCurrent entry) := by
  intro first
  constructor
  · intro handle entry hentry hnot
    exact isCurrent_of_not_overdue table log policy tolerance steps hthrough hentry hnot
  · intro hsmooth handle entry hentry
    refine isCurrent_of_not_overdue table log policy tolerance steps hthrough hentry ?_
    rintro ⟨earlier, s, later, hsteps, hmissed, -⟩
    exact hsmooth earlier s later hsteps hmissed.1

def numbered (v : Float) : ConstantTable Float where
  labels := ["c"]
  definitions := .singleton 1 (.literal v)
  values := .singleton 1 v
  references := .singleton 1 ∅

def pinned : Constraint Float := { lhs := .var "x", relation := .equal, rhs := .constant 1 }

def pinnedForm (v : Float) : LinearConstraint Float Nat where
  terms := [⟨"x", Arithmetic.one⟩]
  offset := Arithmetic.zero + -Arithmetic.one * v + Arithmetic.zero
  relation := .equal
  strength := 1
  constants := .singleton 1
  definition := pinned

def pinnedEntry (v : Float) : Tracked Nat where
  definition := pinned
  strength := 1
  linear := some (pinnedForm v)
  slot := .installed 1

/-- The constant is `w`, and the constraint is installed in the form for `v`. -/
def pinnedAt (v w : Float) : Propagator Nat where
  table := numbered w
  solver :=
    { calls := [.install 1 (pinnedForm v)]
      installed := .singleton 1 (pinnedForm v)
      nextToken := 2 }
  log := { devMode := true }
  tracked := .singleton 1 (pinnedEntry v)
  mentions := .singleton 1 (.singleton 1)
  nextHandle := 2

theorem linearize_pinned {p : Propagator Nat} {v : Float} (hvalue : p.table.valueOf? 1 = some v)
    (hfinite : Arithmetic.isFinite (pinnedForm v).offset = true) :
    p.linearize pinned 1 = .ok (pinnedForm v) :=
  Constraint.linearize_var_constant hvalue hfinite

theorem set_numbered {v w : Float} (hfinite : Arithmetic.isFinite w = true) :
    (numbered v).set 1 (.literal w) =
      .ok (numbered w,
        { id := 1, value := w, warnings := []
          changed := if some v = some w then []
            else [{ id := 1, previous := some v, value := some w }] }) :=
  ConstantTable.set_literal (t := numbered v) ⟨Int.le_refl 1, Int.le_refl 1⟩ hfinite rfl

theorem set_unset {v : Float} (hfinite : Arithmetic.isFinite v = true) :
    ({ labels := ["c"] } : ConstantTable Float).set 1 (.literal v) =
      .ok (numbered v,
        { id := 1, value := v, warnings := []
          changed := [{ id := 1, previous := none, value := some v }] }) :=
  ConstantTable.set_literal (t := { labels := ["c"] }) ⟨Int.le_refl 1, Int.le_refl 1⟩ hfinite rfl

/-- The first definition of the constant, before there are any constraints. -/
theorem step_define {v : Float} (log : Log WarningKey) (policy : ConstantOnlyPolicy)
    (hfinite : Arithmetic.isFinite v = true) :
    (start { labels := ["c"] } log policy defaultTolerance : Propagator σ).step
      { call := .setConstant 1 (.literal v) } = start (numbered v) log policy defaultTolerance := by
  let unset : Propagator σ := start { labels := ["c"] } log policy defaultTolerance
  exact congrArg Propagation.propagator (setConstant_of_unmentioned (p := unset)
    (set_unset hfinite) rfl fun change _ handle => InsertionSet.not_mem_empty handle)

/-- The constant is set to 2 and the constraint added; then it cannot be set to 3. -/
def pinnedSteps : List (PropagatorStep Nat) :=
  [{ call := .table (.declare "c") }, { call := .setConstant 1 (.literal 2) },
    { call := .add pinned 1 },
    { call := .setConstant 1 (.literal 3), answers := { refusal := fun _ _ => some "busy" } }]

theorem step_add_pinned {v : Float}
    (hfinite : Arithmetic.isFinite (pinnedForm v).offset = true) :
    (start (numbered v) { devMode := true } .reject defaultTolerance).step
      { call := .add pinned 1 } = pinnedAt v v := by
  let p : Propagator Nat := start (numbered v) { devMode := true } .reject defaultTolerance
  have hform : (p.facing {}).linearize pinned 1 = .ok (pinnedForm v) :=
    linearize_pinned rfl hfinite
  change (p.facing {}).perform _ = _
  simp only [perform, add, hform]
  rfl

theorem run_take_pinnedSteps :
    (start ∅ { devMode := true } .reject defaultTolerance).run (pinnedSteps.take 3) =
      pinnedAt 2 2 := by
  let unset : Propagator Nat :=
    start { labels := ["c"] } { devMode := true } .reject defaultTolerance
  let defined : Propagator Nat := start (numbered 2) { devMode := true } .reject defaultTolerance
  have hdefined : unset.step { call := .setConstant 1 (.literal 2) } = defined :=
    step_define _ _ (by decide)
  have hadded : defined.step { call := .add pinned 1 } = pinnedAt 2 2 :=
    step_add_pinned (by decide +kernel)
  change (unset.step { call := .setConstant 1 (.literal 2) }).step { call := .add pinned 1 } = _
  rw [hdefined, hadded]

/-- The solver refuses the form for 3, but the table has the number by then. -/
theorem setConstant_refused :
    let refusing : SolverAnswers Nat := { refusal := fun _ _ => some "busy" }
    let p : Propagator Nat := (pinnedAt 2 2).facing refusing
    (p.setConstant 1 (.literal 3)).propagator = (pinnedAt 2 3).facing refusing ∧
      (p.setConstant 1 (.literal 3)).result = .error (.infeasible { detail := "busy" }) ∧
      p.relinearizedBy (.setConstant 1 (.literal 3)) = [] := by
  intro refusing p
  have hform : ((pinnedAt 2 3).facing refusing).linearize pinned 1 = .ok (pinnedForm 3) :=
    linearize_pinned rfl (by decide +kernel)
  have hset : p.table.set 1 (.literal 3) = _ := set_numbered (v := 2) (w := 3) (by decide)
  rw [if_neg (by decide)] at hset
  have haffected : ({ p with table := numbered 3 } : Propagator Nat).affected
      [{ id := 1, previous := some 2, value := some 3 }] = [1] := List.mergeSort_singleton 1
  have hentry : p.tracked.get? 1 = some (pinnedEntry 2) := rfl
  have hrefresh : refresh { propagator := (pinnedAt 2 3).facing refusing } 1 (pinnedEntry 2) =
      .error (.infeasible { detail := "busy" }) := by
    simp only [refresh, pinnedEntry, hform]
    rfl
  have hcall := setConstant_of_refresh_error hset rfl haffected hentry hrefresh
  rw [hcall]
  refine ⟨rfl, rfl, ?_⟩
  have hrefresh' : refresh { propagator := { p with table := numbered 3 } } 1 (pinnedEntry 2) =
      .error (.infeasible { detail := "busy" }) := hrefresh
  simp only [relinearizedBy, hset, round, List.foldl_nil, haffected, refreshAll, hentry, hrefresh']

theorem run_pinnedSteps :
    ((start ∅ { devMode := true } .reject defaultTolerance).run pinnedSteps).facing {} =
      pinnedAt 2 3 := by
  have hsteps : pinnedSteps = pinnedSteps.take 3 ++
      [{ call := .setConstant 1 (.literal 3), answers := { refusal := fun _ _ => some "busy" } }] :=
    rfl
  rw [hsteps, run_append_singleton, run_take_pinnedSteps, step, perform, setConstant_refused.1]
  rfl

theorem isThrough_pinnedSteps : ∀ s ∈ pinnedSteps, s.call.IsThrough := by
  intro s hs
  simp only [pinnedSteps, List.mem_cons, List.not_mem_nil, or_false] at hs
  rcases hs with rfl | rfl | rfl | rfl <;> trivial

/-- When nothing is refused, the constraint is installed in the form for 4. -/
theorem setConstant_pinned :
    let update : ConstantUpdate Float :=
      { id := 1, value := 4, warnings := []
        changed := [{ id := 1, previous := some 3, value := some 4 }] }
    let after : Propagation Nat := (pinnedAt 2 3).setConstant 1 (.literal 4)
    after.result = .ok { update, relinearized := [1], reoptimized := true } ∧
      after.propagator.tracked.get? 1 = some (pinnedEntry 4) ∧
      (pinnedAt 2 3).relinearizedBy (.setConstant 1 (.literal 4)) = [1] := by
  intro update after
  have hset := set_numbered (v := 3) (w := 4) (by decide)
  rw [if_neg (by decide)] at hset
  have hform : (pinnedAt 2 4).linearize pinned 1 = .ok (pinnedForm 4) :=
    linearize_pinned rfl (by decide +kernel)
  have haffected : (pinnedAt 2 4).affected update.changed = [1] := List.mergeSort_singleton 1
  have hentry : (pinnedAt 2 3).tracked.get? 1 = some (pinnedEntry 2) := rfl
  have hrefresh : ∃ next, refresh { propagator := pinnedAt 2 4 } 1 (pinnedEntry 2) = .ok next ∧
      next.propagator.solver.optimizeFailure = none ∧ next.relinearized = [1] ∧
      next.touched = true ∧ next.propagator.tracked.get? 1 = some (pinnedEntry 4) := by
    simp only [refresh, pinnedEntry, hform]
    exact ⟨_, rfl, rfl, rfl, rfl, rfl⟩
  obtain ⟨next, hrefresh, hoptimizes, hrelinearized, htouched, htracked⟩ := hrefresh
  have hcall : after = _ := setConstant_of_refresh_ok (p := pinnedAt 2 3) hset rfl haffected hentry
    hrefresh htouched hoptimizes
  rw [hcall]
  refine ⟨?_, htracked, ?_⟩
  · rw [hrelinearized]
  · have hresult : after.result = _ := congrArg Propagation.result hcall
    rw [relinearizedBy_of_result_eq_ok hresult, hrelinearized]

/-- The update to 3 is refused, and so the constraint is overdue. An update to 4 makes up for
it. -/
theorem stored_forms_current_recovered :
    let steps : List (PropagatorStep Nat) :=
      pinnedSteps ++ [{ call := .setConstant 1 (.literal 4) }]
    let first : Propagator Nat := start ∅ { devMode := true } .reject defaultTolerance
    (∀ s ∈ steps, s.call.IsThrough) ∧ first.Overdue pinnedSteps 1 ∧ ¬ first.Overdue steps 1 ∧
      (first.run steps).tracked.get? 1 = some (pinnedEntry 4) ∧
      (first.run steps).IsCurrent (pinnedEntry 4) := by
  intro steps first
  have hthrough : ∀ s ∈ steps, s.call.IsThrough := by
    intro s hs
    rcases List.mem_append.1 hs with hs | hs
    · exact isThrough_pinnedSteps s hs
    · rw [List.mem_singleton.1 hs]
      trivial
  obtain ⟨hset, hresult, hnone⟩ := setConstant_refused
  obtain ⟨-, hentry, hrelinearized⟩ := setConstant_pinned
  let refused : PropagatorStep Nat :=
    { call := .setConstant 1 (.literal 3), answers := { refusal := fun _ _ => some "busy" } }
  have hmissed : ((first.run (pinnedSteps.take 3)).facing refused.answers).Missed refused.call 1 := by
    rw [run_take_pinnedSteps]
    refine ⟨⟨_, hresult, trivial⟩, ?_, pinnedEntry 2, rfl, 1, by decide, ?_⟩
    · rw [hnone]
      exact List.not_mem_nil
    · rw [perform, hset]
      decide
  have hoverdue : first.Overdue pinnedSteps 1 := Overdue.of_missed hmissed
  have hnot : ¬ first.Overdue steps 1 := by
    refine Overdue.not_append_singleton ?_
    rw [run_pinnedSteps, hrelinearized]
    exact List.mem_singleton_self 1
  have htracked : (first.run steps).tracked.get? 1 = some (pinnedEntry 4) := by
    rw [run_append_singleton, step, run_pinnedSteps]
    exact hentry
  obtain ⟨hcurrent, -⟩ := stored_forms_current ∅ { devMode := true } .reject defaultTolerance
    steps hthrough
  refine ⟨hthrough, hoverdue, hnot, htracked, ?_⟩
  generalize first.run steps = q at *
  exact hcurrent 1 (pinnedEntry 4) htracked hnot

end Propagator

end NamedConstants
