import NamedConstants.Proofs.Propagation.Currency

/-!
What the index of constants is good for. It is made from the definition of a constraint when
this is added, and a stored form lists what was read when it was made. Both are the same
constants, so whatever a form depends on leads to its constraint.
-/
namespace NamedConstants.Propagator

variable {σ : Type} {p : Propagator σ} {entry : Tracked σ}

/-- The stored form, if there is one, is what the constraint has come to with some values. -/
def Derived (entry : Tracked σ) : Prop :=
  ∀ linear, entry.linear = some linear →
    ∃ tolerance lookup, entry.definition.linearize tolerance lookup entry.strength = .ok linear

theorem IsCurrent.derived (h : p.IsCurrent entry) : Derived entry := by
  intro linear hlinear
  cases hform : p.linearize entry.definition entry.strength with
  | ok linear' =>
    rw [h.linear_eq hform, Option.some.injEq] at hlinear
    exact ⟨p.tolerance, p.table.valueOf?, hlinear ▸ hform⟩
  | error fault =>
    unfold IsCurrent at h
    rw [hform] at h
    obtain ⟨-, hnone, -⟩ := h
    rw [hlinear] at hnone
    cases hnone

/-- A call leaves behind current constraints and such as were there before. -/
theorem InStep.isCurrent_or_tracked (hp : p.InStep) (call : PropagatorCall σ) {handle : Handle}
    (hentry : (p.perform call).tracked.get? handle = some entry) :
    (p.perform call).IsCurrent entry ∨ p.tracked.get? handle = some entry := by
  cases call with
  | table call => exact Or.inr hentry
  | add definition strength => exact (kept_add hentry).imp_right fun h => h.2.1
  | remove removed => exact (kept_remove hentry).imp_right fun h => h.2.1
  | setConstant id input => exact (kept_setConstant hp hentry).imp_right fun h => h.2.1

theorem InStep.derived_run (hp : p.InStep)
    (hderived : ∀ handle entry, p.tracked.get? handle = some entry → Derived entry)
    (steps : List (PropagatorStep σ)) {handle : Handle}
    (hentry : (p.run steps).tracked.get? handle = some entry) : Derived entry := by
  refine (run_induction
    (P := fun q => q.InStep ∧ ∀ k e, q.tracked.get? k = some e → Derived e) ?_ ?_
    ⟨hp, hderived⟩ steps).2 handle entry hentry
  · rintro q answers ⟨hq, hold⟩
    exact ⟨hq.facing answers, hold⟩
  · rintro q call ⟨hq, hold⟩
    refine ⟨hq.perform call, fun k e he => ?_⟩
    rcases hq.isCurrent_or_tracked call he with hcurrent | hbefore
    · exact hcurrent.derived
    · exact hold k e hbefore

/-- The constants of a linear constraint are those that its definition mentions, by where each
is mentioned first, and no others bear on what a definition comes to, be it a form or a failure.
So the index misses nothing. After any run it leads to a tracked constraint from the
constants of the form stored for it and from no others, and if the constraint comes to
different things under different values, then they differ at a constant that leads to it. -/
theorem index_covers_forms (table : ConstantTable Float) (log : Log WarningKey)
    (policy : ConstantOnlyPolicy) (tolerance : Float) (steps : List (PropagatorStep σ)) :
    let p : Propagator σ := (start table log policy tolerance).run steps
    (∀ (c : Constraint Float) (slack : Float) (lookup : ConstantId → Option Float)
      (strength : σ) (linear : LinearConstraint Float σ),
      c.linearize slack lookup strength = .ok linear →
        linear.constants = c.constants ∧
        linear.constants.toList.Pairwise fun a b =>
          (c.lhs.constantLeaves ++ c.rhs.constantLeaves).idxOf a <
            (c.lhs.constantLeaves ++ c.rhs.constantLeaves).idxOf b) ∧
    (∀ (c : Constraint Float) (slack : Float) (lookup lookup' : ConstantId → Option Float)
      (strength : σ), (∀ id ∈ c.constants, lookup id = lookup' id) →
        c.linearize slack lookup strength = c.linearize slack lookup' strength) ∧
    ∀ handle entry, p.tracked.get? handle = some entry →
      (∀ linear, entry.linear = some linear →
        ∀ id, handle ∈ p.handlesFor id ↔ id ∈ linear.constants) ∧
      ∀ (slack : Float) (lookup lookup' : ConstantId → Option Float),
        entry.definition.linearize slack lookup entry.strength ≠
            entry.definition.linearize slack lookup' entry.strength →
          ∃ id, handle ∈ p.handlesFor id ∧ lookup id ≠ lookup' id := by
  intro p
  have hstart : (start table log policy tolerance : Propagator σ).InStep :=
    inStep_start table log policy tolerance
  have hindexed : p.Indexed := (inStep_run hstart steps).indexed
  refine ⟨fun c slack lookup strength linear hlinear => ?_,
    fun c slack lookup lookup' strength => c.linearize_congr slack strength,
    fun handle entry hentry => ?_⟩
  · have hconstants := Constraint.constants_linearize hlinear
    rw [hconstants]
    exact ⟨rfl, InsertionSet.pairwise_idxOf_ofList _⟩
  · have hlisted := hindexed.mem_handlesFor_of_get? hentry
    constructor
    · intro linear hlinear id
      obtain ⟨slack, lookup, hform⟩ :=
        hstart.derived_run (fun _ _ h => by cases h) steps hentry linear hlinear
      rw [hlisted, Constraint.constants_linearize hform]
    · intro slack lookup lookup' hne
      by_contra hnone
      push Not at hnone
      refine hne (entry.definition.linearize_congr slack entry.strength fun id hid => ?_)
      exact hnone id ((hlisted id).2 hid)

def twoAndThree : ConstantTable Float where
  labels := ["a", "b"]
  definitions := (InsertionMap.singleton 1 (.literal 2)).insert 2 (.literal 3)
  values := (InsertionMap.singleton 1 2).insert 2 3

def sharing : Constraint Float where
  lhs := .binary .sub (.binary .add (.binary .mul (.constant 2) (.var "x")) (.constant 1))
    (.constant 2)
  relation := .atMost
  rhs := .constant 1

def sharingForm : LinearConstraint Float Nat where
  terms := [⟨"x", 3⟩]
  offset := -3
  relation := .atMost
  strength := 1
  constants := .ofList [2, 1]
  definition := sharing

def sharingEntry : Tracked Nat where
  definition := sharing
  strength := 1
  linear := some sharingForm
  slot := .installed 1

/-- A solver without objections takes a constraint that has a form. -/
theorem get?_run_add (p : Propagator σ) {definition : Constraint Float} {strength : σ}
    {linear : LinearConstraint Float σ} (h : p.linearize definition strength = .ok linear) :
    (p.run [{ call := .add definition strength }]).tracked.get? p.nextHandle = some
      { definition, strength, linear := some linear, slot := .installed p.solver.nextToken } := by
  have hform : (p.facing {}).linearize definition strength = .ok linear := h
  have hrun : p.run [{ call := .add definition strength }] =
      (p.facing {}).perform (.add definition strength) := rfl
  rw [hrun]
  simp only [perform, add, hform]
  exact InsertionMap.get?_insert_self _ _ _

theorem linearize_sharing :
    sharing.linearize defaultTolerance twoAndThree.valueOf? 1 = .ok sharingForm := by
  decide +kernel

theorem tracked_sharing :
    ((start twoAndThree { devMode := true } .reject defaultTolerance).run
      [{ call := .add sharing 1 }]).tracked.get? 1 = some sharingEntry :=
  get?_run_add (start twoAndThree { devMode := true } .reject defaultTolerance) linearize_sharing

/-- The index leads to the constraint from both constants, each of which is mentioned twice, and
the second one is where values differ that give it another coefficient. -/
theorem index_covers_forms_sharing :
    let p : Propagator Nat := (start twoAndThree { devMode := true } .reject defaultTolerance).run
      [{ call := .add sharing 1 }]
    let altered : ConstantId → Option Float := fun id => if id = 2 then some 4 else some 2
    p.tracked.get? 1 = some sharingEntry ∧
      sharing.linearize defaultTolerance twoAndThree.valueOf? 1 = .ok sharingForm ∧
      sharingForm.constants = sharing.constants ∧
      (∀ id, 1 ∈ p.handlesFor id ↔ id ∈ sharingForm.constants) ∧
      (sharing.linearize defaultTolerance altered 1 =
        sharing.linearize defaultTolerance (fun id => if id = 1 then some 2 else some 4) 1) ∧
      ∃ id, 1 ∈ p.handlesFor id ∧ twoAndThree.valueOf? id ≠ altered id := by
  intro p altered
  have hagree : ∀ id ∈ sharing.constants,
      altered id = (fun id => if id = 1 then some 2 else some 4) id := by decide +kernel
  have hdiffer : sharing.linearize defaultTolerance twoAndThree.valueOf? 1 ≠
      sharing.linearize defaultTolerance altered 1 := by decide +kernel
  obtain ⟨hconstants, hreads, hindex⟩ := index_covers_forms twoAndThree { devMode := true }
    .reject defaultTolerance [{ call := .add sharing 1 }]
  obtain ⟨hstored, hvalues⟩ := hindex 1 sharingEntry tracked_sharing
  exact ⟨tracked_sharing, linearize_sharing,
    (hconstants sharing _ _ 1 sharingForm linearize_sharing).1,
    hstored sharingForm rfl, hreads sharing _ _ _ 1 hagree, hvalues _ _ _ hdiffer⟩

end NamedConstants.Propagator
