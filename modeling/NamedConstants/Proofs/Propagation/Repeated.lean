import NamedConstants.Proofs.Constants.Acceptance
import NamedConstants.Proofs.Propagation.Retry

/-!
Settings that are repeated. A definition that was accepted is accepted again with the same
value, since the sweep that followed it has not touched what it reads. The second setting
reports nothing, leaves the table as it is apart from the order in which dependents are listed,
and asks the solver for nothing, whatever has become of the first one there.
-/
namespace NamedConstants.Propagator

variable {σ : Type}

def idleUpdate (id : ConstantId) (value : Float) : ConstantUpdate Float :=
  { id, value, changed := [], warnings := [] }

/-- A setting that was accepted can be repeated without consequences. The table accepts it
again with the same value, reports no changes and no warnings, and keeps every definition,
value and edge. Through a propagator, in any state that calls lead to, the repetition succeeds
even if the first setting has failed after the table had taken the definition, and nothing
but the table is written: the solver is not called, and no constraint or warning is touched. -/
theorem repeated_setting_idle (id : ConstantId) (input : Formula Float) :
    (∀ (calls : List (TableCall Float)) (t : ConstantTable Float) (update : ConstantUpdate Float),
      ((∅ : ConstantTable Float).after calls).set id input = .ok (t, update) →
      ∃ t', t.set id input = .ok (t', idleUpdate id update.value) ∧ t.Unaltered t') ∧
    ∀ (log : Log WarningKey) (policy : ConstantOnlyPolicy) (tolerance : Float)
      (steps : List (PropagatorStep σ)) (answers answers' : SolverAnswers σ)
      (t : ConstantTable Float) (update : ConstantUpdate Float),
      let p : Propagator σ := ((start ∅ log policy tolerance).run steps).facing answers
      p.table.set id input = .ok (t, update) →
      let q : Propagator σ := (p.setConstant id input).propagator.facing answers'
      q.table = t ∧ (q.setConstant id input).propagator.solver = q.solver ∧
        ∃ table, q.table.Unaltered table ∧ q.setConstant id input =
          { propagator := { q with table }
            update? := some (idleUpdate id update.value)
            result := .ok
              { update := idleUpdate id update.value, relinearized := [], reoptimized := false } } := by
  constructor
  · intro calls t update h
    have ht : ((∅ : ConstantTable Float).after calls).Coherent :=
      ConstantTable.coherent_after ConstantTable.coherent_empty calls
    exact ConstantTable.set_again ht h
  · intro log policy tolerance steps answers answers' t update p hset q
    have ht : p.table.Coherent :=
      coherent_run (p := start ∅ log policy tolerance) ConstantTable.coherent_empty steps
    obtain ⟨table, hunaltered, hagain⟩ := setConstant_again ht hset answers'
    refine ⟨(setConstant_of_set hset).2.1.1, ?_, table, hunaltered, hagain⟩
    rw [hagain]

def reciprocal : Formula Float := .binary .div (.literal 1) (.binary .sub (.constant 2) (.constant 1))

/-- `a` is 2, `b` is 3, and `d` is the reciprocal of their difference. -/
def quotientCalls : List (TableCall Float) :=
  [.declare "a", .declare "b", .declare "d", .set 1 (.literal 2), .set 2 (.literal 3),
    .set 3 reciprocal]

def operands : ConstantTable Float where
  labels := ["a", "b", "d"]
  toConstantGraph := ConstantTable.enter (ConstantTable.enter {} 1 (.literal 2) 2) 2 (.literal 3) 3

def quotient : ConstantTable Float :=
  { operands with
    toConstantGraph := ConstantTable.enter operands.toConstantGraph 3 (.formula reciprocal) 1 }

theorem after_operands :
    (∅ : ConstantTable Float).after (quotientCalls.take 5) = operands := by
  let unset : ConstantTable Float := { labels := ["a", "b", "d"] }
  let two : ConstantTable Float :=
    { unset with toConstantGraph := ConstantTable.enter {} 1 (.literal 2) 2 }
  have htwo : unset.set 1 (.literal 2) = .ok (two, _) :=
    ConstantTable.set_literal (by decide) (by decide) rfl
  have hthree : two.set 2 (.literal 3) = .ok (operands, _) :=
    ConstantTable.set_literal (by decide) (by decide) rfl
  have hcalls : (∅ : ConstantTable Float).after (quotientCalls.take 5) =
      (unset.perform (.set 1 (.literal 2))).perform (.set 2 (.literal 3)) := rfl
  rw [hcalls]
  simp only [ConstantTable.perform, htwo, hthree]

theorem after_quotientCalls : (∅ : ConstantTable Float).after quotientCalls = quotient := by
  have hlinked : operands.Linked := by
    rw [← after_operands]
    exact (ConstantTable.coherent_after ConstantTable.coherent_empty _).linked
  have hoperands : ∀ r ∈ reciprocal.constantLeaves,
      r ≠ 3 ∧ operands.Declares r ∧ ∃ v, operands.definitionOf r = .literal v := by
    intro r hr
    have hr : r = 2 ∨ r = 1 := by simpa [reciprocal, Expr.constantLeaves] using hr
    rcases hr with rfl | rfl
    · exact ⟨by decide, by decide, _, rfl⟩
    · exact ⟨by decide, by decide, _, rfl⟩
  have hcheck : operands.check 3 (.ofFormula reciprocal) = .ok 1 := by
    rw [ConstantTable.check_eq_ok_iff hlinked]
    exact ConstantTable.accepts_of_literals (by decide) hoperands (by decide +kernel)
  have hcalls : (∅ : ConstantTable Float).after quotientCalls =
      ((∅ : ConstantTable Float).after (quotientCalls.take 5)).perform (.set 3 reciprocal) := rfl
  rw [hcalls, after_operands]
  simp only [ConstantTable.perform, ConstantTable.set_of_free hcheck rfl]
  rfl

theorem accepts_quotient : quotient.Accepts 2 (.constant 1) 2 := by
  refine ConstantTable.accepts_of_literals (by decide) ?_ (by decide +kernel)
  intro r hr
  obtain rfl : r = 1 := by simpa [Expr.constantLeaves] using hr
  exact ⟨by decide, by decide, _, rfl⟩

/-- Setting `b` to `a` makes the divisor of `d` zero. -/
theorem set_quotient : ∃ t update, ((∅ : ConstantTable Float).after quotientCalls).set 2
    (.constant 1) = .ok (t, update) ∧ update.value = 2 ∧ t.valueOf? 3 = none := by
  have ht : ((∅ : ConstantTable Float).after quotientCalls).Coherent :=
    ConstantTable.coherent_after ConstantTable.coherent_empty quotientCalls
  have hcheck := (ConstantTable.check_eq_ok_iff ht.linked).2
    (after_quotientCalls ▸ accepts_quotient)
  obtain ⟨t, update, hset, hvalue⟩ := ConstantTable.exists_set_eq_ok_iff.2 hcheck
  refine ⟨t, update, hset, hvalue, ?_⟩
  have hminuend : t.valueOf? 2 = some 2 := by rw [ConstantTable.valueOf?_of_set ht hset, hvalue]
  have hsubtrahend : t.valueOf? 1 = some 2 := by
    rw [ConstantTable.valueOf?_eq_of_mentions ht hset
      (Definition.mentions_ofFormula.2 (List.mem_singleton_self _)), after_quotientCalls]
    rfl
  have hdefinition : t.definitionOf 3 = .formula reciprocal := by
    rw [ConstantTable.definitionOf_of_set hset, after_quotientCalls]
    rfl
  rw [(ht.of_set hset).valueOf?_eq, ConstantGraph.resolve, ConstantGraph.resolveWith, hdefinition]
  simp only [Definition.resolve, reciprocal, Expr.eval, hminuend, hsubtrahend]
  rfl

def quotientSteps : List (PropagatorStep Nat) :=
  quotientCalls.map (fun call => { call := .table call }) ++
    [{ call := .add { lhs := .var "x", relation := .atLeast, rhs := .constant 3 } 1 }]

/-- When `b` is set to `a`, the divisor of `d` becomes zero and `d` loses its value. Setting `b`
to `a` again does nothing, in the table and through a propagator. -/
theorem repeated_setting_idle_divisor :
    (∃ t update, ((∅ : ConstantTable Float).after quotientCalls).set 2 (.constant 1) =
        .ok (t, update) ∧ update.value = 2 ∧ t.valueOf? 3 = none ∧
      ∃ t', t.set 2 (.constant 1) = .ok (t', idleUpdate 2 2) ∧ t.Unaltered t') ∧
    let p : Propagator Nat := (start ∅ { devMode := true } .reject defaultTolerance).run quotientSteps
    ∃ t update, (p.facing {}).table.set 2 (.constant 1) = .ok (t, update) ∧
      ∀ answers,
        let q := (((p.facing {}).setConstant 2 (.constant 1)).propagator).facing answers
        q.table = t ∧ (q.setConstant 2 (.constant 1)).propagator.solver = q.solver := by
  obtain ⟨t, update, hset, hvalue, hnone⟩ := set_quotient
  constructor
  · obtain ⟨t', hagain, hunaltered⟩ :=
      (repeated_setting_idle (σ := Nat) 2 (.constant 1)).1 quotientCalls t update hset
    exact ⟨t, update, hset, hvalue, hnone, t', hvalue ▸ hagain, hunaltered⟩
  · have hcalls : quotientSteps.flatMap (fun s => s.call.tableCalls) = quotientCalls := rfl
    have hfacing : (start ∅ { devMode := true } .reject defaultTolerance |>.run quotientSteps
        |>.facing {}).table = (∅ : ConstantTable Float).after quotientCalls := by
      rw [facing, table_run, hcalls]
      rfl
    rw [← hfacing] at hset
    refine ⟨t, update, hset, fun answers => ?_⟩
    obtain ⟨htable, hsolver, -⟩ := (repeated_setting_idle 2 (.constant 1)).2 { devMode := true }
      .reject defaultTolerance quotientSteps {} answers t update hset
    exact ⟨htable, hsolver⟩

end NamedConstants.Propagator
