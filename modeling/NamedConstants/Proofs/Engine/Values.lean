import NamedConstants.Engine.Basic
import NamedConstants.Proofs.Propagation.Repeated

/-!
The values that an engine gives out. In a coherent table the cached value and the
resolution of the definition are the same thing, so asking for a value that is not
cached can only explain why there is none.
-/
namespace NamedConstants

namespace Engine

variable {σ : Type}

theorem requireValue_eq_ok_iff {e : Engine σ} (ht : e.table.Coherent) (id : ConstantId)
    (v : Float) : e.requireValue id = .ok v ↔ e.table.valueOf? id = some v := by
  unfold requireValue
  cases hvalue : e.table.valueOf? id with
  | some w => simp
  | none =>
    obtain ⟨fault, hfault⟩ := (ht.valueOf?_eq_none_iff id).1 hvalue
    simp [hfault]

/-- However a table was reached, its values are those of its definitions: a constant has
the value that its definition resolves to, none if that is a fault, and an engine over the
table gives out this value and no other. -/
theorem values_follow_definitions (calls : List (TableCall Float)) (e : Engine σ)
    (he : e.table = (∅ : ConstantTable Float).after calls) (id : ConstantId) :
    (∀ v, e.table.valueOf? id = some v ↔ e.table.resolve id = .ok v) ∧
      (e.table.valueOf? id = none ↔ ∃ fault, e.table.resolve id = .error fault) ∧
      (∀ v, e.table.valueOf? id = some v → v.isFinite = true) ∧
      ∀ v, e.requireValue id = .ok v ↔ e.table.valueOf? id = some v := by
  have ht : e.table.Coherent := by
    rw [he]
    exact ConstantTable.coherent_after ConstantTable.coherent_empty calls
  exact ⟨ht.valueOf?_eq_some_iff id, ht.valueOf?_eq_none_iff id, ht.isFinite id,
    requireValue_eq_ok_iff ht id⟩

/-- When `b` is set to `a`, the divisor of `d` has become zero: `b` has a value, and `d` has none
any more. -/
theorem values_follow_definitions_quotient :
    let calls : List (TableCall Float) := Propagator.quotientCalls ++ [.set 2 (.constant 1)]
    let e : Engine Float :=
      { config := {}, defaultStrength := 1
        propagator :=
          { table := (∅ : ConstantTable Float).after calls, log := { devMode := true } } }
    e.table = (∅ : ConstantTable Float).after calls ∧
      (e.table.valueOf? 2 = some 2 ∧ e.table.resolve 2 = .ok 2 ∧ e.requireValue 2 = .ok 2) ∧
      (e.table.valueOf? 3 = none ∧ ∃ fault, e.table.resolve 3 = .error fault) ∧
      ∀ v, e.requireValue 3 ≠ .ok v := by
  intro calls e
  have he : e.table = (∅ : ConstantTable Float).after calls := rfl
  obtain ⟨t, update, hset, hvalue, hnone⟩ := Propagator.set_quotient
  have ht : e.table = t := by
    rw [he, ConstantTable.after_append, ConstantTable.after, List.foldl_cons, List.foldl_nil,
      ConstantTable.perform, hset]
  have hsome : e.table.valueOf? 2 = some 2 := by
    have hcoherent := ConstantTable.coherent_after ConstantTable.coherent_empty
      Propagator.quotientCalls
    rw [ht, ConstantTable.valueOf?_of_set hcoherent hset, hvalue]
  have hvanished : e.table.valueOf? 3 = none := by rw [ht, hnone]
  obtain ⟨hresolves, -, -, hrequire⟩ := values_follow_definitions calls e he 2
  obtain ⟨-, hfault, -, hrefuse⟩ := values_follow_definitions calls e he 3
  refine ⟨he, ⟨hsome, (hresolves 2).1 hsome, (hrequire 2).2 hsome⟩,
    ⟨hvanished, hfault.1 hvanished⟩, fun v hv => ?_⟩
  rw [(hrefuse v).1 hv] at hvanished
  cases hvanished

end Engine

end NamedConstants
