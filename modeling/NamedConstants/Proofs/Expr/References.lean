import NamedConstants.Proofs.Expr.Evaluates
import NamedConstants.Proofs.InsertionSet

/-!
A formula and the constants that it refers to. Evaluation goes through the leaves in the order
in which the references are collected, and stops at the first that has no value. So the
collected references are all that a value depends on, and if one of them is to blame for a
failure, it is the first one that is unresolved.
-/
namespace NamedConstants

variable {α : Type} [Arithmetic α]

theorem BinaryOp.Refuses.ne_unresolvedConstant {op : BinaryOp} {a b : α} {fault : EvalFault α}
    (h : op.Refuses a b fault) (id : ConstantId) : fault ≠ .unresolvedConstant id := by
  rintro rfl
  cases h

namespace Expr

variable {lookup : ConstantId → Option α} {e : Formula α}

/-- A constant that is blamed is the first leaf that has no value. -/
theorem FailsFirst.find?_constantLeaves {fault : EvalFault α} (h : e.FailsFirst lookup fault)
    {id : ConstantId} (hfault : fault = .unresolvedConstant id) :
    e.constantLeaves.find? (fun ref => (lookup ref).isNone) = some id := by
  induction h with
  | literal value hfinite => cases hfault
  | constant ref hnone =>
    cases hfault
    simp [constantLeaves, hnone]
  | left op left right fault hleft ih =>
    rw [constantLeaves, List.find?_append, ih hfault]
    rfl
  | right op left right a fault hleft hright ih =>
    have hresolved : left.constantLeaves.find? (fun ref => (lookup ref).isNone) = none := by
      rw [List.find?_eq_none]
      intro ref href
      obtain ⟨x, hx⟩ := resolved_of_eval (eval_eq_ok_iff.2 hleft) ref href
      simp [hx]
    rw [constantLeaves, List.find?_append, hresolved, ih hfault]
    rfl
  | operation op left right a b fault hleft hright hop =>
    exact absurd hfault (hop.ne_unresolvedConstant id)

/-- A formula only misses a constant that is not found. -/
theorem FailsFirst.lookup_eq_none {fault : EvalFault α} (h : e.FailsFirst lookup fault)
    {missing : ConstantId} (hfault : fault = .unresolvedConstant missing) :
    lookup missing = none := by
  simpa using List.find?_some (h.find?_constantLeaves hfault)

/-- Evaluation sees its references and no other constants. A formula with a value has resolved
all of them, and the value is finite if theirs are. If an unresolved constant is reported, it is
the first unresolved one among the references, in the order of their first appearance. -/
theorem eval_follows_references (lookup : ConstantId → Option α) (e : Formula α) :
    (∀ lookup' : ConstantId → Option α, (∀ id ∈ e.constants, lookup id = lookup' id) →
      e.eval lookup = e.eval lookup') ∧
    (∀ v, e.eval lookup = .ok v → (∀ id ∈ e.constants, ∃ x, lookup id = some x) ∧
      ((∀ id ∈ e.constants, ∀ x, lookup id = some x → Arithmetic.isFinite x = true) →
        Arithmetic.isFinite v = true)) ∧
    ∀ id, e.eval lookup = .error (.unresolvedConstant id) →
      e.constants.toList.find? (fun ref => (lookup ref).isNone) = some id := by
  have hmem : ∀ id, id ∈ e.constants ↔ id ∈ e.constantLeaves := fun id => InsertionSet.mem_ofList
  simp only [hmem]
  refine ⟨fun lookup' h => e.eval_congr h, fun v hv => ?_, fun id hid => ?_⟩
  · exact ⟨resolved_of_eval hv, fun hfinite => isFinite_of_eval hfinite hv⟩
  · rw [constants, InsertionSet.find?_toList_ofList]
    exact (eval_eq_error_iff.1 hid).find?_constantLeaves rfl

end Expr

end NamedConstants
