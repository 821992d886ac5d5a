import NamedConstants.Proofs.InsertionSet
import NamedConstants.Proofs.Linear.Outcome

/-!
What a linearization reads: the values of the constants that its constraint mentions,
and nothing else of a table. A form that results lists just these constants, in the order
in which they are first mentioned.
-/
namespace NamedConstants

variable {α σ : Type} [Arithmetic α]

theorem LinearForm.constants_ofBinary {op : BinaryOp} {l r form : LinearForm α}
    (h : ofBinary op l r = .ok form) : form.constants = l.constants ∪ r.constants := by
  have hcombines := combines_ofBinary op l r
  rw [h] at hcombines
  cases hcombines with
  | sum | difference | scaledLeft | scaledRight | quotient => rfl

theorem Expr.constants_linearForm {lookup : ConstantId → Option α} {e : Expr α String}
    {form : LinearForm α} (h : e.linearForm lookup = .ok form) :
    form.constants = .ofList e.constantLeaves := by
  induction e generalizing form with
  | literal | var =>
    cases h
    rfl
  | constant id =>
    simp only [linearForm] at h
    split at h <;> cases h
    rfl
  | binary op left right ihleft ihright =>
    obtain ⟨l, r, hl, hr, hop⟩ := linearForm_binary_eq_ok h
    rw [LinearForm.constants_ofBinary hop, ihleft hl, ihright hr]
    exact (InsertionSet.ofList_append left.constantLeaves right.constantLeaves).symm

theorem Expr.linearForm_congr {lookup lookup' : ConstantId → Option α} (e : Expr α String)
    (h : ∀ id ∈ e.constantLeaves, lookup id = lookup' id) :
    e.linearForm lookup = e.linearForm lookup' := by
  induction e with
  | literal value => rfl
  | constant id => simp only [linearForm, h id (by simp [constantLeaves])]
  | var name => rfl
  | binary op left right ihleft ihright =>
    simp only [constantLeaves, List.mem_append] at h
    have hleft := ihleft fun id hid => h id (Or.inl hid)
    have hright := ihright fun id hid => h id (Or.inr hid)
    simp only [linearForm, hleft, hright]

namespace Constraint

omit [Arithmetic α] in
theorem mem_constants {c : Constraint α} {id : ConstantId} :
    id ∈ c.constants ↔ id ∈ c.lhs.constantLeaves ∨ id ∈ c.rhs.constantLeaves := by
  rw [constants, InsertionSet.mem_ofList, List.mem_append]

/-- The form and the failure of a constraint are those under any values that agree on
the constants of the constraint. -/
theorem linearize_congr (tolerance : α) {lookup lookup' : ConstantId → Option α} (strength : σ)
    (c : Constraint α) (h : ∀ id ∈ c.constants, lookup id = lookup' id) :
    c.linearize tolerance lookup strength = c.linearize tolerance lookup' strength := by
  have hlhs := c.lhs.linearForm_congr fun id hid => h id (mem_constants.2 (Or.inl hid))
  have hrhs := c.rhs.linearForm_congr fun id hid => h id (mem_constants.2 (Or.inr hid))
  simp only [linearize, hlhs, hrhs]

theorem constants_linearize {tolerance : α} {lookup : ConstantId → Option α} {strength : σ}
    {c : Constraint α} {linear : LinearConstraint α σ}
    (h : c.linearize tolerance lookup strength = .ok linear) : linear.constants = c.constants := by
  have houtcome := outcome_linearize tolerance lookup strength c
  rw [h] at houtcome
  cases houtcome with
  | linear l r terms hl hr =>
    change l.constants ∪ r.constants = c.constants
    rw [Expr.constants_linearForm hl, Expr.constants_linearForm hr]
    exact (InsertionSet.ofList_append c.lhs.constantLeaves c.rhs.constantLeaves).symm

end Constraint

end NamedConstants
