import NamedConstants.Proofs.Decimal.Doubles
import NamedConstants.Proofs.InsertionSet
import NamedConstants.Proofs.Linear.Outcome

/-!
The normal form of linear constraints. A form has a coefficient for every variable of its
expression, in the order of first appearance, also for those that have cancelled or were
scaled by zero; the zeros are left out only at the end, which keeps the order. What is left
has terms, and none of its numbers is infinite, a zero coefficient or a negative zero.
-/
namespace NamedConstants

variable {α σ : Type}

def Constraint.variableLeaves (c : Constraint α) : List String :=
  c.lhs.variableLeaves ++ c.rhs.variableLeaves

/-- A linear constraint in normal form: terms there are, for different variables, with finite
coefficients that are not zero, in the order in which the variables first appear in the
definition; the offset is finite and no negative zero. -/
structure LinearConstraint.IsNormal (linear : LinearConstraint Float σ) : Prop where
  terms_ne_nil : linear.terms ≠ []
  nodup : (linear.terms.map Term.name).Nodup
  coefficients : ∀ term ∈ linear.terms,
    term.coefficient.isFinite = true ∧ (term.coefficient == 0) = false
  offset_isFinite : linear.offset.isFinite = true
  offset_ne : linear.offset ≠ -0
  mem_variableLeaves : ∀ term ∈ linear.terms, term.name ∈ linear.definition.variableLeaves
  ordered : (linear.terms.map Term.name).Pairwise fun a b =>
    linear.definition.variableLeaves.idxOf a < linear.definition.variableLeaves.idxOf b

namespace LinearForm

variable [Arithmetic α]

theorem keySet_foldl_addTerm (sign : α) (terms : List (String × α)) (m : InsertionMap String α) :
    (terms.foldl (addTerm sign) m).keySet = m.keySet.insertMany (terms.map Prod.fst) := by
  induction terms generalizing m with
  | nil => rfl
  | cons term terms ih =>
    rw [List.foldl_cons, ih, addTerm, InsertionMap.keySet_insert]
    rfl

structure Lists (form : LinearForm α) (leaves : List String) : Prop where
  keySet_eq : form.coefficients.keySet = .ofList leaves
  hasVariable_eq : form.hasVariable = !leaves.isEmpty

namespace Lists

variable {l r form : LinearForm α} {left right : List String}

theorem combine (hl : l.Lists left) (hr : r.Lists right) (sign : α) :
    (LinearForm.combine sign l r).Lists (left ++ right) where
  keySet_eq := by
    have hkeys : r.coefficients.entries.map Prod.fst = (InsertionSet.ofList right).toList :=
      congrArg InsertionSet.toList hr.keySet_eq
    rw [LinearForm.combine, keySet_foldl_addTerm, hl.keySet_eq, hkeys, InsertionSet.ofList_append]
  hasVariable_eq := by
    simp only [LinearForm.combine, hl.hasVariable_eq, hr.hasVariable_eq]
    cases left <;> cases right <;> rfl

omit [Arithmetic α] in
/-- Scaling keeps every coefficient, whatever becomes of its value. -/
theorem scale (hl : l.Lists left) (f : α → α) (constants : InsertionSet ConstantId) :
    ((l.scale f).reading constants).Lists left where
  keySet_eq := (InsertionMap.keySet_mapValues l.coefficients f).trans hl.keySet_eq
  hasVariable_eq := hl.hasVariable_eq

omit [Arithmetic α] in
theorem eq_nil (hl : l.Lists left) (h : l.hasVariable = false) : left = [] := by
  rw [hl.hasVariable_eq] at h
  simpa using h

theorem ofBinary (hl : l.Lists left) (hr : r.Lists right) {op : BinaryOp}
    (h : LinearForm.ofBinary op l r = .ok form) : form.Lists (left ++ right) := by
  have hcombines := combines_ofBinary op l r
  rw [h] at hcombines
  cases hcombines with
  | sum | difference => exact hl.combine hr _
  | scaledLeft _ hright | quotient hright =>
    rw [hr.eq_nil hright, List.append_nil]
    exact hl.scale _ _
  | scaledRight hleft =>
    rw [hl.eq_nil hleft, List.nil_append]
    exact hr.scale _ _

end Lists

end LinearForm

section Linearize

variable [Arithmetic α]

/-- The form of an expression has its variables, in order of first appearance. -/
theorem Expr.lists_linearForm {lookup : ConstantId → Option α} {e : Expr α String}
    {form : LinearForm α} (h : e.linearForm lookup = .ok form) : form.Lists e.variableLeaves := by
  induction e generalizing form with
  | literal value =>
    cases h
    exact ⟨rfl, rfl⟩
  | constant id =>
    simp only [linearForm] at h
    split at h
    · cases h
      exact ⟨rfl, rfl⟩
    · cases h
  | var name =>
    cases h
    exact ⟨rfl, rfl⟩
  | binary op left right ihleft ihright =>
    obtain ⟨l, r, hl, hr, hop⟩ := linearForm_binary_eq_ok h
    exact (ihleft hl).ofBinary (ihright hr) hop

/-- The terms that are kept, in place. -/
theorem sublist_of_nonzeroTerms {entries : List (String × α)} {terms : List (Term α)}
    (h : nonzeroTerms entries = .ok terms) :
    (terms.map Term.name).Sublist (entries.map Prod.fst) ∧
      ∀ term ∈ terms, Arithmetic.isFinite term.coefficient = true ∧
        Arithmetic.isZero term.coefficient = false := by
  induction entries generalizing terms with
  | nil =>
    cases h
    exact ⟨List.Sublist.refl _, List.forall_mem_nil _⟩
  | cons entry rest ih =>
    obtain ⟨name, coefficient⟩ := entry
    simp only [nonzeroTerms] at h
    split at h
    · cases h
    · rename_i hfinite
      split at h
      · cases h
      · rename_i kept hrest
        obtain ⟨hsublist, hkept⟩ := ih hrest
        split at h
        · cases h
          exact ⟨hsublist.cons name, hkept⟩
        · rename_i hzero
          cases h
          refine ⟨hsublist.cons_cons name, List.forall_mem_cons.2 ⟨⟨?_, ?_⟩, hkept⟩⟩
          · simpa using hfinite
          · simpa using hzero

theorem Constraint.isFinite_offset_of_linearize {tolerance : α} {lookup : ConstantId → Option α}
    {strength : σ} {c : Constraint α} {linear : LinearConstraint α σ}
    (h : c.linearize tolerance lookup strength = .ok linear) :
    Arithmetic.isFinite linear.offset = true := by
  have houtcome := c.outcome_linearize tolerance lookup strength
  rw [h] at houtcome
  cases houtcome with
  | linear l r terms hl hr =>
    rcases linearize_of_forms tolerance strength hl hr with ⟨value, hvalue⟩ | ⟨-, hfinite⟩
    · rw [h] at hvalue
      cases hvalue
    · exact hfinite

end Linearize

/-- A linearized constraint is in normal form and remembers what it was made from. -/
theorem Constraint.isNormal_of_linearize {tolerance : Float} {lookup : ConstantId → Option Float}
    {strength : σ} {c : Constraint Float} {linear : LinearConstraint Float σ}
    (h : c.linearize tolerance lookup strength = .ok linear) :
    linear.IsNormal ∧ linear.relation = c.relation ∧ linear.definition = c ∧
      linear.strength = strength := by
  have hoffset := isFinite_offset_of_linearize h
  have houtcome := c.outcome_linearize tolerance lookup strength
  rw [h] at houtcome
  cases houtcome with
  | linear l r terms hl hr hterms hne =>
    have hlists := (Expr.lists_linearForm hl).combine (Expr.lists_linearForm hr)
      (-Arithmetic.one : Float)
    obtain ⟨hsublist, hcoefficients⟩ := sublist_of_nonzeroTerms hterms
    have hkeys : (l.difference r).coefficients.entries.map Prod.fst =
        (InsertionSet.ofList c.variableLeaves).toList :=
      congrArg InsertionSet.toList hlists.keySet_eq
    rw [hkeys] at hsublist
    refine ⟨?_, rfl, rfl, rfl⟩
    exact
      { terms_ne_nil := hne
        nodup := (InsertionSet.nodup _).sublist hsublist
        coefficients := hcoefficients
        offset_isFinite := hoffset
        offset_ne := add_zero_ne_neg_zero _
        mem_variableLeaves := fun term hterm =>
          InsertionSet.mem_ofList.1 (hsublist.subset (List.mem_map_of_mem hterm))
        ordered := (InsertionSet.pairwise_idxOf_ofList c.variableLeaves).sublist hsublist }

end NamedConstants
