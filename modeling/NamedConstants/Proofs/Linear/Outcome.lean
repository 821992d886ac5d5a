import NamedConstants.Linear.Linearize

/-!
The outcomes of linearizing a constraint. Either an expression or a coefficient is at
fault, or both sides have forms whose difference is left, and then the terms of this
difference decide between a linear constraint and a verdict on its offset.
-/
namespace NamedConstants

variable {α σ : Type} [Arithmetic α]

namespace LinearizeFault

/-- The fault is not the verdict on a constraint that is left without variables. -/
def IsNoVerdict : LinearizeFault α → Prop
  | noVariables _ => False
  | triviallyUnsatisfiable _ _ => False
  | _ => True

end LinearizeFault

namespace LinearForm

/-- What combining two forms can come to. A product is scaled by the operand without variables;
of two such operands the left one is the factor. -/
inductive Combines (l r : LinearForm α) :
    BinaryOp → Except (LinearizeFault α) (LinearForm α) → Prop where
  | sum : Combines l r .add (.ok (combine Arithmetic.one l r))
  | difference : Combines l r .sub (.ok (combine (-Arithmetic.one) l r))
  | scaledLeft (hl : l.hasVariable = true) (hr : r.hasVariable = false)
      (hfinite : Arithmetic.isFinite r.offset = true) :
      Combines l r .mul (.ok ((l.scale (· * r.offset)).reading (l.constants ∪ r.constants)))
  | scaledRight (hl : l.hasVariable = false) (hfinite : Arithmetic.isFinite l.offset = true) :
      Combines l r .mul (.ok ((r.scale (· * l.offset)).reading (l.constants ∪ r.constants)))
  | product (hl : l.hasVariable = true) (hr : r.hasVariable = true) :
      Combines l r .mul (.error (.nonlinear .mul "product of two decision-variable expressions"))
  | leftFactor (hl : l.hasVariable = false) (hfinite : Arithmetic.isFinite l.offset = false) :
      Combines l r .mul (.error (.nonFiniteCoefficient l.offset))
  | rightFactor (hl : l.hasVariable = true) (hr : r.hasVariable = false)
      (hfinite : Arithmetic.isFinite r.offset = false) :
      Combines l r .mul (.error (.nonFiniteCoefficient r.offset))
  | quotient (hr : r.hasVariable = false) (hfinite : Arithmetic.isFinite r.offset = true)
      (hzero : Arithmetic.isZero r.offset = false) :
      Combines l r .div (.ok ((l.scale (· / r.offset)).reading (l.constants ∪ r.constants)))
  | variableDivisor (hr : r.hasVariable = true) :
      Combines l r .div (.error (.nonlinear .div "divisor contains a decision variable"))
  | nonFiniteDivisor (hr : r.hasVariable = false)
      (hfinite : Arithmetic.isFinite r.offset = false) :
      Combines l r .div (.error (.nonFiniteCoefficient r.offset))
  | zeroDivisor (hr : r.hasVariable = false) (hfinite : Arithmetic.isFinite r.offset = true)
      (hzero : Arithmetic.isZero r.offset = true) : Combines l r .div (.error .divisionByZero)

theorem factor_of_isFinite {form : LinearForm α} (h : Arithmetic.isFinite form.offset = true) :
    form.factor = .ok form.offset := if_pos h

theorem factor_of_not_isFinite {form : LinearForm α}
    (h : Arithmetic.isFinite form.offset = false) :
    form.factor = .error (.nonFiniteCoefficient form.offset) := by
  rw [factor, h]
  rfl

theorem Combines.ofBinary_eq {op : BinaryOp} {l r : LinearForm α}
    {result : Except (LinearizeFault α) (LinearForm α)} (h : Combines l r op result) :
    ofBinary op l r = result := by
  cases h with
  | sum | difference => rfl
  | scaledLeft hl hr hfinite =>
    simp only [ofBinary, mul, hl, hr, Bool.and_false, Bool.false_eq_true, if_false, if_true,
      factor_of_isFinite hfinite]
  | scaledRight hl hfinite =>
    simp only [ofBinary, mul, hl, Bool.false_and, Bool.false_eq_true, if_false,
      factor_of_isFinite hfinite]
  | product hl hr => simp only [ofBinary, mul, hl, hr, Bool.and_self, if_true]
  | leftFactor hl hfinite =>
    simp only [ofBinary, mul, hl, Bool.false_and, Bool.false_eq_true, if_false,
      factor_of_not_isFinite hfinite]
  | rightFactor hl hr hfinite =>
    simp only [ofBinary, mul, hl, hr, Bool.and_false, Bool.false_eq_true, if_false, if_true,
      factor_of_not_isFinite hfinite]
  | quotient hr hfinite hzero =>
    simp only [ofBinary, div, hr, Bool.false_eq_true, if_false, factor_of_isFinite hfinite, hzero]
  | variableDivisor hr => simp only [ofBinary, div, hr, if_true]
  | nonFiniteDivisor hr hfinite =>
    simp only [ofBinary, div, hr, Bool.false_eq_true, if_false, factor_of_not_isFinite hfinite]
  | zeroDivisor hr hfinite hzero =>
    simp only [ofBinary, div, hr, Bool.false_eq_true, if_false, factor_of_isFinite hfinite, hzero,
      if_true]

theorem exists_combines (op : BinaryOp) (l r : LinearForm α) :
    ∃ result, Combines l r op result := by
  cases op with
  | add => exact ⟨_, .sum⟩
  | sub => exact ⟨_, .difference⟩
  | mul =>
    cases hl : l.hasVariable with
    | false =>
      cases hfinite : Arithmetic.isFinite l.offset with
      | true => exact ⟨_, .scaledRight hl hfinite⟩
      | false => exact ⟨_, .leftFactor hl hfinite⟩
    | true =>
      cases hr : r.hasVariable with
      | true => exact ⟨_, .product hl hr⟩
      | false =>
        cases hfinite : Arithmetic.isFinite r.offset with
        | true => exact ⟨_, .scaledLeft hl hr hfinite⟩
        | false => exact ⟨_, .rightFactor hl hr hfinite⟩
  | div =>
    cases hr : r.hasVariable with
    | true => exact ⟨_, .variableDivisor hr⟩
    | false =>
      cases hfinite : Arithmetic.isFinite r.offset with
      | false => exact ⟨_, .nonFiniteDivisor hr hfinite⟩
      | true =>
        cases hzero : Arithmetic.isZero r.offset with
        | true => exact ⟨_, .zeroDivisor hr hfinite hzero⟩
        | false => exact ⟨_, .quotient hr hfinite hzero⟩

theorem combines_ofBinary (op : BinaryOp) (l r : LinearForm α) :
    Combines l r op (ofBinary op l r) := by
  obtain ⟨result, h⟩ := exists_combines op l r
  rw [h.ofBinary_eq]
  exact h

theorem isNoVerdict_of_ofBinary {op : BinaryOp} {left right : LinearForm α}
    {fault : LinearizeFault α} (h : ofBinary op left right = .error fault) :
    fault.IsNoVerdict := by
  have hcombines := combines_ofBinary op left right
  rw [h] at hcombines
  cases hcombines <;> trivial

def difference (left right : LinearForm α) : LinearForm α :=
  combine (-Arithmetic.one) left right

end LinearForm

theorem Expr.linearForm_binary_eq_ok {lookup : ConstantId → Option α} {op : BinaryOp}
    {left right : Expr α String} {form : LinearForm α}
    (h : (binary op left right).linearForm lookup = .ok form) :
    ∃ l r, left.linearForm lookup = .ok l ∧ right.linearForm lookup = .ok r ∧
      LinearForm.ofBinary op l r = .ok form := by
  simp only [linearForm] at h
  cases hleft : left.linearForm lookup with
  | error fault => simp [hleft] at h
  | ok l =>
    cases hright : right.linearForm lookup with
    | error fault => simp [hleft, hright] at h
    | ok r => exact ⟨l, r, rfl, rfl, by simpa [hleft, hright] using h⟩

theorem Expr.isNoVerdict_of_linearForm {lookup : ConstantId → Option α} {e : Expr α String}
    {fault : LinearizeFault α} (h : e.linearForm lookup = .error fault) : fault.IsNoVerdict := by
  induction e with
  | literal value => cases h
  | constant id =>
    simp only [linearForm] at h
    split at h
    · cases h
    · cases h
      trivial
  | var name => cases h
  | binary op left right ihleft ihright =>
    simp only [linearForm] at h
    split at h
    · rename_i hleft
      cases h
      exact ihleft hleft
    · split at h
      · rename_i hright
        cases h
        exact ihright hright
      · exact LinearForm.isNoVerdict_of_ofBinary h

theorem exists_nonFinite_of_nonzeroTerms {entries : List (String × α)}
    {fault : LinearizeFault α} (h : nonzeroTerms entries = .error fault) :
    ∃ value, fault = .nonFiniteCoefficient value := by
  induction entries with
  | nil => cases h
  | cons entry rest ih =>
    obtain ⟨name, coefficient⟩ := entry
    simp only [nonzeroTerms] at h
    split at h
    · cases h
      exact ⟨coefficient, rfl⟩
    · split at h
      · rename_i hrest
        cases h
        exact ih hrest
      · split at h <;> cases h

theorem isNoVerdict_of_nonzeroTerms {entries : List (String × α)} {fault : LinearizeFault α}
    (h : nonzeroTerms entries = .error fault) : fault.IsNoVerdict := by
  obtain ⟨value, rfl⟩ := exists_nonFinite_of_nonzeroTerms h
  trivial

namespace Constraint

/-- What linearizing a constraint can come to. -/
inductive Outcome (tolerance : α) (lookup : ConstantId → Option α) (strength : σ)
    (c : Constraint α) : Except (LinearizeFault α) (LinearConstraint α σ) → Prop where
  | refused (fault : LinearizeFault α) (hfault : fault.IsNoVerdict) :
      Outcome tolerance lookup strength c (.error fault)
  | linear (l r : LinearForm α) (terms : List (Term α))
      (hl : c.lhs.linearForm lookup = .ok l) (hr : c.rhs.linearForm lookup = .ok r)
      (hterms : nonzeroTerms (l.difference r).coefficients.entries = .ok terms)
      (hne : terms ≠ []) :
      Outcome tolerance lookup strength c (.ok
        { terms, strength
          offset := (l.difference r).offset + Arithmetic.zero
          relation := c.relation
          constants := (l.difference r).constants
          definition := c })
  | satisfied (l r : LinearForm α)
      (hl : c.lhs.linearForm lookup = .ok l) (hr : c.rhs.linearForm lookup = .ok r)
      (hterms : nonzeroTerms (l.difference r).coefficients.entries = .ok [])
      (hholds : c.relation.holds tolerance ((l.difference r).offset + Arithmetic.zero) = true) :
      Outcome tolerance lookup strength c
        (.error (.noVariables ((l.difference r).offset + Arithmetic.zero)))
  | unsatisfiable (l r : LinearForm α)
      (hl : c.lhs.linearForm lookup = .ok l) (hr : c.rhs.linearForm lookup = .ok r)
      (hterms : nonzeroTerms (l.difference r).coefficients.entries = .ok [])
      (hholds : c.relation.holds tolerance ((l.difference r).offset + Arithmetic.zero) = false) :
      Outcome tolerance lookup strength c
        (.error (.triviallyUnsatisfiable ((l.difference r).offset + Arithmetic.zero) c.relation))

theorem outcome_linearize (tolerance : α) (lookup : ConstantId → Option α) (strength : σ)
    (c : Constraint α) :
    Outcome tolerance lookup strength c (c.linearize tolerance lookup strength) := by
  unfold linearize
  cases hl : c.lhs.linearForm lookup with
  | error fault => exact .refused fault (Expr.isNoVerdict_of_linearForm hl)
  | ok l =>
    cases hr : c.rhs.linearForm lookup with
    | error fault => exact .refused fault (Expr.isNoVerdict_of_linearForm hr)
    | ok r =>
      dsimp only
      rw [← LinearForm.difference]
      split
      · exact .refused _ trivial
      · cases hterms : nonzeroTerms (l.difference r).coefficients.entries with
        | error fault => exact .refused fault (isNoVerdict_of_nonzeroTerms hterms)
        | ok terms =>
          cases terms with
          | nil =>
            dsimp only
            split
            · rename_i hholds
              exact .satisfied l r hl hr hterms hholds
            · rename_i hholds
              exact .unsatisfiable l r hl hr hterms (Bool.eq_false_iff.2 hholds)
          | cons first rest => exact .linear l r _ hl hr hterms (List.cons_ne_nil first rest)

/-- The constraint comes to a linear constraint, or to a verdict on what is left without
variables. -/
def Reduces (tolerance : α) (lookup : ConstantId → Option α) (strength : σ) (c : Constraint α) :
    Prop :=
  (∃ linear, c.linearize tolerance lookup strength = .ok linear) ∨
    (∃ offset, c.linearize tolerance lookup strength = .error (.noVariables offset)) ∨
      ∃ offset relation,
        c.linearize tolerance lookup strength = .error (.triviallyUnsatisfiable offset relation)

section Reduces

variable {tolerance : α} {lookup : ConstantId → Option α} {strength : σ} {c : Constraint α}

theorem Reduces.not_isNoVerdict (h : c.Reduces tolerance lookup strength)
    {fault : LinearizeFault α} (hfault : c.linearize tolerance lookup strength = .error fault) :
    ¬ fault.IsNoVerdict := by
  rcases h with ⟨linear, h⟩ | ⟨offset, h⟩ | ⟨offset, relation, h⟩
  · rw [hfault] at h
    cases h
  · rw [hfault] at h
    cases h
    exact id
  · rw [hfault] at h
    cases h
    exact id

theorem linearize_of_lhs_error {fault : LinearizeFault α}
    (h : c.lhs.linearForm lookup = .error fault) :
    c.linearize tolerance lookup strength = .error fault := by
  simp only [linearize, h]

theorem linearize_of_rhs_error {l : LinearForm α} {fault : LinearizeFault α}
    (hl : c.lhs.linearForm lookup = .ok l) (h : c.rhs.linearForm lookup = .error fault) :
    c.linearize tolerance lookup strength = .error fault := by
  simp only [linearize, hl, h]

/-- Once both sides have forms, only a number that is not finite is in the way. -/
theorem linearize_of_forms (tolerance : α) (strength : σ) {l r : LinearForm α}
    (hl : c.lhs.linearForm lookup = .ok l) (hr : c.rhs.linearForm lookup = .ok r) :
    (∃ value, c.linearize tolerance lookup strength = .error (.nonFiniteCoefficient value)) ∨
      (c.Reduces tolerance lookup strength ∧
        Arithmetic.isFinite ((l.difference r).offset + Arithmetic.zero) = true) := by
  cases hfinite : Arithmetic.isFinite ((l.difference r).offset + Arithmetic.zero) with
  | false =>
    left
    rw [LinearForm.difference] at hfinite
    simp only [linearize, hl, hr, hfinite, Bool.not_false, if_true]
    exact ⟨_, rfl⟩
  | true =>
    rw [LinearForm.difference] at hfinite
    simp only [Reduces, linearize, hl, hr, hfinite, Bool.not_true, Bool.false_eq_true, if_false]
    cases hterms : nonzeroTerms
        (LinearForm.combine (-Arithmetic.one) l r).coefficients.entries with
    | error fault =>
      obtain ⟨value, rfl⟩ := exists_nonFinite_of_nonzeroTerms hterms
      exact Or.inl ⟨value, rfl⟩
    | ok terms =>
      refine Or.inr ⟨?_, trivial⟩
      cases terms with
      | cons first rest => exact Or.inl ⟨_, rfl⟩
      | nil =>
        dsimp only
        split
        · exact Or.inr (Or.inl ⟨_, rfl⟩)
        · exact Or.inr (Or.inr ⟨_, _, rfl⟩)

/-- Both sides of a reduced constraint have forms, and the offset of their difference is finite. -/
theorem Reduces.exists_forms (h : c.Reduces tolerance lookup strength) :
    ∃ l r, c.lhs.linearForm lookup = .ok l ∧ c.rhs.linearForm lookup = .ok r ∧
      Arithmetic.isFinite ((l.difference r).offset + Arithmetic.zero) = true := by
  cases hl : c.lhs.linearForm lookup with
  | error fault =>
    exact absurd (Expr.isNoVerdict_of_linearForm hl)
      (h.not_isNoVerdict (linearize_of_lhs_error hl))
  | ok l =>
    cases hr : c.rhs.linearForm lookup with
    | error fault =>
      exact absurd (Expr.isNoVerdict_of_linearForm hr)
        (h.not_isNoVerdict (linearize_of_rhs_error hl hr))
    | ok r =>
      rcases linearize_of_forms tolerance strength hl hr with ⟨value, hvalue⟩ | ⟨-, hfinite⟩
      · exact absurd trivial (h.not_isNoVerdict hvalue)
      · exact ⟨l, r, rfl, rfl, hfinite⟩

end Reduces

end Constraint

end NamedConstants
