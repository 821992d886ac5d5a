import NamedConstants.Proofs.Decimal.NonFinite
import NamedConstants.Proofs.Expr.Evaluates
import NamedConstants.Proofs.Expr.Nodes
import NamedConstants.Proofs.Linear.Normal

/-!
Constant arithmetic inside constraints. Linearization computes with the offsets of forms and
not by evaluating formulas: it multiplies by one or minus one in sums and differences, swaps
factors, and looks at few of its intermediate results. In doubles nothing of this shows. What
is not finite stays so up to the offset at the end, so if this one is finite, all the numbers
before it are, and without variables they are those that evaluation comes to.
-/
namespace NamedConstants

variable {σ : Type} {lookup : ConstantId → Option Float}

namespace LinearForm

variable {op : BinaryOp} {l r form : LinearForm Float}

/-- A combination with a finite offset is one of forms with finite offsets. -/
theorem isFinite_offset_of_ofBinary (h : ofBinary op l r = .ok form)
    (hfinite : form.offset.isFinite = true) :
    l.offset.isFinite = true ∧ r.offset.isFinite = true := by
  have hcombines := combines_ofBinary op l r
  rw [h] at hcombines
  cases hcombines with
  | sum | difference =>
    obtain ⟨hl, hproduct⟩ := isFinite_of_add hfinite
    exact ⟨hl, (isFinite_of_mul hproduct).2⟩
  | scaledLeft => exact isFinite_of_mul hfinite
  | scaledRight => exact (isFinite_of_mul hfinite).symm
  | quotient hr hdivisor => exact ⟨isFinite_of_div hfinite hdivisor, hdivisor⟩

/-- Without variables the offset is what the operator gives, bit for bit. -/
theorem offset_of_ofBinary (hl : l.hasVariable = false) (h : ofBinary op l r = .ok form) :
    form.offset = op.apply l.offset r.offset ∧
      (op = .div → Arithmetic.isZero r.offset = false) := by
  have hcombines := combines_ofBinary op l r
  rw [h] at hcombines
  cases hcombines with
  | sum => exact ⟨congrArg (l.offset + ·) (one_mul_float r.offset), nofun⟩
  | difference => exact ⟨add_neg_one_mul l.offset r.offset, nofun⟩
  | scaledLeft hvariable =>
    rw [hl] at hvariable
    cases hvariable
  | scaledRight => exact ⟨mul_comm_float r.offset l.offset, nofun⟩
  | quotient hr hdivisor hzero => exact ⟨rfl, fun _ => hzero⟩

theorem exists_ofBinary (hl : l.hasVariable = false) (hr : r.hasVariable = false)
    (hlfinite : l.offset.isFinite = true) (hrfinite : r.offset.isFinite = true)
    (hdivisor : op = .div → Arithmetic.isZero r.offset = false) :
    ∃ form, ofBinary op l r = .ok form := by
  cases op with
  | add => exact ⟨_, rfl⟩
  | sub => exact ⟨_, rfl⟩
  | mul => exact ⟨_, (Combines.scaledRight hl hlfinite).ofBinary_eq⟩
  | div => exact ⟨_, (Combines.quotient hr hrfinite (hdivisor rfl)).ofBinary_eq⟩

/-- Finite constant forms are combined as their offsets are. -/
theorem eval_offset_iff (hl : l.hasVariable = false) (hr : r.hasVariable = false)
    (hlfinite : l.offset.isFinite = true) (hrfinite : r.offset.isFinite = true) {x : Float} :
    op.eval l.offset r.offset = .ok x ↔
      ∃ form, ofBinary op l r = .ok form ∧ form.offset.isFinite = true ∧ form.offset = x := by
  rw [BinaryOp.eval_eq_ok_iff]
  constructor
  · rintro ⟨⟨hdivisor, hfinite⟩, rfl⟩
    obtain ⟨form, hform⟩ := exists_ofBinary hl hr hlfinite hrfinite hdivisor
    have hoffset := (offset_of_ofBinary hl hform).1
    exact ⟨form, hform, by rw [hoffset]; exact hfinite, hoffset⟩
  · rintro ⟨form, hform, hfinite, rfl⟩
    obtain ⟨hoffset, hdivisor⟩ := offset_of_ofBinary hl hform
    rw [hoffset] at hfinite
    exact ⟨⟨hdivisor, hfinite⟩, hoffset.symm⟩

end LinearForm

namespace Expr

variable {f : Formula Float} {form : LinearForm Float}

theorem hasVariable_of_ofFormula
    (h : (ofFormula f : Expr Float String).linearForm lookup = .ok form) :
    form.hasVariable = false := by
  rw [(lists_linearForm h).hasVariable_eq, variableLeaves_ofFormula]
  rfl

/-- A formula whose form has a finite offset evaluates to it. -/
theorem eval_of_linearForm (h : (ofFormula f : Expr Float String).linearForm lookup = .ok form)
    (hfinite : form.offset.isFinite = true) : f.eval lookup = .ok form.offset := by
  induction f generalizing form with
  | literal value =>
    cases h
    exact requireFinite_eq_ok_iff.2 ⟨hfinite, rfl⟩
  | constant id =>
    cases hvalue : lookup id with
    | none => simp [ofFormula, bind, linearForm, hvalue] at h
    | some value =>
      simp only [ofFormula, bind, linearForm, hvalue, Except.ok.injEq] at h
      subst h
      rw [eval, hvalue]
      rfl
  | var name => exact name.elim
  | binary op left right ihleft ihright =>
    rw [ofFormula_binary] at h
    obtain ⟨l, r, hl, hr, hop⟩ := linearForm_binary_eq_ok h
    obtain ⟨hlfinite, hrfinite⟩ := LinearForm.isFinite_offset_of_ofBinary hop hfinite
    rw [eval, ihleft hl hlfinite, ihright hr hrfinite]
    exact (LinearForm.eval_offset_iff (hasVariable_of_ofFormula hl) (hasVariable_of_ofFormula hr)
      hlfinite hrfinite).2 ⟨form, hop, hfinite, rfl⟩

/-- A formula that evaluates has a form, and the value is the offset of the form. -/
theorem exists_linearForm_of_eval {x : Float}
    (hlookup : ∀ id v, lookup id = some v → v.isFinite = true) (h : f.eval lookup = .ok x) :
    ∃ form, (ofFormula f : Expr Float String).linearForm lookup = .ok form ∧
      form.offset.isFinite = true ∧ form.offset = x := by
  induction f generalizing x with
  | literal value =>
    obtain ⟨hfinite, rfl⟩ := requireFinite_eq_ok_iff.1 h
    exact ⟨.ofNumber value, rfl, hfinite, rfl⟩
  | constant id =>
    cases hvalue : lookup id with
    | none => simp [eval, hvalue] at h
    | some value =>
      obtain rfl : value = x := by simpa [eval, hvalue] using h
      exact ⟨.ofConstant id value, by simp only [ofFormula, bind, linearForm, hvalue],
        hlookup id value hvalue, rfl⟩
  | var name => exact name.elim
  | binary op left right ihleft ihright =>
    obtain ⟨a, b, hleft, hright, hop⟩ := eval_binary_eq_ok h
    obtain ⟨l, hl, hlfinite, rfl⟩ := ihleft hleft
    obtain ⟨r, hr, hrfinite, rfl⟩ := ihright hright
    rw [LinearForm.eval_offset_iff (hasVariable_of_ofFormula hl) (hasVariable_of_ofFormula hr)
      hlfinite hrfinite] at hop
    obtain ⟨form, hform, hfinite, hoffset⟩ := hop
    refine ⟨form, ?_, hfinite, hoffset⟩
    rw [ofFormula_binary]
    simp only [linearForm, hl, hr, hform]

/-- If the offset of an expression is finite, so is the offset of each of its nodes. -/
theorem exists_finite_of_mem_nodes {e node : Expr Float String}
    (h : e.linearForm lookup = .ok form) (hfinite : form.offset.isFinite = true)
    (hnode : node ∈ e.nodes) :
    ∃ part, node.linearForm lookup = .ok part ∧ part.offset.isFinite = true := by
  induction e generalizing form with
  | literal | constant | var =>
    obtain rfl := List.mem_singleton.1 hnode
    exact ⟨form, h, hfinite⟩
  | binary op left right ihleft ihright =>
    obtain ⟨l, r, hl, hr, hop⟩ := linearForm_binary_eq_ok h
    obtain ⟨hlfinite, hrfinite⟩ := LinearForm.isFinite_offset_of_ofBinary hop hfinite
    rcases mem_nodes_binary.1 hnode with hleft | hright | rfl
    · exact ihleft hl hlfinite hleft
    · exact ihright hr hrfinite hright
    · exact ⟨form, h, hfinite⟩

end Expr

namespace Constraint

theorem Reduces.exists_finite_of_mem_nodes {tolerance : Float} {strength : σ}
    {c : Constraint Float} (h : c.Reduces tolerance lookup strength) {node : Expr Float String}
    (hnode : node ∈ c.nodes) :
    ∃ part, node.linearForm lookup = .ok part ∧ part.offset.isFinite = true := by
  obtain ⟨l, r, hl, hr, hfinite⟩ := h.exists_forms
  have hdifference : (l.difference r).offset.isFinite = true := (isFinite_of_add hfinite).1
  obtain ⟨hlfinite, hproduct⟩ := isFinite_of_add hdifference
  rcases List.mem_append.1 hnode with hleft | hright
  · exact Expr.exists_finite_of_mem_nodes hl hlfinite hleft
  · exact Expr.exists_finite_of_mem_nodes hr (isFinite_of_mul hproduct).2 hright

/-- Evaluating a formula and linearizing it come to the same double. A formula over finite
constants has a value exactly if it has a form with a finite offset, and the offset is the
value. In a constraint from which linearization makes a linear constraint or a verdict on
its offset, every node without variables is a formula with a finite value, whatever values the
constants have: no overflow in constant arithmetic is covered up by what follows. -/
theorem constant_parts_evaluate (tolerance : Float) (lookup : ConstantId → Option Float)
    (strength : σ) :
    ((∀ id v, lookup id = some v → v.isFinite = true) → ∀ (f : Formula Float) (x : Float),
      f.eval lookup = .ok x ↔
        ∃ form, (Expr.ofFormula f : Expr Float String).linearForm lookup = .ok form ∧
          form.offset.isFinite = true ∧ form.offset = x) ∧
    ∀ c : Constraint Float, c.Reduces tolerance lookup strength →
      ∀ node ∈ c.nodes, node.variableLeaves = [] →
        ∃ f x, Expr.ofFormula f = node ∧ f.eval lookup = .ok x ∧ x.isFinite = true := by
  refine ⟨fun hlookup f x => ⟨Expr.exists_linearForm_of_eval hlookup, ?_⟩, ?_⟩
  · rintro ⟨form, hform, hfinite, rfl⟩
    exact Expr.eval_of_linearForm hform hfinite
  · intro c hreduces node hnode hvariables
    obtain ⟨f, rfl⟩ := Expr.exists_ofFormula_eq hvariables
    obtain ⟨form, hform, hfinite⟩ := hreduces.exists_finite_of_mem_nodes hnode
    exact ⟨f, form.offset, rfl, Expr.eval_of_linearForm hform hfinite, hfinite⟩

def computed : Formula Float :=
  .binary .div (.binary .sub (.binary .mul (.constant 1) (.literal 3)) (.literal 1)) (.literal 4)

def computedMultiple : Constraint Float where
  lhs := .binary .mul (Expr.ofFormula computed) (.var "x")
  relation := .atMost
  rhs := .constant 1

/-- With the constant at two the coefficient is five fourths, and the constraint is linear. -/
theorem constant_parts_evaluate_computed :
    let lookup : ConstantId → Option Float := fun _ => some 2
    (∀ id v, lookup id = some v → v.isFinite = true) ∧
      (∃ form, (Expr.ofFormula computed : Expr Float String).linearForm lookup = .ok form ∧
        form.offset.isFinite = true ∧ form.offset = 1.25) ∧
      computedMultiple.Reduces defaultTolerance lookup 1 ∧
      ∃ f x, (Expr.ofFormula f : Expr Float String) = Expr.ofFormula computed ∧
        f.eval lookup = .ok x ∧ x.isFinite = true := by
  intro lookup
  have hfinite : ∀ id v, lookup id = some v → v.isFinite = true := by
    rintro id v ⟨⟩
    decide
  have hvalue : computed.eval lookup = .ok 1.25 := by decide +kernel
  have hreduces : computedMultiple.Reduces defaultTolerance lookup 1 := by
    let linear : LinearConstraint Float Nat :=
      { terms := [⟨"x", 1.25⟩]
        offset := -2
        relation := .atMost
        strength := 1
        constants := .singleton 1
        definition := computedMultiple }
    have hlinear : computedMultiple.linearize defaultTolerance lookup 1 = .ok linear := by
      decide +kernel
    exact Or.inl ⟨linear, hlinear⟩
  have hnode : (Expr.ofFormula computed : Expr Float String) ∈ computedMultiple.nodes := by
    decide +kernel
  obtain ⟨hevaluates, hnodes⟩ := constant_parts_evaluate defaultTolerance lookup 1
  exact ⟨hfinite, (hevaluates hfinite computed 1.25).1 hvalue, hreduces,
    hnodes computedMultiple hreduces _ hnode (by decide)⟩

end Constraint

end NamedConstants
