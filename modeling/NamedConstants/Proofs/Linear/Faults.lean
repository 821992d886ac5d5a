import NamedConstants.Proofs.Expr.Nodes
import NamedConstants.Proofs.Linear.Normal
import NamedConstants.Proofs.Linear.Reading

/-!
Which fault a linearization reports. A node can be at fault itself, for what it is or for the
numbers that its operands stand for; if nodes of a constraint are at fault, the first one in
the order of the nodes is reported. Being linear is a matter of the tree alone: a node with too
many variables is at fault also where they would cancel. What is left of a constraint
without such nodes can only contain a number that is not finite, or no variables.
-/
namespace NamedConstants

variable {α σ : Type} [Arithmetic α] {lookup : ConstantId → Option α}

/-- The node itself is at fault. If it is a product, the operand without variables is the
factor, the left one if there are two. -/
inductive Expr.Raises (lookup : ConstantId → Option α) :
    Expr α String → LinearizeFault α → Prop where
  | unresolved (id : ConstantId) (hnone : lookup id = none) :
      Raises lookup (.constant id) (.unresolvedConstant id)
  | product (left right : Expr α String) (hleft : left.HasVariable) (hright : right.HasVariable) :
      Raises lookup (.binary .mul left right)
        (.nonlinear .mul "product of two decision-variable expressions")
  | leftFactor (left right : Expr α String) (form : LinearForm α) (hleft : ¬ left.HasVariable)
      (hform : left.linearForm lookup = .ok form)
      (hfinite : Arithmetic.isFinite form.offset = false) :
      Raises lookup (.binary .mul left right) (.nonFiniteCoefficient form.offset)
  | rightFactor (left right : Expr α String) (form : LinearForm α) (hleft : left.HasVariable)
      (hright : ¬ right.HasVariable) (hform : right.linearForm lookup = .ok form)
      (hfinite : Arithmetic.isFinite form.offset = false) :
      Raises lookup (.binary .mul left right) (.nonFiniteCoefficient form.offset)
  | variableDivisor (left right : Expr α String) (hright : right.HasVariable) :
      Raises lookup (.binary .div left right)
        (.nonlinear .div "divisor contains a decision variable")
  | nonFiniteDivisor (left right : Expr α String) (form : LinearForm α)
      (hright : ¬ right.HasVariable) (hform : right.linearForm lookup = .ok form)
      (hfinite : Arithmetic.isFinite form.offset = false) :
      Raises lookup (.binary .div left right) (.nonFiniteCoefficient form.offset)
  | zeroDivisor (left right : Expr α String) (form : LinearForm α)
      (hright : ¬ right.HasVariable) (hform : right.linearForm lookup = .ok form)
      (hfinite : Arithmetic.isFinite form.offset = true)
      (hzero : Arithmetic.isZero form.offset = true) :
      Raises lookup (.binary .div left right) .divisionByZero

inductive FirstRaised (lookup : ConstantId → Option α) :
    List (Expr α String) → LinearizeFault α → Prop where
  | here (node : Expr α String) (rest : List (Expr α String)) (fault : LinearizeFault α)
      (h : node.Raises lookup fault) : FirstRaised lookup (node :: rest) fault
  | later (node : Expr α String) (rest : List (Expr α String)) (fault : LinearizeFault α)
      (hquiet : ∀ other, ¬ node.Raises lookup other) (h : FirstRaised lookup rest fault) :
      FirstRaised lookup (node :: rest) fault

namespace Expr

variable {op : BinaryOp} {left right e : Expr α String} {l r form : LinearForm α}
  {fault fault' : LinearizeFault α}

/-- A node raises at most one fault. -/
theorem Raises.unique (h : e.Raises lookup fault) (h' : e.Raises lookup fault') :
    fault = fault' := by
  cases h with
  | unresolved => cases h' with | unresolved => rfl
  | product _ _ hleft hright =>
    cases h' with
    | product => rfl
    | leftFactor _ _ _ hnot => exact absurd hleft hnot
    | rightFactor _ _ _ _ hnot => exact absurd hright hnot
  | leftFactor _ _ form hleft hform =>
    cases h' with
    | product _ _ hvariable => exact absurd hvariable hleft
    | leftFactor _ _ form' _ hform' =>
      rw [Except.ok.inj (hform.symm.trans hform')]
    | rightFactor _ _ _ hvariable => exact absurd hvariable hleft
  | rightFactor _ _ form hleft hright hform =>
    cases h' with
    | product _ _ _ hvariable => exact absurd hvariable hright
    | leftFactor _ _ _ hnot => exact absurd hleft hnot
    | rightFactor _ _ form' _ _ hform' =>
      rw [Except.ok.inj (hform.symm.trans hform')]
  | variableDivisor _ _ hright =>
    cases h' with
    | variableDivisor => rfl
    | nonFiniteDivisor _ _ _ hnot => exact absurd hright hnot
    | zeroDivisor _ _ _ hnot => exact absurd hright hnot
  | nonFiniteDivisor _ _ form hright hform hfinite =>
    cases h' with
    | variableDivisor _ _ hvariable => exact absurd hvariable hright
    | nonFiniteDivisor _ _ form' _ hform' =>
      rw [Except.ok.inj (hform.symm.trans hform')]
    | zeroDivisor _ _ form' _ hform' hfinite' =>
      rw [Except.ok.inj (hform.symm.trans hform'), hfinite'] at hfinite
      cases hfinite
  | zeroDivisor _ _ form hright hform hfinite =>
    cases h' with
    | variableDivisor _ _ hvariable => exact absurd hvariable hright
    | nonFiniteDivisor _ _ form' _ hform' hfinite' =>
      rw [Except.ok.inj (hform.symm.trans hform'), hfinite'] at hfinite
      cases hfinite
    | zeroDivisor => rfl

theorem hasVariable_iff (h : e.linearForm lookup = .ok form) :
    e.HasVariable ↔ form.hasVariable = true := by
  rw [(lists_linearForm h).hasVariable_eq, HasVariable]
  simp

theorem not_hasVariable_iff (h : e.linearForm lookup = .ok form) :
    ¬ e.HasVariable ↔ form.hasVariable = false := by
  rw [hasVariable_iff h, Bool.not_eq_true]

/-- Where the operands have forms, the node is at fault exactly if these cannot be combined. -/
theorem raises_binary_iff (hl : left.linearForm lookup = .ok l)
    (hr : right.linearForm lookup = .ok r) :
    (binary op left right).Raises lookup fault ↔ l.Combines r op (.error fault) := by
  constructor
  · intro h
    cases h with
    | product _ _ hleft hright =>
      exact .product ((hasVariable_iff hl).1 hleft) ((hasVariable_iff hr).1 hright)
    | leftFactor _ _ form hleft hform hfinite =>
      obtain rfl : l = form := Except.ok.inj (hl.symm.trans hform)
      exact .leftFactor ((not_hasVariable_iff hl).1 hleft) hfinite
    | rightFactor _ _ form hleft hright hform hfinite =>
      obtain rfl : r = form := Except.ok.inj (hr.symm.trans hform)
      exact .rightFactor ((hasVariable_iff hl).1 hleft) ((not_hasVariable_iff hr).1 hright) hfinite
    | variableDivisor _ _ hright => exact .variableDivisor ((hasVariable_iff hr).1 hright)
    | nonFiniteDivisor _ _ form hright hform hfinite =>
      obtain rfl : r = form := Except.ok.inj (hr.symm.trans hform)
      exact .nonFiniteDivisor ((not_hasVariable_iff hr).1 hright) hfinite
    | zeroDivisor _ _ form hright hform hfinite hzero =>
      obtain rfl : r = form := Except.ok.inj (hr.symm.trans hform)
      exact .zeroDivisor ((not_hasVariable_iff hr).1 hright) hfinite hzero
  · intro h
    cases h with
    | product hlv hrv =>
      exact .product _ _ ((hasVariable_iff hl).2 hlv) ((hasVariable_iff hr).2 hrv)
    | leftFactor hlv hfinite =>
      exact .leftFactor _ _ l ((not_hasVariable_iff hl).2 hlv) hl hfinite
    | rightFactor hlv hrv hfinite =>
      exact .rightFactor _ _ r ((hasVariable_iff hl).2 hlv) ((not_hasVariable_iff hr).2 hrv) hr
        hfinite
    | variableDivisor hrv => exact .variableDivisor _ _ ((hasVariable_iff hr).2 hrv)
    | nonFiniteDivisor hrv hfinite =>
      exact .nonFiniteDivisor _ _ r ((not_hasVariable_iff hr).2 hrv) hr hfinite
    | zeroDivisor hrv hfinite hzero =>
      exact .zeroDivisor _ _ r ((not_hasVariable_iff hr).2 hrv) hr hfinite hzero

/-- No node of an expression with a form is at fault. -/
theorem not_raises_of_linearForm (h : e.linearForm lookup = .ok form) :
    ∀ node ∈ e.nodes, ∀ fault, ¬ node.Raises lookup fault := by
  induction e generalizing form with
  | literal value =>
    intro node hnode fault hraises
    obtain rfl := List.mem_singleton.1 hnode
    cases hraises
  | constant id =>
    intro node hnode fault hraises
    obtain rfl := List.mem_singleton.1 hnode
    cases hraises with
    | unresolved _ hnone => simp [linearForm, hnone] at h
  | var name =>
    intro node hnode fault hraises
    obtain rfl := List.mem_singleton.1 hnode
    cases hraises
  | binary op left right ihleft ihright =>
    obtain ⟨l, r, hl, hr, hop⟩ := linearForm_binary_eq_ok h
    intro node hnode fault hraises
    rcases mem_nodes_binary.1 hnode with hleft | hright | rfl
    · exact ihleft hl node hleft fault hraises
    · exact ihright hr node hright fault hraises
    · rw [((raises_binary_iff hl hr).1 hraises).ofBinary_eq] at hop
      cases hop

end Expr

namespace FirstRaised

variable {nodes : List (Expr α String)} {fault fault' : LinearizeFault α}

theorem append (h : FirstRaised lookup nodes fault) (more : List (Expr α String)) :
    FirstRaised lookup (nodes ++ more) fault := by
  induction h with
  | here node rest fault h => exact .here node _ fault h
  | later node rest fault hquiet h ih => exact .later node _ fault hquiet ih

theorem prepend {before : List (Expr α String)}
    (hquiet : ∀ node ∈ before, ∀ other, ¬ node.Raises lookup other)
    (h : FirstRaised lookup nodes fault) : FirstRaised lookup (before ++ nodes) fault := by
  induction before with
  | nil => exact h
  | cons node before ih =>
    obtain ⟨hnode, hbefore⟩ := List.forall_mem_cons.1 hquiet
    exact .later node _ fault hnode (ih hbefore)

theorem exists_mem (h : FirstRaised lookup nodes fault) :
    ∃ node ∈ nodes, node.Raises lookup fault := by
  induction h with
  | here node rest fault h => exact ⟨node, List.mem_cons_self, h⟩
  | later node rest fault hquiet h ih =>
    obtain ⟨other, hmem, hraises⟩ := ih
    exact ⟨other, List.mem_cons_of_mem node hmem, hraises⟩

theorem unique (h : FirstRaised lookup nodes fault) (h' : FirstRaised lookup nodes fault') :
    fault = fault' := by
  induction h with
  | here node rest fault h =>
    cases h' with
    | here _ _ _ h' => exact h.unique h'
    | later _ _ _ hquiet => exact absurd h (hquiet fault)
  | later node rest fault hquiet h ih =>
    cases h' with
    | here _ _ _ h' => exact absurd h' (hquiet fault')
    | later _ _ _ _ h' => exact ih h'

end FirstRaised

/-- An expression without a form reports the first of its nodes that is at fault. -/
theorem Expr.firstRaised_of_linearForm {e : Expr α String} {fault : LinearizeFault α}
    (h : e.linearForm lookup = .error fault) : FirstRaised lookup e.nodes fault := by
  induction e with
  | literal value => cases h
  | constant id =>
    cases hvalue : lookup id with
    | some value => simp [linearForm, hvalue] at h
    | none =>
      have hfault : LinearizeFault.unresolvedConstant id = fault := by
        simpa [linearForm, hvalue] using h
      exact hfault ▸ .here _ [] _ (.unresolved id hvalue)
  | var name => cases h
  | binary op left right ihleft ihright =>
    rw [nodes, List.append_assoc]
    cases hl : left.linearForm lookup with
    | error first =>
      have hfault : first = fault := by simpa [linearForm, hl] using h
      exact (ihleft (hfault ▸ hl)).append _
    | ok l =>
      refine FirstRaised.prepend (not_raises_of_linearForm hl) ?_
      cases hr : right.linearForm lookup with
      | error first =>
        have hfault : first = fault := by simpa [linearForm, hl, hr] using h
        exact (ihright (hfault ▸ hr)).append _
      | ok r =>
        have hop : LinearForm.ofBinary op l r = .error fault := by
          simpa [linearForm, hl, hr] using h
        have hcombines := LinearForm.combines_ofBinary op l r
        rw [hop] at hcombines
        refine FirstRaised.prepend (not_raises_of_linearForm hr) ?_
        exact .here _ [] fault ((raises_binary_iff hl hr).2 hcombines)

/-- A nonlinear node is at fault, whatever its operands stand for. -/
theorem Expr.IsNonlinear.exists_raises {e : Expr α String} (h : e.IsNonlinear)
    (lookup : ConstantId → Option α) : ∃ fault, e.Raises lookup fault := by
  cases e with
  | literal | constant | var => exact h.elim
  | binary op left right =>
    cases op with
    | add | sub => exact h.elim
    | mul => exact ⟨_, .product left right h.1 h.2⟩
    | div => exact ⟨_, .variableDivisor left right h⟩

theorem Expr.Raises.isNonlinear {e : Expr α String} {op : BinaryOp} {detail : String}
    (h : e.Raises lookup (.nonlinear op detail)) : e.IsNonlinear := by
  cases h with
  | product _ _ hleft hright => exact ⟨hleft, hright⟩
  | variableDivisor _ _ hright => exact hright

namespace Constraint

variable {tolerance : α} {strength : σ} {c : Constraint α} {fault : LinearizeFault α}

/-- A fault is the one of the first node that is at fault, or no node is, and then a number is
not finite or there are no variables left. -/
theorem linearize_eq_error (h : c.linearize tolerance lookup strength = .error fault) :
    FirstRaised lookup c.nodes fault ∨
      ((∀ node ∈ c.nodes, ∀ other, ¬ node.Raises lookup other) ∧
        ((∃ value, fault = .nonFiniteCoefficient value) ∨ (∃ offset, fault = .noVariables offset) ∨
          ∃ offset relation, fault = .triviallyUnsatisfiable offset relation)) := by
  cases hl : c.lhs.linearForm lookup with
  | error first =>
    rw [linearize_of_lhs_error hl] at h
    cases h
    exact Or.inl ((Expr.firstRaised_of_linearForm hl).append _)
  | ok l =>
    have hleft := Expr.not_raises_of_linearForm hl
    cases hr : c.rhs.linearForm lookup with
    | error first =>
      rw [linearize_of_rhs_error hl hr] at h
      cases h
      exact Or.inl (.prepend hleft (Expr.firstRaised_of_linearForm hr))
    | ok r =>
      refine Or.inr ⟨fun node hnode => ?_, ?_⟩
      · rcases List.mem_append.1 hnode with hnode | hnode
        · exact hleft node hnode
        · exact Expr.not_raises_of_linearForm hr node hnode
      · rcases linearize_of_forms tolerance strength hl hr with ⟨value, hvalue⟩ | ⟨hreduces, -⟩
        · rw [h] at hvalue
          exact Or.inl ⟨value, Except.error.inj hvalue⟩
        · unfold Reduces at hreduces
          rw [h] at hreduces
          exact Or.inr (by simpa using hreduces)

/-- No node of a reduced constraint is at fault. -/
theorem Reduces.not_raises (h : c.Reduces tolerance lookup strength) :
    ∀ node ∈ c.nodes, ∀ other, ¬ node.Raises lookup other := by
  obtain ⟨l, r, hl, hr, -⟩ := h.exists_forms
  intro node hnode
  rcases List.mem_append.1 hnode with hnode | hnode
  · exact Expr.not_raises_of_linearForm hl node hnode
  · exact Expr.not_raises_of_linearForm hr node hnode

/-- What linearizing says about the nodes of a constraint. It reports a nonlinear one only if
there is one. If there is one, neither a linear constraint nor a verdict comes out, also where
the variables cancel or are multiplied by zero. If there is none and all constants have values,
only a zero divisor, a number that is not finite, and a constraint without variables are
reported. Of all nodes at fault, the first one is reported, the left side before the right one;
only if there is none, a fault is about what both sides leave. -/
theorem faults_of_linearize (tolerance : α) (lookup : ConstantId → Option α) (strength : σ)
    (c : Constraint α) :
    (∀ op detail, c.linearize tolerance lookup strength = .error (.nonlinear op detail) →
      ∃ node ∈ c.nodes, node.IsNonlinear) ∧
    ((∃ node ∈ c.nodes, node.IsNonlinear) → ¬ c.Reduces tolerance lookup strength) ∧
    ((∀ node ∈ c.nodes, ¬ node.IsNonlinear) → (∀ id ∈ c.constants, lookup id ≠ none) →
      ∀ fault, c.linearize tolerance lookup strength = .error fault →
        fault = .divisionByZero ∨ (∃ value, fault = .nonFiniteCoefficient value) ∨
          (∃ offset, fault = .noVariables offset) ∨
          ∃ offset relation, fault = .triviallyUnsatisfiable offset relation) ∧
    (∀ fault, FirstRaised lookup c.nodes fault →
      c.linearize tolerance lookup strength = .error fault) ∧
    ∀ fault, c.linearize tolerance lookup strength = .error fault →
      FirstRaised lookup c.nodes fault ∨
        ((∀ node ∈ c.nodes, ∀ other, ¬ node.Raises lookup other) ∧
          ((∃ value, fault = .nonFiniteCoefficient value) ∨
            (∃ offset, fault = .noVariables offset) ∨
            ∃ offset relation, fault = .triviallyUnsatisfiable offset relation)) := by
  refine ⟨?_, ?_, ?_, ?_, fun fault => linearize_eq_error⟩
  · intro op detail h
    rcases linearize_eq_error h with hfirst | ⟨-, hleft⟩
    · obtain ⟨node, hnode, hraises⟩ := hfirst.exists_mem
      exact ⟨node, hnode, hraises.isNonlinear⟩
    · simp at hleft
  · rintro ⟨node, hnode, hnonlinear⟩ hreduces
    obtain ⟨fault, hraises⟩ := hnonlinear.exists_raises lookup
    exact hreduces.not_raises node hnode fault hraises
  · intro hlinear hresolved fault h
    rcases linearize_eq_error h with hfirst | ⟨-, hleft⟩
    · obtain ⟨node, hnode, hraises⟩ := hfirst.exists_mem
      cases hraises with
      | unresolved id hnone =>
        refine absurd hnone (hresolved id (mem_constants.2 ?_))
        rw [← Expr.constant_mem_nodes_iff, ← Expr.constant_mem_nodes_iff]
        exact List.mem_append.1 hnode
      | product left right hvl hvr => exact absurd ⟨hvl, hvr⟩ (hlinear _ hnode)
      | variableDivisor left right hvr => exact absurd hvr (hlinear _ hnode)
      | leftFactor | rightFactor | nonFiniteDivisor => exact Or.inr (Or.inl ⟨_, rfl⟩)
      | zeroDivisor => exact Or.inl rfl
    · exact Or.inr hleft
  · intro fault hfirst
    cases hlinearize : c.linearize tolerance lookup strength with
    | ok linear =>
      obtain ⟨node, hnode, hraises⟩ := hfirst.exists_mem
      exact absurd hraises (Reduces.not_raises (Or.inl ⟨linear, hlinearize⟩) node hnode fault)
    | error reported =>
      rcases linearize_eq_error hlinearize with hreported | ⟨hquiet, -⟩
      · rw [hfirst.unique hreported]
      · obtain ⟨node, hnode, hraises⟩ := hfirst.exists_mem
        exact absurd hraises (hquiet node hnode fault)

def cancelling : Constraint Rat where
  lhs := .binary .add
    (.binary .mul (.binary .sub (.var "x") (.var "x")) (.var "y"))
    (.binary .div (.literal 1) (.constant 1))
  relation := .equal
  rhs := .constant 2

def shared : Constraint Rat where
  lhs := .binary .div (.var "x") (.constant 1)
  relation := .atMost
  rhs := .literal 3

/-- Of three nodes at fault the product comes first; the other constraint has no such product. -/
theorem faults_of_linearize_cancelling :
    let lookup : ConstantId → Option Rat := fun id => if id = 1 then some 0 else none
    let fault : LinearizeFault Rat :=
      .nonlinear .mul "product of two decision-variable expressions"
    FirstRaised lookup cancelling.nodes fault ∧
      cancelling.linearize 0 lookup () = .error fault ∧
      (∃ node ∈ cancelling.nodes, node.IsNonlinear) ∧ ¬ cancelling.Reduces 0 lookup () ∧
      (∀ node ∈ shared.nodes, ¬ node.IsNonlinear) ∧ (∀ id ∈ shared.constants, lookup id ≠ none) ∧
      shared.linearize 0 lookup () = .error .divisionByZero ∧
      ∀ id, shared.linearize 0 lookup () ≠ .error (.unresolvedConstant id) := by
  intro lookup fault
  obtain ⟨hnonlinear, hnever, -, hreported, -⟩ := faults_of_linearize 0 lookup () cancelling
  obtain ⟨-, -, hlinear, -⟩ := faults_of_linearize 0 lookup () shared
  have hfirst : FirstRaised lookup cancelling.nodes fault := by
    refine .later _ _ _ nofun (.later _ _ _ nofun (.later _ _ _ nofun (.later _ _ _ nofun ?_)))
    exact .here _ _ _ (.product _ _ (by simp [Expr.HasVariable, Expr.variableLeaves])
      (by simp [Expr.HasVariable, Expr.variableLeaves]))
  have hnode := hnonlinear .mul _ (hreported fault hfirst)
  have hnodes : ∀ node ∈ shared.nodes, ¬ node.IsNonlinear := by
    simp [shared, nodes, Expr.nodes, Expr.IsNonlinear, Expr.HasVariable, Expr.variableLeaves]
  have hresolved : ∀ id ∈ shared.constants, lookup id ≠ none := by
    have hconstants : shared.constants.toList = [1] := by decide
    intro id hid
    rw [InsertionSet.mem_iff, hconstants] at hid
    simp [lookup, List.mem_singleton.1 hid]
  refine ⟨hfirst, hreported fault hfirst, hnode, hnever hnode, hnodes, hresolved, rfl, ?_⟩
  intro id h
  have hcases := hlinear hnodes hresolved _ h
  simp at hcases

end Constraint

end NamedConstants
