import NamedConstants.Constraint

/-!
The nodes of a tree, in the order in which a walk that looks at the operands first leaves
them. A node without variables among its leaves is a formula. Whether a constraint is linear
can be told from its nodes: a product of two nodes with variables is not, nor is a quotient
by one, whatever becomes of these variables.
-/
namespace NamedConstants

variable {α ν : Type}

namespace Expr

/-- The subtrees from left to right, each of them after its operands. -/
def nodes : Expr α ν → List (Expr α ν)
  | binary op left right => left.nodes ++ right.nodes ++ [binary op left right]
  | e => [e]

def HasVariable (e : Expr α ν) : Prop := e.variableLeaves ≠ []

/-- A product with variables in both operands, or a quotient with a variable in its divisor. -/
def IsNonlinear : Expr α ν → Prop
  | binary .mul left right => left.HasVariable ∧ right.HasVariable
  | binary .div _ right => right.HasVariable
  | _ => False

theorem mem_nodes_binary {op : BinaryOp} {left right e : Expr α ν} :
    e ∈ (binary op left right).nodes ↔
      e ∈ left.nodes ∨ e ∈ right.nodes ∨ e = binary op left right := by
  simp [nodes]

theorem constant_mem_nodes_iff {e : Expr α ν} {id : ConstantId} :
    constant id ∈ e.nodes ↔ id ∈ e.constantLeaves := by
  induction e with
  | literal value => simp [nodes, constantLeaves]
  | constant other => simp [nodes, constantLeaves]
  | var name => simp [nodes, constantLeaves]
  | binary op left right ihleft ihright =>
    rw [mem_nodes_binary, ihleft, ihright, constantLeaves, List.mem_append]
    simp

/-- A formula that is seen as an expression keeps its shape. -/
theorem ofFormula_binary (op : BinaryOp) (left right : Formula α) :
    (ofFormula (.binary op left right) : Expr α ν) =
      .binary op (ofFormula left) (ofFormula right) := rfl

theorem variableLeaves_ofFormula (f : Formula α) :
    (ofFormula f : Expr α ν).variableLeaves = [] := by
  induction f with
  | literal value => rfl
  | constant id => rfl
  | var name => exact name.elim
  | binary op left right ihleft ihright =>
    rw [ofFormula_binary, variableLeaves, ihleft, ihright, List.append_nil]

theorem exists_ofFormula_eq {e : Expr α ν} (h : e.variableLeaves = []) :
    ∃ f : Formula α, ofFormula f = e := by
  induction e with
  | literal value => exact ⟨.literal value, rfl⟩
  | constant id => exact ⟨.constant id, rfl⟩
  | var name => cases h
  | binary op left right ihleft ihright =>
    obtain ⟨hleft, hright⟩ := List.append_eq_nil_iff.1 h
    obtain ⟨l, rfl⟩ := ihleft hleft
    obtain ⟨r, rfl⟩ := ihright hright
    exact ⟨.binary op l r, rfl⟩

end Expr

namespace Constraint

def nodes (c : Constraint α) : List (Expr α String) := c.lhs.nodes ++ c.rhs.nodes

end Constraint

end NamedConstants
