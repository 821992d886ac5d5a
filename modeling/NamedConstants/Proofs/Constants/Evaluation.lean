import NamedConstants.Constants.Definition

/-!
What evaluation reads and what it gives. The value of a formula depends on the
constants among its leaves and on nothing else, a formula with a value has looked
all of them up successfully, and finite values lead to finite values.
-/
namespace NamedConstants

variable {α : Type} [Arithmetic α]

theorem requireFinite_eq_ok_iff {x y : α} :
    requireFinite x = .ok y ↔ Arithmetic.isFinite x = true ∧ x = y := by
  unfold requireFinite
  cases Arithmetic.isFinite x <;> simp

theorem requireFinite_eq_error_iff {x : α} {fault : EvalFault α} :
    requireFinite x = .error fault ↔
      Arithmetic.isFinite x = false ∧ fault = .nonFiniteResult x := by
  unfold requireFinite
  cases Arithmetic.isFinite x <;> simp [eq_comm]

theorem requireFinite_eq_ok {x y : α} (h : requireFinite x = .ok y) :
    x = y ∧ Arithmetic.isFinite y = true := by
  obtain ⟨hfinite, rfl⟩ := requireFinite_eq_ok_iff.1 h
  exact ⟨rfl, hfinite⟩

theorem BinaryOp.isFinite_of_eval {op : BinaryOp} {a b v : α} (h : op.eval a b = .ok v) :
    Arithmetic.isFinite v = true := by
  unfold BinaryOp.eval at h
  split at h
  · cases h
  · exact (requireFinite_eq_ok h).2

namespace Expr

theorem eval_binary_eq_ok {op : BinaryOp} {left right : Formula α}
    {lookup : ConstantId → Option α} {v : α} (h : (binary op left right).eval lookup = .ok v) :
    ∃ a b, left.eval lookup = .ok a ∧ right.eval lookup = .ok b ∧ op.eval a b = .ok v := by
  simp only [eval] at h
  cases hleft : left.eval lookup with
  | error fault => simp [hleft] at h
  | ok a =>
    cases hright : right.eval lookup with
    | error fault => simp [hleft, hright] at h
    | ok b => exact ⟨a, b, rfl, rfl, by simpa [hleft, hright] using h⟩

/-- Evaluation reads nothing but the constants among the leaves. -/
theorem eval_congr {lookup lookup' : ConstantId → Option α} (e : Formula α)
    (h : ∀ id ∈ e.constantLeaves, lookup id = lookup' id) : e.eval lookup = e.eval lookup' := by
  induction e with
  | literal value => rfl
  | constant id => simp only [eval, h id (by simp [constantLeaves])]
  | var name => exact name.elim
  | binary op left right ihleft ihright =>
    simp only [constantLeaves, List.mem_append] at h
    simp only [eval, ihleft fun id hid => h id (Or.inl hid),
      ihright fun id hid => h id (Or.inr hid)]

/-- A formula with a value has found every constant that it mentions. -/
theorem resolved_of_eval {lookup : ConstantId → Option α} {e : Formula α} {v : α}
    (h : e.eval lookup = .ok v) : ∀ id ∈ e.constantLeaves, ∃ x, lookup id = some x := by
  induction e generalizing v with
  | literal value => simp [constantLeaves]
  | constant id =>
    intro ref href
    rw [constantLeaves, List.mem_singleton] at href
    subst href
    cases hvalue : lookup ref with
    | none => simp [eval, hvalue] at h
    | some x => exact ⟨x, rfl⟩
  | var name => exact name.elim
  | binary op left right ihleft ihright =>
    obtain ⟨a, b, hleft, hright, -⟩ := eval_binary_eq_ok h
    intro ref href
    rcases List.mem_append.1 href with href | href
    · exact ihleft hleft ref href
    · exact ihright hright ref href

/-- Only the value of a constant can be other than finite, and only if it is the formula. -/
theorem isFinite_of_eval {lookup : ConstantId → Option α} {e : Formula α} {v : α}
    (hlookup : ∀ id ∈ e.constantLeaves, ∀ x, lookup id = some x → Arithmetic.isFinite x = true)
    (h : e.eval lookup = .ok v) : Arithmetic.isFinite v = true := by
  cases e with
  | literal value => exact (requireFinite_eq_ok h).2
  | constant id =>
    cases hvalue : lookup id with
    | none => simp [eval, hvalue] at h
    | some x =>
      have hx : x = v := by simpa [eval, hvalue] using h
      exact hx ▸ hlookup id (List.mem_singleton_self id) x hvalue
  | var name => exact name.elim
  | binary op left right =>
    obtain ⟨a, b, -, -, hop⟩ := eval_binary_eq_ok h
    exact BinaryOp.isFinite_of_eval hop

end Expr

namespace Definition

def Mentions (definition : Definition α) (id : ConstantId) : Prop :=
  ∃ expr, definition = formula expr ∧ id ∈ expr.constantLeaves

omit [Arithmetic α] in
@[simp] theorem mem_references {definition : Definition α} {id : ConstantId} :
    id ∈ definition.references ↔ definition.Mentions id := by
  cases definition <;> simp [references, Mentions, Expr.constants]

theorem resolve_congr {definition : Definition α} {lookup lookup' : ConstantId → Option α}
    (id : ConstantId) (h : ∀ ref, definition.Mentions ref → lookup ref = lookup' ref) :
    definition.resolve id lookup = definition.resolve id lookup' := by
  cases definition with
  | unset => rfl
  | literal value => rfl
  | formula expr =>
    simp only [resolve, Expr.eval_congr expr fun ref href => h ref ⟨expr, rfl, href⟩]

private theorem eq_ok_of_mapError {ε ε' β : Type} {f : ε → ε'} {x : Except ε β} {v : β}
    (h : x.mapError f = .ok v) : x = .ok v := by
  cases x with
  | error e =>
    change Except.error (f e) = Except.ok v at h
    cases h
  | ok y =>
    change Except.ok y = Except.ok v at h
    cases h
    rfl

theorem resolved_of_resolve {definition : Definition α} {lookup : ConstantId → Option α}
    {id : ConstantId} {v : α} (h : definition.resolve id lookup = .ok v) {ref : ConstantId}
    (href : definition.Mentions ref) : ∃ x, lookup ref = some x := by
  obtain ⟨expr, rfl, hleaf⟩ := href
  exact Expr.resolved_of_eval (eq_ok_of_mapError h) ref hleaf

theorem isFinite_of_resolve {definition : Definition α} {lookup : ConstantId → Option α}
    {id : ConstantId} {v : α}
    (hlookup : ∀ ref x, lookup ref = some x → Arithmetic.isFinite x = true)
    (h : definition.resolve id lookup = .ok v) : Arithmetic.isFinite v = true := by
  cases definition with
  | unset => cases h
  | literal value => exact (requireFinite_eq_ok (eq_ok_of_mapError h)).2
  | formula expr =>
    exact Expr.isFinite_of_eval (fun ref _ => hlookup ref) (eq_ok_of_mapError h)

/-- A value found with fewer constants in sight is found with more of them too. -/
theorem resolve_mono {definition : Definition α} {lookup lookup' : ConstantId → Option α}
    {id : ConstantId} {v : α} (hle : ∀ ref x, lookup ref = some x → lookup' ref = some x)
    (h : definition.resolve id lookup = .ok v) : definition.resolve id lookup' = .ok v := by
  rw [← h]
  refine resolve_congr id fun ref href => ?_
  obtain ⟨x, hx⟩ := resolved_of_resolve h href
  rw [hx, hle ref x hx]

end Definition

end NamedConstants
