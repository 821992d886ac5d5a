import NamedConstants.Proofs.Constants.Evaluation

/-!
What a formula means, apart from the function that evaluates it. A formula evaluates to a
value if all its numbers and results are finite, all its constants are found and no divisor
is zero. Otherwise it fails, and the fault is the first one on the way from left to right:
an operand is looked at only if those to its left have values. Evaluation finds the one or
the other.
-/
namespace NamedConstants

variable {α : Type} [Arithmetic α]

/-- An operation can be carried out on two numbers. -/
structure BinaryOp.Admits (op : BinaryOp) (a b : α) : Prop where
  divisor : op = .div → Arithmetic.isZero b = false
  isFinite : Arithmetic.isFinite (op.apply a b) = true

/-- Why an operation cannot be carried out on two numbers. A zero divisor comes first. -/
inductive BinaryOp.Refuses (a b : α) : BinaryOp → EvalFault α → Prop where
  | zeroDivisor (hzero : Arithmetic.isZero b = true) : Refuses a b .div .divideByZero
  | nonFinite (op : BinaryOp) (hdivisor : op = .div → Arithmetic.isZero b = false)
      (hfinite : Arithmetic.isFinite (op.apply a b) = false) :
      Refuses a b op (.nonFiniteResult (op.apply a b))

namespace Expr

/-- The formula has this value when its constants are looked up as told. -/
inductive Evaluates (lookup : ConstantId → Option α) : Formula α → α → Prop where
  | literal (value : α) (hfinite : Arithmetic.isFinite value = true) :
      Evaluates lookup (.literal value) value
  | constant (id : ConstantId) (value : α) (hvalue : lookup id = some value) :
      Evaluates lookup (.constant id) value
  | binary (op : BinaryOp) (left right : Formula α) (a b : α) (hleft : Evaluates lookup left a)
      (hright : Evaluates lookup right b) (hop : op.Admits a b) :
      Evaluates lookup (.binary op left right) (op.apply a b)

/-- The formula has no value, and this is what is met first. -/
inductive FailsFirst (lookup : ConstantId → Option α) : Formula α → EvalFault α → Prop where
  | literal (value : α) (hfinite : Arithmetic.isFinite value = false) :
      FailsFirst lookup (.literal value) (.nonFiniteResult value)
  | constant (id : ConstantId) (hnone : lookup id = none) :
      FailsFirst lookup (.constant id) (.unresolvedConstant id)
  | left (op : BinaryOp) (left right : Formula α) (fault : EvalFault α)
      (hleft : FailsFirst lookup left fault) : FailsFirst lookup (.binary op left right) fault
  | right (op : BinaryOp) (left right : Formula α) (a : α) (fault : EvalFault α)
      (hleft : Evaluates lookup left a) (hright : FailsFirst lookup right fault) :
      FailsFirst lookup (.binary op left right) fault
  | operation (op : BinaryOp) (left right : Formula α) (a b : α) (fault : EvalFault α)
      (hleft : Evaluates lookup left a) (hright : Evaluates lookup right b)
      (hop : op.Refuses a b fault) : FailsFirst lookup (.binary op left right) fault

end Expr

namespace BinaryOp

variable {op : BinaryOp} {a b v : α} {fault : EvalFault α}

theorem eval_eq_ok_iff : op.eval a b = .ok v ↔ op.Admits a b ∧ op.apply a b = v := by
  unfold eval
  split
  · rename_i hzero
    constructor
    · intro h
      cases h
    · rintro ⟨⟨hdivisor, -⟩, -⟩
      rw [hdivisor hzero.1] at hzero
      cases hzero.2
  · rename_i hdivisor
    rw [requireFinite_eq_ok_iff]
    constructor
    · rintro ⟨hfinite, heq⟩
      exact ⟨⟨fun hdiv => by simpa [hdiv] using hdivisor, hfinite⟩, heq⟩
    · rintro ⟨⟨-, hfinite⟩, heq⟩
      exact ⟨hfinite, heq⟩

theorem eval_eq_error_iff : op.eval a b = .error fault ↔ op.Refuses a b fault := by
  unfold eval
  split
  · rename_i hzero
    obtain ⟨rfl, hzero⟩ := hzero
    constructor
    · rintro ⟨⟩
      exact .zeroDivisor hzero
    · rintro (_ | ⟨_, hdivisor, _⟩)
      · rfl
      · rw [hdivisor rfl] at hzero
        cases hzero
  · rename_i hdivisor
    rw [requireFinite_eq_error_iff]
    constructor
    · rintro ⟨hfinite, rfl⟩
      exact .nonFinite op (fun hdiv => by simpa [hdiv] using hdivisor) hfinite
    · rintro (hzero | ⟨_, _, hfinite⟩)
      · exact absurd ⟨rfl, hzero⟩ hdivisor
      · exact ⟨hfinite, rfl⟩

end BinaryOp

namespace Expr

variable {lookup : ConstantId → Option α}

/-- Evaluation gives a value exactly if the formula has it. -/
theorem eval_eq_ok_iff {e : Formula α} {v : α} :
    e.eval lookup = .ok v ↔ e.Evaluates lookup v := by
  constructor
  · intro h
    induction e generalizing v with
    | literal value =>
      obtain ⟨hfinite, rfl⟩ := requireFinite_eq_ok_iff.1 h
      exact .literal value hfinite
    | constant id =>
      cases hvalue : lookup id with
      | none => simp [eval, hvalue] at h
      | some x =>
        have hx : x = v := by simpa [eval, hvalue] using h
        exact hx ▸ .constant id x hvalue
    | var name => exact name.elim
    | binary op left right ihleft ihright =>
      obtain ⟨a, b, hleft, hright, hop⟩ := eval_binary_eq_ok h
      obtain ⟨hadmits, rfl⟩ := BinaryOp.eval_eq_ok_iff.1 hop
      exact .binary op left right a b (ihleft hleft) (ihright hright) hadmits
  · intro h
    induction h with
    | literal value hfinite => exact requireFinite_eq_ok_iff.2 ⟨hfinite, rfl⟩
    | constant id value hvalue => simp only [eval, hvalue]
    | binary op left right a b _ _ hop ihleft ihright =>
      simp only [eval, ihleft, ihright]
      exact BinaryOp.eval_eq_ok_iff.2 ⟨hop, rfl⟩

/-- Evaluation gives a fault exactly if the formula meets it first. -/
theorem eval_eq_error_iff {e : Formula α} {fault : EvalFault α} :
    e.eval lookup = .error fault ↔ e.FailsFirst lookup fault := by
  constructor
  · intro h
    induction e with
    | literal value =>
      obtain ⟨hfinite, rfl⟩ := requireFinite_eq_error_iff.1 h
      exact .literal value hfinite
    | constant id =>
      cases hvalue : lookup id with
      | some x => simp [eval, hvalue] at h
      | none =>
        have hfault : EvalFault.unresolvedConstant id = fault := by simpa [eval, hvalue] using h
        exact hfault ▸ .constant id hvalue
    | var name => exact name.elim
    | binary op left right ihleft ihright =>
      cases hleft : left.eval lookup with
      | error fault' =>
        have hfault : fault' = fault := by simpa [eval, hleft] using h
        exact .left op left right fault (ihleft (hfault ▸ hleft))
      | ok a =>
        have ha := eval_eq_ok_iff.1 hleft
        cases hright : right.eval lookup with
        | error fault' =>
          have hfault : fault' = fault := by simpa [eval, hleft, hright] using h
          exact .right op left right a fault ha (ihright (hfault ▸ hright))
        | ok b =>
          have hop : op.eval a b = .error fault := by simpa [eval, hleft, hright] using h
          exact .operation op left right a b fault ha (eval_eq_ok_iff.1 hright)
            (BinaryOp.eval_eq_error_iff.1 hop)
  · intro h
    induction h with
    | literal value hfinite => exact requireFinite_eq_error_iff.2 ⟨hfinite, rfl⟩
    | constant id hnone => simp only [eval, hnone]
    | left op left right fault _ ih => simp only [eval, ih]
    | right op left right a fault hleft _ ih =>
      simp only [eval, eval_eq_ok_iff.2 hleft, ih]
    | operation op left right a b fault hleft hright hop =>
      simp only [eval, eval_eq_ok_iff.2 hleft, eval_eq_ok_iff.2 hright]
      exact BinaryOp.eval_eq_error_iff.2 hop

end Expr

end NamedConstants
