import Mathlib.Algebra.Order.Field.Rat
import Mathlib.Logic.Relation
import Mathlib.Tactic.Ring
import NamedConstants.Expr.Eval

/-!
Grouping to the left. Under a sum or a product, a right operand of equal precedence can be
rotated: its left operand joins the tree before it. A tree is grouped to the left when no
rotation is left. Every tree has one such form, which rotations lead to in any order, and
in exact arithmetic no rotation makes a difference.
-/
namespace NamedConstants

/-- A right operand under this operator can be rotated if it has that operator at its top. -/
def BinaryOp.Regroups (op inner : BinaryOp) : Prop :=
  (op = .add ∨ op = .mul) ∧ inner.precedence = op.precedence

instance (op inner : BinaryOp) : Decidable (op.Regroups inner) :=
  inferInstanceAs (Decidable (_ ∧ _))

theorem BinaryOp.Regroups.trans {op inner innermost : BinaryOp} (h : op.Regroups inner)
    (h' : inner.Regroups innermost) : op.Regroups innermost := ⟨h.1, h'.2.trans h.2⟩

theorem BinaryOp.Regroups.cases {op inner : BinaryOp} (h : op.Regroups inner) :
    (op = .add ∧ (inner = .add ∨ inner = .sub)) ∨ (op = .mul ∧ (inner = .mul ∨ inner = .div)) := by
  revert h
  cases op <;> cases inner <;> decide

namespace Expr

variable {α β ν : Type}

def RegroupsUnder (op : BinaryOp) : Expr α ν → Prop
  | binary inner _ _ => op.Regroups inner
  | _ => False

/-- One right operand of equal precedence is rotated to the left. -/
inductive Rotates : Expr α ν → Expr α ν → Prop where
  | rotate {op inner : BinaryOp} (h : op.Regroups inner) (a b c : Expr α ν) :
      Rotates (binary op a (binary inner b c)) (binary inner (binary op a b) c)
  | left {l l' : Expr α ν} (op : BinaryOp) (r : Expr α ν) (h : Rotates l l') :
      Rotates (binary op l r) (binary op l' r)
  | right {r r' : Expr α ν} (op : BinaryOp) (l : Expr α ν) (h : Rotates r r') :
      Rotates (binary op l r) (binary op l r')

abbrev RotatesTo : Expr α ν → Expr α ν → Prop := Relation.ReflTransGen Rotates

def IsLeftGrouped (e : Expr α ν) : Prop := ∀ e', ¬ Rotates e e'

/-- Applies an operator, with all rotations of the right operand that this allows. -/
def graft (op : BinaryOp) (left : Expr α ν) : Expr α ν → Expr α ν
  | binary inner b c =>
    if op.Regroups inner then binary inner (graft op left b) c
    else binary op left (binary inner b c)
  | right => binary op left right

def leftGrouped : Expr α ν → Expr α ν
  | binary op left right => graft op left.leftGrouped right.leftGrouped
  | e => e

theorem graft_of_regroups {op inner : BinaryOp} (h : op.Regroups inner) (a b c : Expr α ν) :
    graft op a (binary inner b c) = binary inner (graft op a b) c := if_pos h

theorem graft_of_not_regroups {op inner : BinaryOp} (h : ¬ op.Regroups inner)
    (a b c : Expr α ν) : graft op a (binary inner b c) = binary op a (binary inner b c) := if_neg h

theorem graft_of_not_regroupsUnder {op : BinaryOp} {right : Expr α ν}
    (h : ¬ right.RegroupsUnder op) (left : Expr α ν) :
    graft op left right = binary op left right := by
  cases right with
  | binary inner b c => exact graft_of_not_regroups h left b c
  | _ => rfl

/-- Grafting is associative where rotating is allowed. -/
theorem graft_graft {op inner : BinaryOp} (h : op.Regroups inner) (a b c : Expr α ν) :
    graft op a (graft inner b c) = graft inner (graft op a b) c := by
  induction c with
  | binary innermost x y ihx ihy =>
    by_cases hinner : inner.Regroups innermost
    · rw [graft_of_regroups hinner, graft_of_regroups hinner, graft_of_regroups (h.trans hinner),
        ihx]
    · rw [graft_of_not_regroups hinner, graft_of_not_regroups hinner, graft_of_regroups h]
  | _ => exact graft_of_regroups h a b _

/-- Rotating does not change what a tree is grouped to. -/
theorem Rotates.leftGrouped_eq {e e' : Expr α ν} (h : Rotates e e') :
    e.leftGrouped = e'.leftGrouped := by
  induction h with
  | rotate h a b c => exact graft_graft h a.leftGrouped b.leftGrouped c.leftGrouped
  | left op r h ih => exact congrArg (graft op · r.leftGrouped) ih
  | right op l h ih => exact congrArg (graft op l.leftGrouped) ih

theorem isLeftGrouped_binary_iff {op : BinaryOp} {l r : Expr α ν} :
    (binary op l r).IsLeftGrouped ↔
      l.IsLeftGrouped ∧ r.IsLeftGrouped ∧ ¬ r.RegroupsUnder op := by
  constructor
  · intro h
    refine ⟨fun l' hl => h _ (.left op r hl), fun r' hr => h _ (.right op l hr), ?_⟩
    intro hregroups
    cases r with
    | binary inner b c => exact h _ (.rotate hregroups l b c)
    | _ => exact hregroups
  · rintro ⟨hl, hr, hnot⟩ e' h
    cases h with
    | rotate hregroups a b c => exact hnot hregroups
    | left op r h => exact hl _ h
    | right op l h => exact hr _ h

theorem isLeftGrouped_graft (op : BinaryOp) {l r : Expr α ν} (hl : l.IsLeftGrouped)
    (hr : r.IsLeftGrouped) : (graft op l r).IsLeftGrouped := by
  induction r with
  | binary inner b c ihb ihc =>
    by_cases hregroups : op.Regroups inner
    · obtain ⟨hb, hc, hnot⟩ := isLeftGrouped_binary_iff.1 hr
      rw [graft_of_regroups hregroups]
      exact isLeftGrouped_binary_iff.2 ⟨ihb hb, hc, hnot⟩
    · rw [graft_of_not_regroups hregroups]
      exact isLeftGrouped_binary_iff.2 ⟨hl, hr, hregroups⟩
  | _ => exact isLeftGrouped_binary_iff.2 ⟨hl, hr, id⟩

theorem isLeftGrouped_leftGrouped (e : Expr α ν) : e.leftGrouped.IsLeftGrouped := by
  induction e with
  | binary op l r ihl ihr => exact isLeftGrouped_graft op ihl ihr
  | _ =>
    intro e' h
    cases h

/-- A tree that is grouped to the left already stays as it is. -/
theorem leftGrouped_eq_self {e : Expr α ν} (h : e.IsLeftGrouped) : e.leftGrouped = e := by
  induction e with
  | binary op l r ihl ihr =>
    obtain ⟨hl, hr, hnot⟩ := isLeftGrouped_binary_iff.1 h
    rw [leftGrouped, ihl hl, ihr hr]
    exact graft_of_not_regroupsUnder hnot l
  | _ => rfl

/-- Grouping keeps the precedence of the operator at the top. -/
theorem regroupsUnder_leftGrouped_iff {op : BinaryOp} {e : Expr α ν} :
    e.leftGrouped.RegroupsUnder op ↔ e.RegroupsUnder op := by
  cases e with
  | binary inner l r =>
    change (graft inner l.leftGrouped r.leftGrouped).RegroupsUnder op ↔ op.Regroups inner
    cases r.leftGrouped with
    | binary innermost b c =>
      by_cases h : inner.Regroups innermost
      · rw [graft_of_regroups h]
        change op.Regroups innermost ↔ op.Regroups inner
        rw [BinaryOp.Regroups, BinaryOp.Regroups, h.2]
      · rw [graft_of_not_regroups h]
        rfl
    | _ => rfl
  | _ => rfl

theorem RotatesTo.left (op : BinaryOp) (r : Expr α ν) {l l' : Expr α ν}
    (h : RotatesTo l l') : RotatesTo (binary op l r) (binary op l' r) :=
  h.lift (binary op · r) fun _ _ hstep => .left op r hstep

theorem RotatesTo.right (op : BinaryOp) (l : Expr α ν) {r r' : Expr α ν}
    (h : RotatesTo r r') : RotatesTo (binary op l r) (binary op l r') :=
  h.lift (binary op l) fun _ _ hstep => .right op l hstep

theorem rotatesTo_graft (op : BinaryOp) (l r : Expr α ν) :
    RotatesTo (binary op l r) (graft op l r) := by
  induction r with
  | binary inner b c ihb ihc =>
    by_cases h : op.Regroups inner
    · rw [graft_of_regroups h]
      exact (Relation.ReflTransGen.single (.rotate h l b c)).trans (ihb.left inner c)
    · rw [graft_of_not_regroups h]
  | _ => exact .refl

/-- Rotations lead from a tree to its grouped form. -/
theorem rotatesTo_leftGrouped (e : Expr α ν) : RotatesTo e e.leftGrouped := by
  induction e with
  | binary op l r ihl ihr =>
    exact ((ihl.left op r).trans (ihr.right op l.leftGrouped)).trans (rotatesTo_graft op _ _)
  | _ => exact .refl

/-- The grouped form is what rotations lead to when none is left. -/
theorem eq_leftGrouped_iff {e e' : Expr α ν} :
    e' = e.leftGrouped ↔ RotatesTo e e' ∧ e'.IsLeftGrouped := by
  constructor
  · rintro rfl
    exact ⟨rotatesTo_leftGrouped e, isLeftGrouped_leftGrouped e⟩
  · rintro ⟨h, hgrouped⟩
    have hsame : e.leftGrouped = e'.leftGrouped := by
      clear hgrouped
      induction h with
      | refl => rfl
      | tail _ hstep ih => exact ih.trans hstep.leftGrouped_eq
    rw [hsame, leftGrouped_eq_self hgrouped]

def mapLiterals (f : α → β) : Expr α ν → Expr β ν
  | literal value => literal (f value)
  | constant id => constant id
  | var name => var name
  | binary op left right => binary op (left.mapLiterals f) (right.mapLiterals f)

def exactValue (number : α → Rat) (lookup : ConstantId → Option Rat) (value : ν → Rat)
    (e : Expr α ν) : Except (EvalFault Rat) Rat :=
  ((e.mapLiterals number).assign value).eval lookup

/-- Sums and products of rational numbers always have a value. -/
theorem eval_of_regroups {op inner : BinaryOp} (h : op.Regroups inner) (x y : Rat) :
    op.eval x y = .ok (op.apply x y) := by
  rcases h.1 with rfl | rfl <;> rfl

theorem eval_apply {op inner : BinaryOp} (h : op.Regroups inner) (x y z : Rat) :
    inner.eval (op.apply x y) z = (inner.eval y z).bind fun w => op.eval x w := by
  rcases h.cases with ⟨rfl, rfl | rfl⟩ | ⟨rfl, rfl | rfl⟩
  · exact congrArg Except.ok (add_assoc x y z)
  · exact congrArg Except.ok (add_sub_assoc x y z)
  · exact congrArg Except.ok (mul_assoc x y z)
  · by_cases hz : Arithmetic.isZero z = true
    · have hdivide (w : Rat) : BinaryOp.div.eval w z = .error .divideByZero := if_pos ⟨rfl, hz⟩
      rw [hdivide, hdivide]
      rfl
    · have hdivide (w : Rat) : BinaryOp.div.eval w z = .ok (w / z) := if_neg (by simp [hz])
      rw [hdivide, hdivide]
      exact congrArg Except.ok (mul_div_assoc x y z)

theorem eval_rotate {op inner : BinaryOp} (h : op.Regroups inner)
    (lookup : ConstantId → Option Rat) (a b c : Formula Rat) :
    (binary inner (binary op a b) c).eval lookup =
      (binary op a (binary inner b c)).eval lookup := by
  simp only [eval]
  cases a.eval lookup with
  | error fault => rfl
  | ok x =>
    cases b.eval lookup with
    | error fault => rfl
    | ok y =>
      dsimp only
      rw [eval_of_regroups h]
      cases c.eval lookup with
      | error fault => rfl
      | ok z =>
        dsimp only
        rw [eval_apply h]
        cases inner.eval y z with
        | error fault => rfl
        | ok w => rfl

/-- In exact arithmetic a rotation changes neither the value nor the failure. -/
theorem Rotates.exactValue_eq {e e' : Expr α ν} (h : Rotates e e') (number : α → Rat)
    (lookup : ConstantId → Option Rat) (value : ν → Rat) :
    e'.exactValue number lookup value = e.exactValue number lookup value := by
  induction h with
  | rotate h a b c => exact eval_rotate h lookup _ _ _
  | left op r h ih =>
    unfold exactValue at ih ⊢
    simp only [mapLiterals, assign, bind, eval] at ih ⊢
    rw [ih]
  | right op l h ih =>
    unfold exactValue at ih ⊢
    simp only [mapLiterals, assign, bind, eval] at ih ⊢
    rw [ih]

theorem RotatesTo.exactValue_eq {e e' : Expr α ν} (h : RotatesTo e e')
    (number : α → Rat) (lookup : ConstantId → Option Rat) (value : ν → Rat) :
    e'.exactValue number lookup value = e.exactValue number lookup value := by
  induction h with
  | refl => rfl
  | tail _ hstep ih => exact (hstep.exactValue_eq number lookup value).trans ih

end Expr

end NamedConstants
