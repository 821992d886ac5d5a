import Mathlib.Algebra.Order.Field.Rat
import Mathlib.Tactic.Linarith
import Mathlib.Tactic.Ring
import NamedConstants.Expr.Eval
import NamedConstants.Proofs.Linear.Outcome

/-!
What a linear form says, in exact arithmetic. A form has a value when its variables
have values, and this is the value of the expression that it was made from. Sums,
differences and multiples of forms have the values that their names promise; a product
or a quotient is scaled by a form without terms, whose value is its offset. Zero terms
can be dropped because they add nothing.
-/
namespace NamedConstants

def termSum (value : String → Rat) (entries : List (String × Rat)) : Rat :=
  (entries.map fun entry => entry.2 * value entry.1).sum

def LinearRelation.valueAt (r : LinearRelation Rat) (value : String → Rat) : Rat :=
  (r.terms.map fun term => term.coefficient * value term.name).sum + r.offset

/-- The relation between two numbers, with some slack. -/
def Relation.HoldsWithin (tolerance a b : Rat) : Relation → Prop
  | equal => |a - b| ≤ tolerance
  | atMost => a ≤ b + tolerance
  | atLeast => b ≤ a + tolerance

section TermSum

variable (value : String → Rat)

@[simp] theorem termSum_nil : termSum value [] = 0 := rfl

@[simp] theorem termSum_cons (name : String) (coefficient : Rat) (rest : List (String × Rat)) :
    termSum value ((name, coefficient) :: rest) =
      coefficient * value name + termSum value rest := by
  simp [termSum]

theorem termSum_append (first second : List (String × Rat)) :
    termSum value (first ++ second) = termSum value first + termSum value second := by
  simp [termSum]

/-- Overwriting the entry of one key changes the sum by the difference of the coefficients. -/
theorem termSum_overwrite {name : String} {old new : Rat} {entries : List (String × Rat)}
    (hnodup : (entries.map Prod.fst).Nodup) (hold : entries.lookup name = some old) :
    termSum value (entries.map fun entry => if entry.1 = name then (entry.1, new) else entry) =
      termSum value entries + (new - old) * value name := by
  induction entries with
  | nil => cases hold
  | cons entry rest ih =>
    obtain ⟨key, coefficient⟩ := entry
    rw [List.map_cons, List.nodup_cons] at hnodup
    obtain ⟨hkey, hrest⟩ := hnodup
    rw [List.lookup_cons] at hold
    by_cases h : key = name
    · subst h
      have hcoefficient : coefficient = old := by simpa using hold
      have hsame : (rest.map fun entry => if entry.1 = key then (entry.1, new) else entry) =
          rest := by
        apply (List.map_congr_left ?_).trans (List.map_id rest)
        intro entry hentry
        have hne : entry.1 ≠ key := by
          rintro rfl
          exact hkey (List.mem_map.2 ⟨entry, hentry, rfl⟩)
        rw [if_neg hne, id]
      rw [List.map_cons, if_pos rfl, hsame, termSum_cons, termSum_cons, hcoefficient]
      ring
    · have hne : (name == key) = false := beq_eq_false_iff_ne.2 (Ne.symm h)
      rw [hne] at hold
      rw [List.map_cons, if_neg h, termSum_cons, termSum_cons, ih hrest hold]
      ring

/-- Writing a coefficient replaces what the variable had contributed. -/
theorem termSum_insert (m : InsertionMap String Rat) (name : String) (new : Rat) :
    termSum value (m.insert name new).entries =
      termSum value m.entries + (new - m.getD name 0) * value name := by
  by_cases h : name ∈ m.entries.map Prod.fst
  · obtain ⟨old, hold⟩ : ∃ old, m.get? name = some old := by
      rw [← Option.ne_none_iff_exists']
      exact mt InsertionMap.get?_eq_none_iff.1 (not_not_intro h)
    rw [InsertionMap.getD, hold, Option.getD_some, ← termSum_overwrite value m.nodup hold]
    simp only [InsertionMap.insert, dif_pos h]
  · have hnone : m.get? name = none := InsertionMap.get?_eq_none_iff.2 h
    rw [InsertionMap.getD, hnone, Option.getD_none]
    simp only [InsertionMap.insert, dif_neg h, termSum_append, termSum_cons, termSum_nil]
    ring

theorem termSum_addTerm (sign : Rat) (m : InsertionMap String Rat) (term : String × Rat) :
    termSum value (LinearForm.addTerm sign m term).entries =
      termSum value m.entries + sign * (term.2 * value term.1) := by
  rw [LinearForm.addTerm, termSum_insert]
  change _ + (m.getD term.1 0 + sign * term.2 - m.getD term.1 0) * value term.1 = _
  ring

theorem termSum_foldl_addTerm (sign : Rat) (terms : List (String × Rat))
    (m : InsertionMap String Rat) :
    termSum value (terms.foldl (LinearForm.addTerm sign) m).entries =
      termSum value m.entries + sign * termSum value terms := by
  induction terms generalizing m with
  | nil => simp
  | cons term rest ih =>
    obtain ⟨name, coefficient⟩ := term
    rw [List.foldl_cons, ih, termSum_addTerm, termSum_cons]
    ring

theorem termSum_map_mul (k : Rat) (entries : List (String × Rat)) :
    termSum value (entries.map fun entry => (entry.1, entry.2 * k)) =
      termSum value entries * k := by
  induction entries with
  | nil => simp
  | cons entry rest ih =>
    obtain ⟨name, coefficient⟩ := entry
    rw [List.map_cons, termSum_cons, termSum_cons, ih]
    ring

/-- The terms that are kept add up to what all of them do. -/
theorem sum_nonzeroTerms {entries : List (String × Rat)} {terms : List (Term Rat)}
    (h : nonzeroTerms entries = .ok terms) :
    (terms.map fun term => term.coefficient * value term.name).sum = termSum value entries := by
  induction entries generalizing terms with
  | nil =>
    cases h
    rfl
  | cons entry rest ih =>
    obtain ⟨name, coefficient⟩ := entry
    have hfinite : Arithmetic.isFinite coefficient = true := rfl
    simp only [nonzeroTerms, hfinite, Bool.not_true, Bool.false_eq_true, if_false] at h
    cases hrest : nonzeroTerms rest with
    | error fault => rw [hrest] at h; cases h
    | ok kept =>
      simp only [hrest] at h
      rw [termSum_cons, ← ih hrest]
      split at h
      · rename_i hzero
        have hcoefficient : coefficient = 0 := Rat.zero_of_num_zero (beq_iff_eq.1 hzero)
        cases h
        rw [hcoefficient]
        ring
      · cases h
        rw [List.map_cons, List.sum_cons]

end TermSum

namespace LinearForm

def valueAt (form : LinearForm Rat) (value : String → Rat) : Rat :=
  termSum value form.coefficients.entries + form.offset

def Plain {α : Type} (form : LinearForm α) : Prop :=
  form.hasVariable = false → form.coefficients.entries = []

variable (value : String → Rat) {left right form : LinearForm Rat}

theorem Plain.valueAt_eq (h : form.Plain) (hvariable : form.hasVariable = false) :
    form.valueAt value = form.offset := by
  rw [valueAt, h hvariable, termSum_nil, zero_add]

theorem valueAt_combine (sign : Rat) :
    (combine sign left right).valueAt value =
      left.valueAt value + sign * right.valueAt value := by
  change termSum value (right.coefficients.entries.foldl (addTerm sign) left.coefficients).entries +
    (left.offset + sign * right.offset) = _
  rw [termSum_foldl_addTerm, valueAt, valueAt]
  ring

theorem valueAt_scale {f : Rat → Rat} {k : Rat} (hf : ∀ x, f x = x * k)
    (constants : InsertionSet ConstantId) :
    ((form.scale f).reading constants).valueAt value = form.valueAt value * k := by
  obtain rfl : f = fun x => x * k := funext hf
  change termSum value (form.coefficients.entries.map fun entry => (entry.1, entry.2 * k)) +
    form.offset * k = _
  rw [termSum_map_mul, valueAt]
  ring

/-- Operations on forms are operations on their values, whichever operand is the factor. -/
theorem eval_ofBinary {op : BinaryOp} (hleft : left.Plain) (hright : right.Plain)
    (h : ofBinary op left right = .ok form) :
    op.eval (left.valueAt value) (right.valueAt value) = .ok (form.valueAt value) := by
  have hcombines := combines_ofBinary op left right
  rw [h] at hcombines
  cases hcombines with
  | sum =>
    rw [valueAt_combine]
    change Except.ok _ = Except.ok (_ + 1 * _)
    rw [one_mul]
    rfl
  | difference =>
    rw [valueAt_combine]
    change Except.ok _ = Except.ok (_ + -1 * _)
    rw [neg_one_mul, ← sub_eq_add_neg]
    rfl
  | scaledLeft hl hr hfinite =>
    rw [valueAt_scale value (fun x => rfl), ← hright.valueAt_eq value hr]
    rfl
  | scaledRight hl hfinite =>
    rw [valueAt_scale value (fun x => rfl), ← hleft.valueAt_eq value hl, mul_comm]
    rfl
  | quotient hr hfinite hzero =>
    rw [valueAt_scale value (fun x => div_eq_mul_inv x right.offset), ← div_eq_mul_inv]
    rw [← hright.valueAt_eq value hr] at hzero ⊢
    rw [BinaryOp.eval, hzero]
    rfl

theorem plain_combine (sign : Rat) (hleft : left.Plain) (hright : right.Plain) :
    (combine sign left right).Plain := by
  intro hvariable
  obtain ⟨hl, hr⟩ : left.hasVariable = false ∧ right.hasVariable = false := by
    simpa [combine] using hvariable
  change (right.coefficients.entries.foldl (addTerm sign) left.coefficients).entries = []
  rw [hright hr]
  exact hleft hl

theorem Plain.scale (h : form.Plain) (f : Rat → Rat) (constants : InsertionSet ConstantId) :
    ((form.scale f).reading constants).Plain := by
  intro hvariable
  change form.coefficients.entries.map (fun entry => (entry.1, f entry.2)) = []
  rw [h hvariable, List.map_nil]

theorem plain_ofBinary {op : BinaryOp} (hleft : left.Plain) (hright : right.Plain)
    (h : ofBinary op left right = .ok form) : form.Plain := by
  have hcombines := combines_ofBinary op left right
  rw [h] at hcombines
  cases hcombines with
  | sum | difference => exact plain_combine _ hleft hright
  | scaledLeft | quotient => exact hleft.scale _ _
  | scaledRight => exact hright.scale _ _

end LinearForm

namespace Expr

variable {lookup : ConstantId → Option Rat}

theorem linearForm_plain {e : Expr Rat String} {form : LinearForm Rat}
    (h : e.linearForm lookup = .ok form) : form.Plain := by
  induction e generalizing form with
  | literal value =>
    cases h
    exact fun _ => rfl
  | constant id =>
    cases hvalue : lookup id with
    | none => simp [linearForm, hvalue] at h
    | some value =>
      simp only [linearForm, hvalue, Except.ok.injEq] at h
      subst h
      exact fun _ => rfl
  | var name =>
    cases h
    exact fun hvariable => by cases hvariable
  | binary op left right ihleft ihright =>
    obtain ⟨l, r, hl, hr, hop⟩ := linearForm_binary_eq_ok h
    exact LinearForm.plain_ofBinary (ihleft hl) (ihright hr) hop

/-- An expression with a linear form has a value wherever its variables have values, and
it is the value of the form. -/
theorem eval_assign_of_linearForm {e : Expr Rat String} {form : LinearForm Rat}
    (h : e.linearForm lookup = .ok form) (value : String → Rat) :
    (e.assign value).eval lookup = .ok (form.valueAt value) := by
  induction e generalizing form with
  | literal x =>
    cases h
    change Except.ok x = Except.ok (0 + x)
    rw [zero_add]
  | constant id =>
    cases hvalue : lookup id with
    | none => simp [linearForm, hvalue] at h
    | some x =>
      simp only [linearForm, hvalue, Except.ok.injEq] at h
      subst h
      change (constant id : Formula Rat).eval lookup = Except.ok (0 + x)
      rw [eval, hvalue, zero_add]
  | var name =>
    cases h
    change Except.ok (value name) = Except.ok (1 * value name + 0 + 0)
    rw [one_mul, add_zero, add_zero]
  | binary op left right ihleft ihright =>
    obtain ⟨l, r, hl, hr, hop⟩ := linearForm_binary_eq_ok h
    have hvalue := LinearForm.eval_ofBinary value (linearForm_plain hl) (linearForm_plain hr) hop
    change (binary op (left.assign value) (right.assign value)).eval lookup = _
    rw [eval, ihleft hl, ihright hr]
    exact hvalue

end Expr

namespace Relation

/-- The test on the difference of two numbers is the relation between them. -/
theorem holds_iff {relation : Relation} {tolerance a b : Rat} :
    relation.holds tolerance (a - b) = true ↔ relation.HoldsWithin tolerance a b := by
  have hatMost : ∀ x y : Rat, Arithmetic.atMost x y = true ↔ x ≤ y := by
    intro x y
    change (!Rat.blt y x) = true ↔ Rat.blt y x = false
    rw [Bool.not_eq_true']
  cases relation with
  | equal =>
    change (Arithmetic.atMost (a - b) tolerance && Arithmetic.atMost (-tolerance) (a - b)) = true ↔
      |a - b| ≤ tolerance
    rw [Bool.and_eq_true, hatMost, hatMost, abs_le, and_comm]
  | atMost =>
    change Arithmetic.atMost (a - b) tolerance = true ↔ a ≤ b + tolerance
    rw [hatMost, sub_le_iff_le_add']
  | atLeast =>
    change Arithmetic.atMost (-tolerance) (a - b) = true ↔ b ≤ a + tolerance
    rw [hatMost]
    constructor <;> intro h <;> linarith

end Relation

namespace Constraint

variable {σ : Type} {lookup : ConstantId → Option Rat} {c : Constraint Rat}

def SideValues (c : Constraint Rat) (lookup : ConstantId → Option Rat) (value : String → Rat)
    (a b : Rat) : Prop :=
  (c.lhs.assign value).eval lookup = .ok a ∧ (c.rhs.assign value).eval lookup = .ok b

/-- Moving everything to the left side gives the difference of the sides. -/
theorem exists_sideValues {l r : LinearForm Rat} {terms : List (Term Rat)}
    (hl : c.lhs.linearForm lookup = .ok l) (hr : c.rhs.linearForm lookup = .ok r)
    (hterms : nonzeroTerms (l.difference r).coefficients.entries = .ok terms)
    (value : String → Rat) :
    ∃ a b, c.SideValues lookup value a b ∧
      a - b = (terms.map fun term => term.coefficient * value term.name).sum +
        ((l.difference r).offset + Arithmetic.zero) := by
  refine ⟨l.valueAt value, r.valueAt value,
    ⟨Expr.eval_assign_of_linearForm hl value, Expr.eval_assign_of_linearForm hr value⟩, ?_⟩
  have hvalue : (l.difference r).valueAt value = l.valueAt value + -1 * r.valueAt value :=
    LinearForm.valueAt_combine value (-Arithmetic.one)
  have hzero : (l.difference r).offset + Arithmetic.zero = (l.difference r).offset :=
    add_zero _
  rw [sum_nonzeroTerms value hterms, hzero, sub_eq_add_neg, ← neg_one_mul, ← hvalue]
  rfl

/-- In exact arithmetic a linearized constraint says what the constraint says. Where
there are terms, they and the offset add up to the left side minus the right side for
all values of the variables. Where there are none, the offset is that difference for all
values, and the constraint holds for all of them or fails for all of them, within the
tolerance. -/
theorem linearize_exact (tolerance : Rat) (lookup : ConstantId → Option Rat) (strength : σ)
    (c : Constraint Rat) (value : String → Rat) :
    (∀ linear, c.linearize tolerance lookup strength = .ok linear →
      ∃ a b, c.SideValues lookup value a b ∧ a - b = linear.valueAt value) ∧
    (∀ offset, c.linearize tolerance lookup strength = .error (.noVariables offset) →
      ∃ a b, c.SideValues lookup value a b ∧ a - b = offset ∧
        c.relation.HoldsWithin tolerance a b) ∧
    ∀ offset relation,
      c.linearize tolerance lookup strength = .error (.triviallyUnsatisfiable offset relation) →
      relation = c.relation ∧ ∃ a b, c.SideValues lookup value a b ∧ a - b = offset ∧
        ¬ relation.HoldsWithin tolerance a b := by
  have houtcome := outcome_linearize tolerance lookup strength c
  refine ⟨?_, ?_, ?_⟩
  · intro linear h
    rw [h] at houtcome
    cases houtcome with
    | linear l r terms hl hr hterms hne => exact exists_sideValues hl hr hterms value
  · intro offset h
    rw [h] at houtcome
    cases houtcome with
    | refused fault hfault => exact hfault.elim
    | satisfied l r hl hr hterms hholds =>
      obtain ⟨a, b, hsides, hdifference⟩ := exists_sideValues hl hr hterms value
      rw [List.map_nil, List.sum_nil, zero_add] at hdifference
      rw [← hdifference, Relation.holds_iff] at hholds
      exact ⟨a, b, hsides, hdifference, hholds⟩
  · intro offset relation h
    rw [h] at houtcome
    cases houtcome with
    | refused fault hfault => exact hfault.elim
    | unsatisfiable l r hl hr hterms hholds =>
      obtain ⟨a, b, hsides, hdifference⟩ := exists_sideValues hl hr hterms value
      rw [List.map_nil, List.sum_nil, zero_add] at hdifference
      rw [← hdifference, Bool.eq_false_iff, Ne, Relation.holds_iff] at hholds
      exact ⟨rfl, a, b, hsides, hdifference, hholds⟩

end Constraint

end NamedConstants
