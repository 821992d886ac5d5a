import NamedConstants.Proofs.InsertionMap
import NamedConstants.Proofs.Linear.Text

/-!
Linear relations and their texts. The sum that a text is read as has a new variable in each
term, so linearizing it appends the coefficients one by one, each of them added to zero and
multiplied by one or minus one. The offset comes last; until then the offset of the sum is
a zero of either sign, which the last step makes positive.
-/
namespace NamedConstants

variable {lookup : ConstantId → Option Float} {resolve : String → NameBinding}

structure LinearForm.IsSumOf (form : LinearForm Float) (terms : List (Term Float)) : Prop where
  entries_eq : form.coefficients.entries = terms.map fun t => (t.name, t.coefficient)
  offset : IsSignedZero form.offset

theorem exists_linearForm_product (lookup : ConstantId → Option Float) (name : String) {x : Float}
    (hx : IsRegular x) :
    ∃ form, (Expr.binary .mul (.literal x) (.var name)).linearForm lookup = .ok form ∧
      form.IsSumOf [⟨name, x⟩] := by
  have hfinite : Arithmetic.isFinite x = true := hx.1
  refine ⟨((LinearForm.ofVariable name).scale (· * x)).reading (∅ ∪ ∅), ?_, ?_⟩
  · simp [Expr.linearForm, LinearForm.ofBinary, LinearForm.mul, LinearForm.ofNumber,
      LinearForm.ofVariable, LinearForm.factor, hfinite]
  · have hcoefficient : (Arithmetic.one : Float) * x = x := hx.one_mul
    have hoffset : IsSignedZero ((Arithmetic.zero : Float) * x) := IsSignedZero.mul (Or.inl rfl) hx
    refine ⟨?_, hoffset⟩
    simp [LinearForm.reading, LinearForm.scale, LinearForm.ofVariable, InsertionMap.singleton,
      InsertionMap.mapValues, hcoefficient]

theorem exists_linearForm_unsigned (lookup : ConstantId → Option Float) {t : Term Float}
    (ht : IsRegular t.coefficient) :
    ∃ form, t.unsigned.linearForm lookup = .ok form ∧
      form.IsSumOf [⟨t.name, t.coefficient.abs⟩] := by
  unfold Term.unsigned
  split
  · rename_i hone
    refine ⟨.ofVariable t.name, rfl, ?_, Or.inl rfl⟩
    rw [eq_one_of_beq hone]
    rfl
  · exact exists_linearForm_product lookup t.name ht.abs

theorem exists_linearForm_leading (lookup : ConstantId → Option Float) {t : Term Float}
    (ht : IsRegular t.coefficient) :
    ∃ form, t.leading.linearForm lookup = .ok form ∧ form.IsSumOf [t] := by
  have hpositive : ¬ t.coefficient < 0 → t.coefficient.abs = t.coefficient := by
    intro hnot
    obtain ⟨sign, m, q, hm, hunpack⟩ := ht.exists_unpack
    exact abs_of_not_lt_zero hunpack hnot
  unfold Term.leading
  split
  · exact exists_linearForm_product lookup t.name ht
  · rename_i hnot
    have hform := exists_linearForm_unsigned lookup ht
    rw [hpositive hnot] at hform
    exact hform

namespace Summand

def sign (s : Summand) : Float := if s.number < 0 then -1 else 1

theorem sign_eq (s : Summand) : s.sign = 1 ∨ s.sign = -1 := by
  unfold sign
  split
  · exact Or.inr rfl
  · exact Or.inl rfl

theorem linearForm_addTo {sum : Expr Float String} {s : Summand} {left right : LinearForm Float}
    (hleft : sum.linearForm lookup = .ok left) (hright : s.expr.linearForm lookup = .ok right) :
    (s.addTo sum).linearForm lookup = .ok (.combine s.sign left right) := by
  unfold addTo op sign
  split
  · simp only [Expr.linearForm, hleft, hright]
    rfl
  · simp only [Expr.linearForm, hleft, hright]
    rfl

end Summand

namespace LinearForm.IsSumOf

variable {form left right : LinearForm Float} {terms : List (Term Float)}

theorem keys_eq (h : form.IsSumOf terms) : form.coefficients.keys = terms.map Term.name := by
  rw [InsertionMap.keys, h.entries_eq, List.map_map]
  rfl

/-- A term with a new variable is appended. -/
theorem combine (h : left.IsSumOf terms) {t : Term Float} (ht : IsRegular t.coefficient)
    (hright : right.IsSumOf [⟨t.name, t.coefficient.abs⟩]) (hnew : t.name ∉ terms.map Term.name)
    {sign : Float} (hsign : sign = 1 ∨ sign = -1)
    (hvalue : sign * t.coefficient.abs = t.coefficient) :
    (LinearForm.combine sign left right).IsSumOf (terms ++ [t]) := by
  have hnone : left.coefficients.get? t.name = none := by
    rw [InsertionMap.get?_eq_none_iff, h.keys_eq]
    exact hnew
  have hgetD : left.coefficients.getD t.name Arithmetic.zero = (0 : Float) := by
    rw [InsertionMap.getD, hnone]
    rfl
  have hcoefficient : (0 : Float) + sign * t.coefficient.abs = t.coefficient := by
    rw [hvalue]
    exact IsSignedZero.add_regular (Or.inl rfl) ht
  refine ⟨?_, h.offset.add_mul hright.offset hsign⟩
  simp only [LinearForm.combine, hright.entries_eq, List.map_cons, List.map_nil, List.foldl_cons,
    List.foldl_nil, addTerm, hgetD, hcoefficient]
  rw [InsertionMap.entries_insert_of_get?_eq_none _ hnone, h.entries_eq, List.map_append]
  rfl

end LinearForm.IsSumOf

/-- Terms with new variables are appended in turn. -/
theorem exists_linearForm_foldl (places : Places) {rest terms : List (Term Float)}
    {sum : Expr Float String} {form : LinearForm Float}
    (hform : sum.linearForm lookup = .ok form) (hsum : form.IsSumOf terms)
    (hregular : ∀ t ∈ rest, IsRegular t.coefficient)
    (hnodup : ((terms ++ rest).map Term.name).Nodup) :
    ∃ form', ((rest.map (Term.summand places)).foldl Summand.addTo sum).linearForm lookup =
        .ok form' ∧ form'.IsSumOf (terms ++ rest) := by
  induction rest generalizing terms sum form with
  | nil => exact ⟨form, hform, by rwa [List.append_nil]⟩
  | cons t rest ih =>
    rw [List.forall_mem_cons] at hregular
    obtain ⟨ht, hrest⟩ := hregular
    obtain ⟨right, hright, hterm⟩ := exists_linearForm_unsigned lookup ht
    have hnew : t.name ∉ terms.map Term.name := by
      rw [List.map_append, List.map_cons] at hnodup
      intro hmem
      exact (List.nodup_append.1 hnodup).2.2 _ hmem _ List.mem_cons_self rfl
    have hnext := hsum.combine ht hterm hnew (Term.summand places t).sign_eq ht.sign_mul_abs
    have happend : terms ++ t :: rest = terms ++ [t] ++ rest := by simp
    rw [happend] at hnodup ⊢
    exact ih (Summand.linearForm_addTo (s := t.summand places) hform hright) hnext hrest hnodup

theorem nonzeroTerms_of_regular {terms : List (Term Float)}
    (h : ∀ t ∈ terms, IsRegular t.coefficient) :
    nonzeroTerms (terms.map fun t => (t.name, t.coefficient)) = .ok terms := by
  induction terms with
  | nil => rfl
  | cons t rest ih =>
    rw [List.forall_mem_cons] at h
    obtain ⟨⟨hfinite, hnonzero⟩, hrest⟩ := h
    have hfinite' : Arithmetic.isFinite t.coefficient = true := hfinite
    have hnonzero' : Arithmetic.isZero t.coefficient = false := hnonzero
    rw [List.map_cons, nonzeroTerms, ih hrest]
    simp [hfinite', hnonzero']

namespace LinearRelation.IsLegible

variable {r : LinearRelation Float}

/-- The left side has the terms of the relation, and its offset or a zero of either sign. -/
theorem exists_linearForm (h : r.IsLegible resolve) (lookup : ConstantId → Option Float)
    (places : Places) :
    ∃ form, (r.spoken places).lhs.linearForm lookup = .ok form ∧
      form.coefficients.entries = r.terms.map (fun t => (t.name, t.coefficient)) ∧
      (IsSignedZero form.offset ∧ r.offset = 0 ∨ form.offset = r.offset ∧ IsRegular r.offset) := by
  cases hterms : r.terms with
  | nil => exact absurd hterms h.terms_ne_nil
  | cons first rest =>
    have hregular : ∀ t ∈ first :: rest, IsRegular t.coefficient :=
      fun t ht => (h.terms t (hterms ▸ ht)).regular
    rw [List.forall_mem_cons] at hregular
    have hnodup : (([first] ++ rest).map Term.name).Nodup := by
      have hnodup := h.nodup
      rwa [hterms] at hnodup
    obtain ⟨start, hstart, hfirst⟩ := exists_linearForm_leading lookup hregular.1
    obtain ⟨form, hform, hsum⟩ :=
      exists_linearForm_foldl places hstart hfirst hregular.2 hnodup
    unfold spoken summands offsetSummands
    rw [hterms, List.tail_cons, List.foldl_append]
    by_cases hzero : (r.offset == 0) = true
    · have hoffset : r.offset = 0 := by
        by_contra hne
        rw [beq_zero_eq_false hne h.offset_ne] at hzero
        cases hzero
      rw [if_pos hzero]
      exact ⟨form, hform, hsum.entries_eq, Or.inl ⟨hsum.offset, hoffset⟩⟩
    · have hoffset : IsRegular r.offset := h.offset_regular (Bool.not_eq_true _ ▸ hzero)
      rw [if_neg hzero]
      refine ⟨_, Summand.linearForm_addTo hform rfl, hsum.entries_eq, Or.inr ⟨?_, hoffset⟩⟩
      have hvalue : form.offset + (if r.offset < 0 then -1 else 1) * r.offset.abs = r.offset := by
        rw [hoffset.sign_mul_abs, hsum.offset.add_regular hoffset]
      exact hvalue

theorem exists_linearize {σ : Type} (h : r.IsLegible resolve) (places : Places) (tolerance : Float)
    (lookup : ConstantId → Option Float) (strength : σ) :
    ∃ linear, (r.spoken places).linearize tolerance lookup strength = .ok linear ∧
      linear.toLinearRelation = r ∧ linear.strength = strength := by
  obtain ⟨form, hform, hentries, hcase⟩ := h.exists_linearForm lookup places
  have hoffset : form.offset + -(1 : Float) * 0 + 0 = r.offset := by
    have hnothing : IsSignedZero (-(1 : Float) * 0) := by
      unfold IsSignedZero
      decide +kernel
    rcases hcase with ⟨hzero, heq⟩ | ⟨heq, hregular⟩
    · rw [heq]
      rcases hzero with hzero | hzero <;> rw [hzero] <;> decide +kernel
    · rw [heq, hregular.add_signedZero hnothing, hregular.add_signedZero (Or.inl rfl)]
  have hreduced : (LinearForm.combine (-Arithmetic.one) form (.ofNumber 0)).offset +
      Arithmetic.zero = r.offset := hoffset
  have hterms : nonzeroTerms (LinearForm.combine (-Arithmetic.one) form
      (.ofNumber 0)).coefficients.entries = .ok r.terms := by
    have hsame : (LinearForm.combine (-Arithmetic.one) form (.ofNumber 0)).coefficients.entries =
        r.terms.map fun t => (t.name, t.coefficient) := hentries
    rw [hsame]
    exact nonzeroTerms_of_regular fun t ht => (h.terms t ht).regular
  have hfinite : Arithmetic.isFinite r.offset = true := (Bool.and_eq_true_iff.1 h.offset_integer).1
  have hrhs : (r.spoken places).rhs.linearForm lookup = .ok (.ofNumber 0) := rfl
  unfold Constraint.linearize
  simp only [hform, hrhs, hreduced, hfinite, hterms]
  cases hcons : r.terms with
  | nil => exact absurd hcons h.terms_ne_nil
  | cons first rest =>
    refine ⟨_, rfl, ?_, rfl⟩
    rw [← hcons]
    rfl

end LinearRelation.IsLegible

/-- A linear constraint is found again in its own text. The text is parsed, bound with the
names as variables, and linearized with the same strength; whatever the tolerance and the
values of the constants are, this gives the same terms in the same order, the same offset
and the same relation. -/
theorem linearize_parse_format {σ : Type} (linear : LinearConstraint Float σ)
    (resolve : String → NameBinding) (h : linear.toLinearRelation.IsLegible resolve)
    (places : Int) (tolerance : Float) (lookup : ConstantId → Option Float) :
    ∃ text, withPlaces places linear.numbers (fun p => linear.format p) = .ok text ∧
      ∃ tree definition, SourceRelation.parse text = .ok tree ∧
        tree.bind resolve = .ok definition ∧
        ∃ again, definition.linearize tolerance lookup linear.strength = .ok again ∧
          again.toLinearRelation = linear.toLinearRelation ∧ again.strength = linear.strength := by
  have hintegers : ∀ x ∈ linear.numbers, isIntegral x = true := by
    unfold LinearRelation.numbers
    rw [List.forall_mem_cons, List.forall_mem_map]
    exact ⟨h.offset_integer, fun t ht => (h.terms t ht).integer⟩
  obtain ⟨supported, hplaces⟩ := withPlaces_of_integers places hintegers fun p => linear.format p
  obtain ⟨tree, hparse, hbind⟩ := h.exists_spoken_tree supported
  exact ⟨_, hplaces, tree, _, hparse, hbind, h.exists_linearize supported tolerance lookup _⟩

def signedSample : LinearConstraint Float Nat where
  terms := [⟨"x", -3⟩, ⟨"y", 1⟩, ⟨"z", -1⟩]
  offset := 5
  relation := .atMost
  strength := 1
  constants := ∅
  definition := ⟨.literal 0, .atMost, .literal 0⟩

theorem readsBack_of_digit {x : Float} {digit : Char} (htext : (numberText x).toList = [digit])
    (hdigit : digit ≠ '-')
    (hvalue : ∀ v, Token.scanNumber [digit] = (.number v, [digit]) → v.toFloat = x) :
    ReadsBack x := by
  refine readsBack_of_scanNumber htext hvalue ?_
  rintro v word ⟨⟩ -
  exact absurd rfl hdigit

theorem isLegible_signedSample :
    signedSample.toLinearRelation.IsLegible fun name => .decision name := by
  have hback (x : Float) (hx : x = 1 ∨ x = 3 ∨ x = 5) : ReadsBack x := by
    rcases hx with rfl | rfl | rfl
    · have htext : (numberText 1).toList = ['1'] := by decide +kernel
      exact readsBack_of_digit htext (by decide) fun v hscan => by
        cases hscan
        decide +kernel
    · have htext : (numberText 3).toList = ['3'] := by decide +kernel
      exact readsBack_of_digit htext (by decide) fun v hscan => by
        cases hscan
        decide +kernel
    · have htext : (numberText 5).toList = ['5'] := by decide +kernel
      exact readsBack_of_digit htext (by decide) fun v hscan => by
        cases hscan
        decide +kernel
  have hname (first : Char) (h : Token.isNameStart first = true) : Token.IsName [first] :=
    ⟨h, List.forall_mem_nil _⟩
  have hterm (t : Term Float)
      (ht : t = ⟨"x", -3⟩ ∨ t = ⟨"y", 1⟩ ∨ t = ⟨"z", -1⟩) :
      t.IsLegible fun name => .decision name := by
    rcases ht with rfl | rfl | rfl
    · exact ⟨hname 'x' rfl, rfl, ⟨by decide +kernel, by decide +kernel⟩, by decide +kernel,
        hback _ (by decide +kernel)⟩
    · exact ⟨hname 'y' rfl, rfl, ⟨by decide +kernel, by decide +kernel⟩, by decide +kernel,
        hback _ (by decide +kernel)⟩
    · exact ⟨hname 'z' rfl, rfl, ⟨by decide +kernel, by decide +kernel⟩, by decide +kernel,
        hback _ (by decide +kernel)⟩
  exact
    { terms_ne_nil := List.cons_ne_nil _ _
      nodup := by decide
      terms := fun t ht => hterm t (by simpa [signedSample] using ht)
      offset_integer := by decide +kernel
      offset_ne := by decide +kernel
      offset_readsBack := fun _ => hback _ (by decide +kernel) }

theorem linearize_parse_format_signed :
    signedSample.toLinearRelation.IsLegible (fun name => .decision name) ∧
      ∃ text, withPlaces 4 signedSample.numbers (fun p => signedSample.format p) = .ok text ∧
        ∃ tree definition, SourceRelation.parse text = .ok tree ∧
          tree.bind (fun name => .decision name) = .ok definition ∧
          ∃ again, definition.linearize defaultTolerance (fun _ => none) 1 = .ok again ∧
            again.toLinearRelation = signedSample.toLinearRelation ∧ again.strength = 1 :=
  ⟨isLegible_signedSample,
    linearize_parse_format signedSample _ isLegible_signedSample 4 defaultTolerance _⟩

example : signedSample.format .standard = "-3 * x + y - z + 5 <= 0" := by decide +kernel

end NamedConstants
