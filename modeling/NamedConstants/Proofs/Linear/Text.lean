import NamedConstants.Linear.Render
import NamedConstants.Proofs.Decimal.Signs
import NamedConstants.Proofs.Source.RoundTrip

/-!
What the text of a linear relation is read as. The signs between the terms are read as the
operators of a sum, and the sign in front of the first term as part of that term: of its
number if it is written with one, and as a factor of its own if it is not.
-/
namespace NamedConstants

open Token

/-- The absolute value of an integer is written as a numeral, which is read back. -/
theorem exists_isNumeral_formatNumber {x : Float} (places : Places) (hx : IsRegular x)
    (hintegral : isIntegral x = true) (hback : ReadsBack x.abs) :
    ∃ v, IsNumeral v (formatNumber places x.abs).toList ∧ v.toFloat.isFinite = true ∧
      v.toFloat = x.abs := by
  have htext : formatNumber places x.abs = numberText x.abs := by
    rw [formatNumber, hx.isIntegral_abs hintegral]
    rfl
  obtain ⟨v, word, hnumeral, hword⟩ := toList_numberText hx.abs.1 hx.abs.2
  rw [hx.isNegative_abs, if_neg Bool.false_ne_true] at hword
  have hvalue := (hback v word hnumeral).1 hword
  rw [htext, hword]
  exact ⟨v, hnumeral, by rw [hvalue]; exact hx.abs.1, hvalue⟩

def Term.unsigned (t : Term Float) : Expr Float String :=
  if t.coefficient.abs == 1 then .var t.name
  else .binary .mul (.literal t.coefficient.abs) (.var t.name)

def Term.leading (t : Term Float) : Expr Float String :=
  if t.coefficient < 0 then .binary .mul (.literal t.coefficient) (.var t.name) else t.unsigned

/-- A part of a sum after the first one: the number that decides on the sign, and what is
written after the sign. -/
structure Summand where
  number : Float
  text : String
  expr : Expr Float String

namespace Summand

def op (s : Summand) : BinaryOp := if s.number < 0 then .sub else .add

def chars (s : Summand) : List Char := ' ' :: (s.op.symbol.toList ++ ' ' :: s.text.toList)

def addTo (sum : Expr Float String) (s : Summand) : Expr Float String := .binary s.op sum s.expr

theorem toList_signed (s : Summand) :
    (LinearRelation.signed false s.number s.text).toList =
      s.op.symbol.toList ++ ' ' :: s.text.toList := by
  unfold LinearRelation.signed op
  by_cases h : s.number < 0
  · simp [h, BinaryOp.symbol]
  · simp [h, BinaryOp.symbol]

end Summand

def Term.summand (places : Places) (t : Term Float) : Summand where
  number := t.coefficient
  text := LinearRelation.termBody places t
  expr := t.unsigned

namespace LinearRelation

def offsetSummands (places : Places) (r : LinearRelation Float) : List Summand :=
  if r.offset == 0 then []
  else
    [{ number := r.offset
       text := formatNumber places r.offset.abs
       expr := .literal r.offset.abs }]

def summands (places : Places) (r : LinearRelation Float) : List Summand :=
  r.terms.tail.map (Term.summand places) ++ r.offsetSummands places

theorem toList_intercalate (first : String) (rest : List String) :
    (" ".intercalate (first :: rest)).toList =
      first.toList ++ rest.flatMap fun text => ' ' :: text.toList := by
  induction rest generalizing first with
  | nil => simp
  | cons second rest ih =>
    rw [String.intercalate_cons_cons, String.toList_append, ih]
    simp

theorem toList_format (places : Places) {r : LinearRelation Float} {first : Term Float}
    {rest : List (Term Float)} (hterms : r.terms = first :: rest) :
    (r.format places).toList =
      (signed true first.coefficient (termBody places first)).toList ++
          (r.summands places).flatMap Summand.chars ++
        ' ' :: (r.relation.symbol.toList ++ ' ' :: ['0']) := by
  have hparts (summands : List Summand) :
      (summands.map fun s => signed false s.number s.text).flatMap
          (fun text => ' ' :: text.toList) =
        summands.flatMap Summand.chars := by
    rw [List.flatMap_map]
    refine List.flatMap_congr fun s _ => ?_
    rw [Summand.toList_signed, Summand.chars]
  have htexts : termTexts places r.terms ++
      (if r.offset == 0 then [] else [signed false r.offset (formatNumber places r.offset.abs)]) =
      signed true first.coefficient (termBody places first) ::
        (r.summands places).map fun s => signed false s.number s.text := by
    rw [hterms, termTexts, summands, offsetSummands, hterms]
    split <;> simp [Term.summand]
  unfold format
  dsimp only
  rw [htexts, String.toList_append, String.toList_append, String.toList_append,
    toList_intercalate, hparts]
  simp

end LinearRelation

variable {resolve : String → NameBinding}

/-- A sum goes on with its parts, and is grouped to the left. -/
theorem standsFor_foldl {summands : List Summand}
    (h : ∀ s ∈ summands, StandsFor resolve .product s.text.toList s.expr) {chars : List Char}
    {sum : Expr Float String} (hsum : StandsFor resolve .sum chars sum) :
    StandsFor resolve .sum (chars ++ summands.flatMap Summand.chars)
      (summands.foldl Summand.addTo sum) := by
  induction summands generalizing chars sum with
  | nil => simpa using hsum
  | cons s rest ih =>
    rw [List.forall_mem_cons] at h
    obtain ⟨hs, hrest⟩ := h
    have hnext : StandsFor resolve .sum (chars ++ s.chars) (s.addTo sum) := by
      unfold Summand.chars Summand.addTo Summand.op
      split
      · exact StandsFor.operation .sub hsum hs
      · exact StandsFor.operation .add hsum hs
    rw [List.flatMap_cons, ← List.append_assoc]
    exact ih hrest hnext

theorem eq_one_of_beq {x : Float} (h : (x == 1) = true) : x = 1 := by
  rw [Float.beq_iff_ne_nan_and_eq] at h
  obtain ⟨-, -, heq | ⟨-, hone⟩ | ⟨-, hone⟩⟩ := h
  · exact heq
  · exact absurd hone (by decide)
  · exact absurd hone (by decide)

/-- The names are decision variables, and the number is an integer that is read back. -/
structure Term.IsLegible (resolve : String → NameBinding) (t : Term Float) : Prop where
  name : IsName t.name.toList
  resolves : resolve t.name = .decision t.name
  regular : IsRegular t.coefficient
  integer : isIntegral t.coefficient = true
  readsBack : ReadsBack t.coefficient.abs

namespace Term.IsLegible

variable {t : Term Float}

theorem toExpr_resolve (h : t.IsLegible resolve) :
    (resolve t.name).toExpr = .ok (Expr.var t.name : Expr Float String) := by
  rw [h.resolves]
  rfl

theorem standsFor_var (h : t.IsLegible resolve) :
    StandsFor resolve .signed t.name.toList (.var t.name : Expr Float String) :=
  standsFor_name h.name h.toExpr_resolve

/-- A minus sign that no number follows. -/
theorem standsFor_minus_var (h : t.IsLegible resolve) :
    StandsFor resolve .signed ('-' :: t.name.toList)
      (.binary .mul (.literal (-1)) (.var t.name) : Expr Float String) := by
  intro position
  obtain ⟨lexeme, htoken, htext, hspells⟩ := spells_name h.name (position + 1)
  obtain ⟨sign, hsign, hspells'⟩ := spells_minus hspells
  refine ⟨_, hspells', _, .minus hsign (.signedOfAtom (.name htoken)), ?_⟩
  have hbound : (SourceTree.name lexeme.text lexeme.position).bindExpr resolve =
      .ok (Expr.var t.name : Expr Float String) := by
    unfold SourceTree.bindExpr
    rw [SourceTree.bindWith, htext, h.toExpr_resolve]
    rfl
  unfold SourceTree.bindExpr at hbound ⊢
  rw [SourceTree.bindWith, hbound]
  · rfl
  · intro v hnumber
    cases hnumber

theorem standsFor_product (h : t.IsLegible resolve) {text : String} {x : Float}
    (hx : ReadsAs text x) :
    StandsFor resolve .product (text ++ " * " ++ t.name).toList
      (.binary .mul (.literal x) (.var t.name)) := by
  have hchars : (text ++ " * " ++ t.name).toList =
      text.toList ++ ' ' :: (BinaryOp.mul.symbol.toList ++ ' ' :: t.name.toList) := by
    simp [BinaryOp.symbol]
  rw [hchars]
  exact StandsFor.operation .mul (standsFor_literal hx).product_of_signed h.standsFor_var

theorem standsFor_unsigned (h : t.IsLegible resolve) (places : Places) :
    StandsFor resolve .product (LinearRelation.termBody places t).toList t.unsigned := by
  unfold LinearRelation.termBody Term.unsigned
  dsimp only
  split
  · exact h.standsFor_var.product_of_signed
  · obtain ⟨v, hnumeral, hfinite, hvalue⟩ :=
      exists_isNumeral_formatNumber places h.regular h.integer h.readsBack
    exact h.standsFor_product ⟨v, _, hnumeral, hfinite, Or.inl ⟨rfl, hvalue⟩⟩

theorem standsFor_leading (h : t.IsLegible resolve) (places : Places) :
    StandsFor resolve .product
      (LinearRelation.signed true t.coefficient (LinearRelation.termBody places t)).toList
      t.leading := by
  unfold LinearRelation.signed Term.leading
  rw [if_pos rfl]
  split
  · rename_i hnegative
    have hneg : -t.coefficient.abs = t.coefficient := h.regular.neg_abs hnegative
    unfold LinearRelation.termBody
    dsimp only
    split
    · rename_i hone
      rw [eq_one_of_beq hone] at hneg
      rw [← hneg, String.toList_append]
      exact h.standsFor_minus_var.product_of_signed
    · obtain ⟨v, hnumeral, hfinite, hvalue⟩ :=
        exists_isNumeral_formatNumber places h.regular h.integer h.readsBack
      have hreads : ReadsAs ("-" ++ formatNumber places t.coefficient.abs) t.coefficient := by
        refine ⟨v, _, hnumeral, hfinite, Or.inr ⟨String.toList_append .., ?_⟩⟩
        rw [← hneg, ← hvalue]
        rfl
      rw [← String.append_assoc, ← String.append_assoc]
      exact h.standsFor_product hreads
  · exact h.standsFor_unsigned places

end Term.IsLegible

/-- A relation that is written with integers, which are read back, and with names of different
decision variables. Its offset is no negative zero. -/
structure LinearRelation.IsLegible (resolve : String → NameBinding) (r : LinearRelation Float) :
    Prop where
  terms_ne_nil : r.terms ≠ []
  nodup : (r.terms.map Term.name).Nodup
  terms : ∀ t ∈ r.terms, t.IsLegible resolve
  offset_integer : isIntegral r.offset = true
  offset_ne : r.offset ≠ -0
  offset_readsBack : r.offset ≠ 0 → ReadsBack r.offset.abs

namespace LinearRelation

variable {r : LinearRelation Float}

def spoken (places : Places) (r : LinearRelation Float) : Constraint Float where
  lhs := (r.summands places).foldl Summand.addTo
    (match r.terms with
      | [] => .literal 0
      | first :: _ => first.leading)
  relation := r.relation
  rhs := .literal 0

theorem IsLegible.offset_regular (h : r.IsLegible resolve) (hne : (r.offset == 0) = false) :
    IsRegular r.offset :=
  ⟨(Bool.and_eq_true_iff.1 h.offset_integer).1, hne⟩

theorem IsLegible.standsFor_summands (h : r.IsLegible resolve) (places : Places) :
    ∀ s ∈ r.summands places, StandsFor resolve .product s.text.toList s.expr := by
  unfold summands
  rw [List.forall_mem_append]
  constructor
  · intro s hs
    obtain ⟨t, ht, rfl⟩ := List.mem_map.1 hs
    exact (h.terms t (List.mem_of_mem_tail ht)).standsFor_unsigned places
  · intro s hs
    unfold offsetSummands at hs
    split at hs
    · cases hs
    · rename_i hne
      rw [List.mem_singleton] at hs
      subst hs
      rw [Bool.not_eq_true] at hne
      have hzero : r.offset ≠ 0 := by
        intro heq
        rw [heq] at hne
        revert hne
        decide
      obtain ⟨v, hnumeral, hfinite, hvalue⟩ := exists_isNumeral_formatNumber places
        (h.offset_regular hne) h.offset_integer (h.offset_readsBack hzero)
      exact (standsFor_literal ⟨v, _, hnumeral, hfinite, Or.inl ⟨rfl, hvalue⟩⟩).product_of_signed

/-- The text of a relation is parsed, and bound to what it is read as. -/
theorem IsLegible.exists_spoken_tree (h : r.IsLegible resolve) (places : Places) :
    ∃ tree, SourceRelation.parse (r.format places) = .ok tree ∧
      tree.bind resolve = .ok (r.spoken places) := by
  cases hterms : r.terms with
  | nil => exact absurd hterms h.terms_ne_nil
  | cons first rest =>
    have hfirst : first.IsLegible resolve := h.terms first (hterms ▸ List.mem_cons_self)
    have hleft := standsFor_foldl (h.standsFor_summands places)
      (hfirst.standsFor_leading places).sum_of_product
    have hzero : StandsFor resolve .sum ['0'] (.literal 0 : Expr Float String) := by
      have htext : (numberText 0).toList = ['0'] := by decide +kernel
      have hsigned : StandsFor resolve .signed (numberText 0).toList
          (.literal 0 : Expr Float String) :=
        standsFor_literal readsAs_zero
      rw [htext] at hsigned
      exact hsigned.product_of_signed.sum_of_product
    have hparsed := StandsFor.parse_relation (toList_format places hterms) hleft hzero
    unfold spoken
    rw [hterms]
    exact hparsed

end LinearRelation

end NamedConstants
