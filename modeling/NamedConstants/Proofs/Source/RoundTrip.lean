import NamedConstants.Proofs.Decimal.Numeral
import NamedConstants.Proofs.Source.Parsing
import NamedConstants.Proofs.Source.Printing

/-!
Formatting and parsing. An expression whose numbers are integers is parsed from its text as
the tree grouped to the left, and so are the two sides of a constraint. What is assumed is
that each of the integers is read back from its own text, and that the names are resolved to
what they name.
-/
namespace NamedConstants

open Token

section Parsing

variable {α : Type} [Arithmetic α] {resolve : String → NameBinding} {text : String}
  {lexemes : List Lexeme} {chars chars' : List Char} {e left right : Expr α String}

theorem WrittenBare.writes_sum (h : WrittenBare resolve lexemes e) :
    Writes resolve .sum lexemes e.leftGrouped := h.alone .add Expr.not_needsParens_add

theorem Printed.parse (h : Printed resolve text.toList e) :
    ∃ tree, SourceTree.parse text = .ok tree ∧ tree.bindExpr resolve = .ok e.leftGrouped := by
  obtain ⟨lexemes, hspells, hwritten⟩ := h 0
  obtain ⟨tree, hphrase, hbind⟩ := hwritten.writes_sum
  exact ⟨tree, SourceTree.parse_eq_ok_iff_derives.2 ⟨lexemes, hspells.tokenized, hphrase⟩, hbind⟩

theorem Printed.standsFor (h : Printed resolve chars e) :
    StandsFor resolve .sum chars e.leftGrouped := by
  intro position
  obtain ⟨lexemes, hspells, hwritten⟩ := h position
  exact ⟨lexemes, hspells, hwritten.writes_sum⟩

/-- Two phrases with a relation between them are parsed as a constraint. -/
theorem StandsFor.parse_relation {relation : NamedConstants.Relation}
    (htext : text.toList = chars ++ ' ' :: (relation.symbol.toList ++ ' ' :: chars'))
    (hleft : StandsFor resolve .sum chars left) (hright : StandsFor resolve .sum chars' right) :
    ∃ r, SourceRelation.parse text = .ok r ∧ r.bind resolve = .ok ⟨left, relation, right⟩ := by
  obtain ⟨lexemes, hspells, lhs, hlhs, hbindLeft⟩ := hleft 0
  obtain ⟨lexemes', hspells', rhs, hrhs, hbindRight⟩ := hright _
  obtain ⟨lexeme, htoken, hboth⟩ := hspells.around relation.spelled hspells'
  have htokenized := hboth.tokenized
  rw [← htext] at htokenized
  refine ⟨⟨lhs, relation, rhs⟩, ?_, ?_⟩
  · exact SourceRelation.parse_of_derives
      ⟨lexemes, lexeme, lexemes', htokenized, htoken, hlhs, hrhs⟩
  · rw [SourceRelation.bind, hbindLeft, hbindRight]
    rfl

end Parsing

section Numbers

variable {x : Float}

/-- The text of the number, read as a numeral with its sign, stands for the number. -/
def ReadsBack (x : Float) : Prop :=
  ∀ v word, IsNumeral v word →
    ((numberText x).toList = word → v.toFloat = x) ∧
      ((numberText x).toList = '-' :: word → -v.toFloat = x)

theorem readsAs_zero : ReadsAs (numberText 0) (0 : Float) := by
  have htext : (numberText 0).toList = ['0'] ++ [] := by decide +kernel
  have hnumeral := IsNumeral.whole ⟨by simp, forall_mem_replicate_zero 1⟩ .absent
  exact ⟨_, _, hnumeral, by decide +kernel, Or.inl ⟨htext, by decide +kernel⟩⟩

theorem readsAs_formatNumber (places : Places) (hx : isIntegral x = true ∧ x ≠ -0)
    (hback : x ≠ 0 → ReadsBack x) : ReadsAs (formatNumber places x) x := by
  obtain ⟨hintegral, hnegative⟩ := hx
  have htext : formatNumber places x = numberText x := by
    rw [formatNumber, hintegral]
    rfl
  have hfinite : x.isFinite = true := (Bool.and_eq_true_iff.1 hintegral).1
  rw [htext]
  by_cases hzero : x = 0
  · rw [hzero]
    exact readsAs_zero
  · obtain ⟨v, word, hnumeral, hword⟩ :=
      toList_numberText hfinite (beq_zero_eq_false hzero hnegative)
    obtain ⟨hpositive, hnegative⟩ := hback hzero v word hnumeral
    by_cases hsign : isNegative x = true
    · rw [if_pos hsign] at hword
      have hvalue := hnegative hword
      rw [← hvalue] at hfinite
      exact ⟨v, word, hnumeral, isFinite_of_isFinite_neg hfinite, Or.inr ⟨hword, hvalue⟩⟩
    · rw [if_neg hsign] at hword
      have hvalue := hpositive hword
      rw [← hvalue] at hfinite
      exact ⟨v, word, hnumeral, hfinite, Or.inl ⟨hword, hvalue⟩⟩

/-- A numeral has the value that the scanner finds. -/
theorem scanNumber_of_isNumeral {v : Decimal} {word : List Char} (h : IsNumeral v word) :
    scanNumber word = (.number v, word) := by
  rcases scanNumber_of_longest h (h.longest separated_nil) with hscan | ⟨-, _, ⟨⟩, -⟩
  rwa [List.append_nil] at hscan

/-- It is enough to look at what the scanner finds in the text. -/
theorem readsBack_of_scanNumber {text : List Char} (htext : (numberText x).toList = text)
    (hpositive : ∀ v, scanNumber text = (.number v, text) → v.toFloat = x)
    (hnegative : ∀ v word, text = '-' :: word → scanNumber word = (.number v, word) →
      -v.toFloat = x) : ReadsBack x := by
  subst htext
  intro v word hnumeral
  have hscan := scanNumber_of_isNumeral hnumeral
  constructor
  · rintro rfl
    exact hpositive v hscan
  · intro hword
    exact hnegative v word hword hscan

/-- The number of places makes no difference to integers. -/
theorem withPlaces_of_integers {β : Type} (places : Int) {numbers : List Float}
    (h : ∀ x ∈ numbers, isIntegral x = true) (format : Places → β) :
    ∃ supported, withPlaces places numbers format = .ok (format supported) := by
  unfold withPlaces
  cases Places.ofInt? places with
  | some supported => exact ⟨supported, rfl⟩
  | none => exact ⟨.standard, if_pos (List.all_eq_true.2 h)⟩

end Numbers

section RoundTrip

variable {label : ConstantId → String} {resolve : String → NameBinding}

/-- The numbers are integers that are read back, and the names are resolved to what they
name. The sign of a negative zero is not written, so it is none of the numbers. -/
structure Expr.IsLegible (label : ConstantId → String) (resolve : String → NameBinding)
    (e : Expr Float String) : Prop where
  integers : ∀ x ∈ e.literals, isIntegral x = true ∧ x ≠ -0
  readsBack : ∀ x ∈ e.literals, x ≠ 0 → ReadsBack x
  resolves : e.Resolves label resolve

theorem Expr.IsLegible.printed {e : Expr Float String} (h : e.IsLegible label resolve)
    (places : Places) : Printed resolve (e.format places label).toList e :=
  printed_render (fun x hx => readsAs_formatNumber places (h.integers x hx) (h.readsBack x hx))
    h.resolves

theorem Constraint.toList_format (places : Places) (label : ConstantId → String)
    (c : Constraint Float) :
    (c.format places label).toList =
      (c.lhs.format places label).toList ++
        ' ' :: (c.relation.symbol.toList ++ ' ' :: (c.rhs.format places label).toList) := by
  simp [Constraint.format]

/-- An expression is parsed from its text as the tree grouped to the left, and a constraint
side by side. That tree is the one that rotations of right operands of equal precedence lead
to; it is the same tree if there are none to rotate, and it has the same exact value. -/
theorem parse_format (label : ConstantId → String) (resolve : String → NameBinding)
    (places : Int) :
    (∀ e : Expr Float String, e.IsLegible label resolve →
      ∃ text, withPlaces places e.literals (fun p => e.format p label) = .ok text ∧
        ∃ tree, SourceTree.parse text = .ok tree ∧ tree.bindExpr resolve = .ok e.leftGrouped) ∧
    (∀ c : Constraint Float, c.lhs.IsLegible label resolve → c.rhs.IsLegible label resolve →
      ∃ text, withPlaces places c.literals (fun p => c.format p label) = .ok text ∧
        ∃ r, SourceRelation.parse text = .ok r ∧
          r.bind resolve = .ok ⟨c.lhs.leftGrouped, c.relation, c.rhs.leftGrouped⟩) ∧
    ∀ e : Expr Float String,
      (∀ e', e' = e.leftGrouped ↔ e.RotatesTo e' ∧ e'.IsLeftGrouped) ∧
      (e.IsLeftGrouped → e.leftGrouped = e) ∧
      ∀ number lookup value,
        e.leftGrouped.exactValue number lookup value = e.exactValue number lookup value := by
  refine ⟨?_, ?_, ?_⟩
  · intro e h
    obtain ⟨supported, hplaces⟩ :=
      withPlaces_of_integers places (fun x hx => (h.integers x hx).1) fun p => e.format p label
    exact ⟨_, hplaces, (h.printed supported).parse⟩
  · intro c hlhs hrhs
    have hintegers : ∀ x ∈ c.literals, isIntegral x = true := by
      rw [Constraint.literals, List.forall_mem_append]
      exact ⟨fun x hx => (hlhs.integers x hx).1, fun x hx => (hrhs.integers x hx).1⟩
    obtain ⟨supported, hplaces⟩ :=
      withPlaces_of_integers places hintegers fun p => c.format p label
    exact ⟨_, hplaces, StandsFor.parse_relation (c.toList_format supported label)
      (hlhs.printed supported).standsFor (hrhs.printed supported).standsFor⟩
  · intro e
    refine ⟨fun e' => Expr.eq_leftGrouped_iff, Expr.leftGrouped_eq_self, ?_⟩
    intro number lookup value
    exact (Expr.rotatesTo_leftGrouped e).exactValue_eq number lookup value

def rotatedSample : Expr Float String :=
  .binary .add (.constant 1)
    (.binary .sub (.literal (-5)) (.binary .sub (.var "x") (.literal 1e21)))

theorem parse_format_rotated :
    ∃ text, withPlaces 4 rotatedSample.literals (fun p => rotatedSample.format p fun _ => "rate") =
        .ok text ∧
      ∃ tree, SourceTree.parse text = .ok tree ∧
        tree.bindExpr (fun name => if name = "rate" then .constant 1 else .decision name) =
          .ok (.binary .sub (.binary .add (.constant 1) (.literal (-5)))
            (.binary .sub (.var "x") (.literal 1e21))) := by
  refine (parse_format (fun _ => "rate") _ 4).1 rotatedSample ⟨?_, ?_, ?_, ?_⟩
  · decide +kernel
  · intro x hx _
    have hcases : x = -5 ∨ x = 1e21 := by simpa [rotatedSample, Expr.literals] using hx
    rcases hcases with rfl | rfl
    · have htext : (numberText (-5)).toList = ['-', '5'] := by decide +kernel
      refine readsBack_of_scanNumber htext (fun v hscan => ?_) fun v word hword hscan => ?_
      · cases hscan
      · cases hword
        cases hscan
        decide +kernel
    · have htext : (numberText 1e21).toList = ['1', 'e', '+', '2', '1'] := by decide +kernel
      refine readsBack_of_scanNumber htext (fun v hscan => ?_) fun v word hword hscan => ?_
      · cases hscan
        decide +kernel
      · cases hword
  · intro id hid
    obtain rfl : id = 1 := by simpa [rotatedSample, Expr.constantLeaves] using hid
    have hname : IsName ['r', 'a', 't', 'e'] := ⟨rfl, List.all_eq_true.1 rfl⟩
    exact ⟨hname, if_pos rfl⟩
  · intro name hmem
    obtain rfl : name = "x" := by simpa [rotatedSample, Expr.variableLeaves] using hmem
    have hname : IsName ['x'] := ⟨rfl, List.all_eq_true.1 rfl⟩
    exact ⟨hname, if_neg (by decide)⟩

end RoundTrip

end NamedConstants
