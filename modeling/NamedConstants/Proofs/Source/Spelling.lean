import NamedConstants.Proofs.Source.Lexing

/-!
Pieces of a text. Names and numerals end where a blank or a closing parenthesis comes next,
and the other tokens end by themselves. So a piece of a text that is followed by one of the
two consists of the same tokens wherever it stands, and pieces are put together one by one.
-/
namespace NamedConstants

theorem units_append (a b : List Char) : units (a ++ b) = units a + units b := by
  induction a with
  | nil => simp [units]
  | cons c a ih => simp [units, ih, Nat.add_assoc]

namespace Token

def IsSeparator (c : Char) : Prop := c = ' ' ∨ c = ')'

def Separated (rest : List Char) : Prop := ∀ c more, rest = c :: more → IsSeparator c

theorem separated_nil : Separated [] := by
  intro c more h
  cases h

theorem separated_cons {c : Char} (hc : IsSeparator c) (rest : List Char) :
    Separated (c :: rest) := by
  rintro _ _ ⟨⟩
  exact hc

section Words

variable {word rest : List Char}

theorem not_isSeparator_of_isNamePart {c : Char} (h : isNamePart c = true) : ¬ IsSeparator c := by
  rintro (rfl | rfl) <;> revert h <;> decide

theorem not_isSeparator_of_isDigit {c : Char} (h : isDigit c = true) : ¬ IsSeparator c := by
  apply not_isSeparator_of_isNamePart
  simp [isNamePart, h]

theorem IsName.not_isSeparator (h : IsName word) : ∀ c ∈ word, ¬ IsSeparator c := by
  cases word with
  | nil => exact List.forall_mem_nil _
  | cons first more =>
    rw [List.forall_mem_cons]
    refine ⟨not_isSeparator_of_isNamePart ?_, fun c hc => not_isSeparator_of_isNamePart (h.2 c hc)⟩
    simp [isNamePart, h.1]

theorem IsDigits.not_isSeparator (h : IsDigits word) : ∀ c ∈ word, ¬ IsSeparator c :=
  fun c hc => not_isSeparator_of_isDigit (h.2 c hc)

theorem IsExponent.not_isSeparator {e : Int} (h : IsExponent e word) :
    ∀ c ∈ word, ¬ IsSeparator c := by
  have hmarked : ∀ {mark : Char} {digits : List Char}, mark = 'e' ∨ mark = 'E' →
      (∀ c ∈ digits, ¬ IsSeparator c) → ∀ c ∈ mark :: digits, ¬ IsSeparator c := by
    intro mark digits hmark hdigits
    rw [List.forall_mem_cons]
    refine ⟨?_, hdigits⟩
    rcases hmark with rfl | rfl <;> simp [IsSeparator]
  cases h with
  | absent => exact List.forall_mem_nil _
  | unsigned hmark hdigits => exact hmarked hmark hdigits.not_isSeparator
  | positive hmark hdigits =>
    exact hmarked hmark (List.forall_mem_cons.2 ⟨by simp [IsSeparator], hdigits.not_isSeparator⟩)
  | negative hmark hdigits =>
    exact hmarked hmark (List.forall_mem_cons.2 ⟨by simp [IsSeparator], hdigits.not_isSeparator⟩)

theorem IsNumeral.not_isSeparator {value : Decimal} (h : IsNumeral value word) :
    ∀ c ∈ word, ¬ IsSeparator c := by
  cases h with
  | whole hdigits hexponent =>
    exact List.forall_mem_append.2 ⟨hdigits.not_isSeparator, hexponent.not_isSeparator⟩
  | fractional hdigits hdecimals hexponent =>
    rw [List.forall_mem_append, List.forall_mem_cons, List.forall_mem_append]
    exact ⟨fun c hc => not_isSeparator_of_isDigit (hdigits c hc), by simp [IsSeparator],
      hdecimals.not_isSeparator, hexponent.not_isSeparator⟩

/-- A word of a class whose words hold no separator ends at a separator. -/
theorem longest_of_separated {Word : List Char → Prop} (hword : Word word)
    (hclass : ∀ w, Word w → ∀ c ∈ w, ¬ IsSeparator c) (hrest : Separated rest) :
    Longest Word word rest := by
  refine ⟨hword, ?_⟩
  intro other hother hmem
  rcases List.prefix_or_prefix_of_prefix hother (List.prefix_append word rest) with hle | hge
  · exact hle.length_le
  · obtain ⟨tail, rfl⟩ := hge
    cases tail with
    | nil => simp
    | cons c tail =>
      obtain ⟨more, rfl⟩ := (List.prefix_append_right_inj word).1 hother
      exact absurd (hrest c _ rfl) (hclass _ hmem c (by simp))

theorem IsName.spelled (h : IsName word) (hrest : Separated rest) : Spelled .name word rest :=
  .name (longest_of_separated h (fun _ hname => hname.not_isSeparator) hrest)

theorem IsNumeral.longest {value : Decimal} (h : IsNumeral value word)
    (hrest : Separated rest) : Longest (fun w => ∃ d, IsNumeral d w) word rest :=
  longest_of_separated ⟨value, h⟩ (fun _ ⟨_, hnumeral⟩ => hnumeral.not_isSeparator) hrest

theorem IsNumeral.spelled {value : Decimal} (h : IsNumeral value word) (hrest : Separated rest) :
    Spelled (.number value) word rest := .number h (h.longest hrest)

end Words

/-- From the position on the characters consist of the tokens, whatever comes after them. -/
def Spells (position : Nat) (chars : List Char) (lexemes : List Lexeme) : Prop :=
  ∀ rest more, Separated rest → Tokenized (position + units chars) rest more →
    Tokenized position (chars ++ rest) (lexemes ++ more)

section Pieces

variable {position : Nat} {chars : List Char} {lexemes : List Lexeme}

theorem Spells.tokenized (h : Spells position chars lexemes) :
    Tokenized position chars lexemes := by
  have hend := h [] [] separated_nil .done
  rwa [List.append_nil, List.append_nil] at hend

theorem Spells.blank (h : Spells (position + 1) chars lexemes) :
    Spells position (' ' :: chars) lexemes := by
  intro rest more hrest hmore
  refine .blank (Or.inl rfl) (h rest more hrest ?_)
  rwa [units, show unitLength ' ' = 1 from rfl, ← Nat.add_assoc] at hmore

/-- A token that ends by itself, in front of a piece. -/
theorem Spells.cons {lexeme : Lexeme}
    (hspelled : ∀ rest, Spelled lexeme.token lexeme.spelling rest)
    (h : Spells lexeme.stop chars lexemes) :
    Spells lexeme.position (lexeme.spelling ++ chars) (lexeme :: lexemes) := by
  intro rest more hrest hmore
  rw [List.append_assoc, List.cons_append]
  refine .token (hspelled _) (h rest more hrest ?_)
  rwa [units_append, ← Nat.add_assoc] at hmore

/-- A token that ends at a separator. -/
theorem spells_singleton (lexeme : Lexeme)
    (hspelled : ∀ rest, Separated rest → Spelled lexeme.token lexeme.spelling rest) :
    Spells lexeme.position lexeme.spelling [lexeme] :=
  fun rest _ hrest hmore => .token (hspelled rest hrest) hmore

/-- A piece that starts with a separator comes after another one. -/
theorem Spells.append {c : Char} {chars' : List Char} {lexemes' : List Lexeme}
    (h : Spells position chars lexemes) (hc : IsSeparator c)
    (h' : Spells (position + units chars) (c :: chars') lexemes') :
    Spells position (chars ++ c :: chars') (lexemes ++ lexemes') := by
  intro rest more hrest hmore
  rw [List.append_assoc, List.append_assoc]
  apply h _ _ (separated_cons hc _)
  apply h' rest more hrest
  rwa [units_append, ← Nat.add_assoc] at hmore

/-- A piece in parentheses. -/
theorem Spells.enclosed (h : Spells (position + 1) chars lexemes) :
    ∃ opening closing, opening.token = .openParen ∧ closing.token = .closeParen ∧
      Spells position ('(' :: (chars ++ [')'])) (opening :: (lexemes ++ [closing])) := by
  let opening : Lexeme := ⟨.openParen, '(', [], position⟩
  let closing : Lexeme := ⟨.closeParen, ')', [], position + 1 + units chars⟩
  have hclosing : Spells closing.position [')'] [closing] :=
    spells_singleton closing fun rest _ => .closeParen rest
  have hinside : Spells opening.stop (chars ++ [')']) (lexemes ++ [closing]) :=
    h.append (Or.inr rfl) hclosing
  exact ⟨opening, closing, rfl, rfl, hinside.cons fun rest => .openParen rest⟩

/-- Two pieces with blanks between them and a token that ends by itself. -/
theorem Spells.around {token : Token} {word chars' : List Char} {lexemes' : List Lexeme}
    (hspelled : ∀ rest, Spelled token word rest) (h : Spells position chars lexemes)
    (h' : Spells (position + units chars + 1 + units word + 1) chars' lexemes') :
    ∃ lexeme, lexeme.token = token ∧
      Spells position (chars ++ ' ' :: (word ++ ' ' :: chars'))
        (lexemes ++ lexeme :: lexemes') := by
  cases word with
  | nil => exact absurd rfl (hspelled []).ne_nil
  | cons first tail =>
    let lexeme : Lexeme := ⟨token, first, tail, position + units chars + 1⟩
    have hright : Spells lexeme.stop (' ' :: chars') lexemes' := h'.blank
    have htoken : Spells lexeme.position (lexeme.spelling ++ ' ' :: chars') (lexeme :: lexemes') :=
      hright.cons hspelled
    exact ⟨lexeme, rfl, h.append (Or.inl rfl) htoken.blank⟩

theorem spells_name {name : String} (h : IsName name.toList) (position : Nat) :
    ∃ lexeme, lexeme.token = .name ∧ lexeme.text = name ∧
      Spells position name.toList [lexeme] := by
  cases hword : name.toList with
  | nil => simp [hword, IsName] at h
  | cons first tail =>
    rw [hword] at h
    let lexeme : Lexeme := ⟨.name, first, tail, position⟩
    have htext : lexeme.text = name := by
      rw [Lexeme.text, Lexeme.spelling, ← hword, String.ofList_toList]
    exact ⟨lexeme, rfl, htext, spells_singleton lexeme fun rest hrest => h.spelled hrest⟩

theorem spells_numeral {value : Decimal} {word : List Char} (h : IsNumeral value word)
    (position : Nat) :
    ∃ lexeme, lexeme.token = .number value ∧ Spells position word [lexeme] := by
  obtain ⟨first, tail, rfl⟩ := h.exists_cons
  let lexeme : Lexeme := ⟨.number value, first, tail, position⟩
  exact ⟨lexeme, rfl, spells_singleton lexeme fun rest hrest => h.spelled hrest⟩

theorem spells_minus (h : Spells (position + 1) chars lexemes) :
    ∃ lexeme, lexeme.token = .op .sub ∧ Spells position ('-' :: chars) (lexeme :: lexemes) := by
  let lexeme : Lexeme := ⟨.op .sub, '-', [], position⟩
  have hstop : Spells lexeme.stop chars lexemes := h
  exact ⟨lexeme, rfl, hstop.cons fun rest => .sub rest⟩

end Pieces

end Token

theorem BinaryOp.spelled (op : BinaryOp) (rest : List Char) :
    Token.Spelled (.op op) op.symbol.toList rest := by
  cases op with
  | add => exact .add rest
  | sub => exact .sub rest
  | mul => exact .mul rest
  | div => exact .div rest

theorem Relation.spelled (relation : Relation) (rest : List Char) :
    Token.Spelled (.relation relation) relation.symbol.toList rest := by
  cases relation with
  | equal => exact .equal rest
  | atMost => exact .atMost rest
  | atLeast => exact .atLeast rest

end NamedConstants
