import NamedConstants.Proofs.Decimal.NonFinite
import NamedConstants.Proofs.Decimal.Numeral
import NamedConstants.Proofs.Source.Cutting

/-!
Where syntax errors show. Whatever the reader has taken can be continued: an operand is written
where one is missing, open parentheses are closed, and a relation gets its right side. The
reader complains about the first token that it cannot take, or behind the decimal point of a
number without decimals, which can still be finished there. So the text in front of an error is
the start of a text that is accepted.
-/
namespace NamedConstants

open Token

/-- Some text is accepted that starts like the source, up to the position. -/
def ViableBefore (Accepts : String → Prop) (source : String) (position : Nat) : Prop :=
  ∃ before after continuation : String, source = before ++ after ∧
    units before.toList = position ∧ Accepts (before ++ continuation)

section Continuing

variable {Accepted : List Lexeme → Prop} {read : List Lexeme}

/-- The tokens go on, behind a blank, to tokens that are accepted. -/
def CanContinue (Accepted : List Lexeme → Prop) (read : List Lexeme) : Prop :=
  ∀ position, ∃ chars lexemes, Spells position (' ' :: chars) lexemes ∧ Accepted (read ++ lexemes)

theorem CanContinue.of_accepted (h : Accepted read) : CanContinue Accepted read := by
  intro position
  have hnothing : Spells (position + 1) [] [] := fun _ _ _ hmore => hmore
  exact ⟨[], [], hnothing.blank, by rwa [List.append_nil]⟩

/-- A token is written first. -/
theorem CanContinue.of_token {token : Token} {first : Char} {more : List Char}
    (hspelled : ∀ rest, Separated rest → Spelled token (first :: more) rest)
    (h : ∀ position, CanContinue Accepted (read ++ [⟨token, first, more, position⟩])) :
    CanContinue Accepted read := by
  intro position
  let lexeme : Lexeme := ⟨token, first, more, position + 1⟩
  obtain ⟨chars, lexemes, hspells, haccepted⟩ := h lexeme.position lexeme.stop
  have hword : Spells lexeme.position lexeme.spelling [lexeme] := spells_singleton lexeme hspelled
  rw [List.append_assoc] at haccepted
  exact ⟨_, _, (hword.append (Or.inl rfl) hspells).blank, haccepted⟩

theorem CanContinue.trans {Accepted' : List Lexeme → Prop} (h : CanContinue Accepted read)
    (hlater : ∀ lexemes, Accepted lexemes → CanContinue Accepted' lexemes) :
    CanContinue Accepted' read := by
  intro position
  obtain ⟨chars, lexemes, hspells, haccepted⟩ := h position
  obtain ⟨chars', lexemes', hspells', haccepted'⟩ :=
    hlater _ haccepted (position + units (' ' :: chars))
  rw [List.append_assoc] at haccepted'
  exact ⟨_, _, hspells.append (Or.inl rfl) hspells', haccepted'⟩

end Continuing

section Reading

variable (α : Type) [Arithmetic α]

def SourceTree.IsSum (lexemes : List Lexeme) : Prop :=
  ∃ tree : SourceTree α Nat, Phrase .sum lexemes tree

def SourceRelation.IsRelation (lexemes : List Lexeme) : Prop :=
  ∃ before lexeme after relation, lexemes = before ++ lexeme :: after ∧
    lexeme.token = .relation relation ∧ SourceTree.IsSum α before ∧ SourceTree.IsSum α after

variable {α} {stop : Nat} {read before after : List Lexeme} {lexeme : Lexeme}

open SourceTree SourceRelation

/-- Behind an operand the open parentheses are closed, from the innermost on. -/
theorem StateTokens.canContinue_afterOperand {sum : Option (SourceTree α Nat × BinaryOp)}
    {product : SourceTree α Nat} {outer : List (OperandGap α)}
    (h : StateTokens (.afterOperand sum product outer) read) : CanContinue (IsSum α) read := by
  induction outer generalizing sum product read with
  | nil => exact .of_accepted ⟨_, h.phrase_sum⟩
  | cons gap outer ih =>
    refine .of_token (fun rest _ => .closeParen rest) fun position => ?_
    exact ih (h.step (.closing sum product gap outer rfl))

/-- What leads the reader to a state can be continued to a sum. -/
theorem StateTokens.canContinue {s : ReaderState α} (h : StateTokens s read) :
    CanContinue (IsSum α) read := by
  cases s with
  | beforeOperand gap outer =>
    -- Any operand will do here, but a name is accepted whatever the numbers are.
    have hname : IsName ['x'] := ⟨by decide, List.forall_mem_nil _⟩
    refine .of_token (fun _ => hname.spelled) fun position => ?_
    exact canContinue_afterOperand (h.step (.operand gap outer (.name rfl)))
  | afterOperand sum product outer => exact h.canContinue_afterOperand

theorem CanContinue.relation_right {relation : Relation} (hbefore : IsSum α before)
    (htoken : lexeme.token = .relation relation) (h : CanContinue (IsSum α) after) :
    CanContinue (IsRelation α) (before ++ lexeme :: after) := by
  intro position
  obtain ⟨chars, lexemes, hspells, hafter⟩ := h position
  refine ⟨chars, lexemes, hspells, before, lexeme, after ++ lexemes, relation, ?_, htoken,
    hbefore, hafter⟩
  rw [List.append_assoc, List.cons_append]

/-- What can be continued to a sum can be continued to a relation. -/
theorem CanContinue.relation_left (h : CanContinue (IsSum α) read) :
    CanContinue (IsRelation α) read := by
  refine h.trans fun sum hsum => ?_
  refine .of_token (fun rest _ => .equal rest) fun position => ?_
  exact .relation_right hsum rfl StateTokens.start.canContinue

/-- Tokens that can be continued up to a place: in front of a token or at the end, or behind the
decimal point of a number that is yet to be finished. -/
inductive BreaksOff (α : Type) [Arithmetic α] (Accepted : List Lexeme → Prop) (stop : Nat) :
    List Lexeme → Nat → Prop where
  | next {read : List Lexeme} (later : List Lexeme) (h : CanContinue Accepted read) :
      BreaksOff α Accepted stop (read ++ later) (nextPosition stop later)
  | point {read : List Lexeme} {lexeme : Lexeme} (later : List Lexeme)
      (htoken : lexeme.token = .unfinishedNumber) (hread : CanContinue Accepted read)
      (hnumber : ∀ (number : Lexeme) (value : Decimal), number.token = .number value →
        Arithmetic.isFinite (Arithmetic.ofDecimal value : α) = true →
        CanContinue Accepted (read ++ [number])) :
      BreaksOff α Accepted stop (read ++ lexeme :: later) lexeme.stop

theorem BreaksOff.map {Accepted Accepted' : List Lexeme → Prop} {lexemes : List Lexeme}
    {position : Nat} (front : List Lexeme)
    (hmap : ∀ read, CanContinue Accepted read → CanContinue Accepted' (front ++ read))
    (h : BreaksOff α Accepted stop lexemes position) :
    BreaksOff α Accepted' stop (front ++ lexemes) position := by
  cases h with
  | next later h =>
    rw [← List.append_assoc]
    exact .next later (hmap _ h)
  | point later htoken hread hnumber =>
    rw [← List.append_assoc]
    refine .point later htoken (hmap _ hread) fun number value htoken hfinite => ?_
    rw [List.append_assoc]
    exact hmap _ (hnumber number value htoken hfinite)

/-- Up to the place where reading fails the tokens can be continued. -/
theorem StateTokens.breaksOff {s : ReaderState α} {lexemes : List Lexeme} {e : SyntaxError}
    (h : StateTokens s read) (hreads : Reads stop s lexemes (.error e)) :
    BreaksOff α (IsSum α) stop (read ++ lexemes) e.position := by
  generalize houtcome : Except.error e = outcome at hreads
  induction hreads generalizing read with
  | stops => cases houtcome
  | fails s lexemes fault =>
    cases houtcome
    exact .next lexemes h.canContinue
  | breaksOff gap outer rest htoken =>
    cases houtcome
    refine .point rest htoken h.canContinue fun number value hnumber hfinite => ?_
    exact (h.step (.operand gap outer (.number hnumber hfinite))).canContinue
  | takes hstep hrest ih =>
    rw [List.append_cons]
    exact ih (h.step hstep) houtcome

theorem breaksOff_of_readSum {lexemes : List Lexeme} {e : SyntaxError}
    (h : readSum stop (.start : ReaderState α) lexemes = .error e) :
    BreaksOff α (IsSum α) stop lexemes e.position :=
  StateTokens.start.breaksOff (reads_of_readSum h)

theorem position_of_requireEnd {fault : SyntaxFault} {lexemes : List Lexeme} {e : SyntaxError}
    (h : requireEnd fault lexemes = .error e) : e.position = nextPosition stop lexemes := by
  cases lexemes with
  | nil => cases h
  | cons lexeme more =>
    simp only [requireEnd] at h
    split at h <;> cases h <;> rfl

theorem position_of_readRelation {lexemes : List Lexeme} {e : SyntaxError}
    (h : readRelation stop lexemes = .error e) : e.position = nextPosition stop lexemes := by
  cases lexemes with
  | nil =>
    cases h
    rfl
  | cons lexeme more =>
    simp only [readRelation] at h
    split at h <;> cases h <;> rfl

variable {source : String} {e : SyntaxError}

theorem SourceTree.breaksOff_of_parse
    (h : (SourceTree.parse source : Except SyntaxError (SourceTree α Nat)) = .error e) :
    BreaksOff α (IsSum α) (units source.toList) (lex source) e.position := by
  unfold SourceTree.parse at h
  obtain hread | ⟨⟨tree, rest⟩, hread, hrest⟩ := bind_eq_error_iff.1 h
  · exact breaksOff_of_readSum hread
  · obtain hend | ⟨-, -, ⟨⟩⟩ := bind_eq_error_iff.1 hrest
    obtain ⟨read, hlex, hphrase⟩ := phrase_of_readSum_start hread
    rw [hlex, position_of_requireEnd hend]
    exact .next rest (.of_accepted ⟨tree, hphrase⟩)

theorem SourceRelation.breaksOff_of_parse
    (h : (SourceRelation.parse source : Except SyntaxError (SourceRelation α Nat)) = .error e) :
    BreaksOff α (IsRelation α) (units source.toList) (lex source) e.position := by
  unfold SourceRelation.parse at h
  obtain hleft | ⟨⟨lhs, afterLeft⟩, hleft, hmiddle⟩ := bind_eq_error_iff.1 h
  · exact (breaksOff_of_readSum hleft).map [] fun _ => .relation_left
  · obtain ⟨read, hlex, hphrase⟩ := phrase_of_readSum_start hleft
    have hlhs : IsSum α read := ⟨lhs, hphrase⟩
    rw [hlex]
    obtain hrelation | ⟨⟨relation, afterRelation⟩, hrelation, hlast⟩ :=
      bind_eq_error_iff.1 hmiddle
    · rw [position_of_readRelation hrelation]
      exact .next afterLeft (CanContinue.of_accepted hlhs).relation_left
    · obtain ⟨lexeme, rfl, htoken⟩ := readRelation_eq_ok hrelation
      rw [List.append_cons]
      obtain hright | ⟨⟨rhs, rest⟩, hright, hrest⟩ := bind_eq_error_iff.1 hlast
      · refine (breaksOff_of_readSum hright).map _ fun right hcontinue => ?_
        rw [List.append_assoc]
        exact hcontinue.relation_right hlhs htoken
      · obtain hend | ⟨-, -, ⟨⟩⟩ := bind_eq_error_iff.1 hrest
        obtain ⟨right, rfl, hrhs⟩ := phrase_of_readSum_start hright
        rw [position_of_requireEnd hend, ← List.append_assoc]
        refine .next rest (.of_accepted ⟨read, lexeme, right, relation, ?_, htoken, hlhs, rhs,
          hrhs⟩)
        rw [List.append_assoc]
        rfl

end Reading

section Doubles

open Float.Model

theorem natOfDigits_toDigits (n : Nat) : natOfDigits (Nat.toDigits 10 n) = n :=
  Nat.ofDigitChars_toDigits (by decide) (by decide)

/-- Far below the range of the doubles a decimal is read as zero. -/
theorem Decimal.isFinite_toFloat_of_lt {d : Decimal}
    (h : d.exponent < -(2 ^ 11 + d.coefficient.log2 : Int)) : d.toFloat.isFinite = true := by
  have hnegative : decide (d.exponent < 0) = true := decide_eq_true (by omega)
  have hslow : ¬ (d.coefficient < 2 ^ 53 ∧ d.exponent.natAbs ≤ 22) := by omega
  have hexponent : Int.negOfNat d.exponent.natAbs = d.exponent := by
    rw [Int.negOfNat_eq, Int.ofNat_eq_natCast]
    omega
  have hzero : UnpackedFloat.ofScientific Format.binary64 d.coefficient d.exponent =
      .zero .positive := by
    have hbits : (2 : Int) ^ Format.binary64.exponentBits = 2 ^ 11 := rfl
    have hlarge : ¬ d.exponent > 2 ^ Format.binary64.exponentBits := by omega
    rw [← hbits] at h
    unfold UnpackedFloat.ofScientific
    by_cases hcoefficient : d.coefficient = 0
    · rw [dif_pos hcoefficient]
    · rw [dif_neg hcoefficient, if_neg hlarge, if_pos h]
  unfold toFloat Float.ofScientific
  rw [dif_neg hslow, if_pos hnegative, hexponent]
  change (Float.Model.pack
    (UnpackedFloat.ofScientific Format.binary64 d.coefficient d.exponent)).isFinite = true
  rw [hzero]
  rfl

/-- Digits and a decimal point are the start of a numeral that stands for a double. -/
theorem Token.IsDigits.exists_finite {digits : List Char} (h : IsDigits digits) :
    ∃ more value, IsNumeral value (digits ++ '.' :: more) ∧
      (Decimal.toFloat value).isFinite = true := by
  let n : Nat := 2 ^ 11 + (natOfDigits (digits ++ ['0'])).log2
  have hdecimals : IsDigits ['0'] := ⟨by simp, forall_mem_replicate_zero 1⟩
  refine ⟨_, _, .fractional h.2 hdecimals (.negative (Or.inl rfl) (isDigits_toDigits n)),
    Decimal.isFinite_toFloat_of_lt ?_⟩
  rw [natOfDigits_toDigits]
  simp only [List.length_singleton, n]
  omega

end Doubles

/-- The position of a cut is the position of the token after it, or else the end. -/
theorem Token.Cut.nextPosition_eq {l chars rest : List Char} {read later : List Lexeme}
    (h : Cut 0 l read later chars rest) : nextPosition (units l) later = units chars := by
  cases later with
  | nil => rw [nextPosition, h.text_eq, h.rest_eq_nil, List.append_nil]
  | cons lexeme later => rw [nextPosition, h.exists_scan.1, Nat.zero_add]

/-- Texts that consist of accepted tokens are accepted, and each of these tokens has a place in
the grammar. -/
structure AcceptsTokens (Accepts : String → Prop) (Accepted : List Lexeme → Prop) : Prop where
  isProper : ∀ lexemes, Accepted lexemes → ∀ lexeme ∈ lexemes, lexeme.token.IsProper
  accepts : ∀ text lexemes, Tokenized 0 text.toList lexemes → Accepted lexemes → Accepts text

section Texts

variable {Accepts : String → Prop} {Accepted : List Lexeme → Prop} {source : String}
  {read later : List Lexeme} {before after : List Char}

theorem AcceptsTokens.isProper_of_canContinue (haccepts : AcceptsTokens Accepts Accepted)
    (h : CanContinue Accepted read) : ∀ lexeme ∈ read, lexeme.token.IsProper := by
  obtain ⟨-, lexemes, -, haccepted⟩ := h 0
  intro lexeme hlexeme
  exact haccepts.isProper _ haccepted lexeme (List.mem_append_left _ hlexeme)

theorem AcceptsTokens.viableBefore (haccepts : AcceptsTokens Accepts Accepted)
    {continuation : List Char} {lexemes : List Lexeme} (hsource : source.toList = before ++ after)
    (htokenized : Tokenized 0 (before ++ continuation) lexemes) (h : Accepted lexemes) :
    ViableBefore Accepts source (units before) := by
  refine ⟨.ofList before, .ofList after, .ofList continuation, ?_, ?_,
    haccepts.accepts _ lexemes ?_ h⟩
  · rw [← String.toList_inj, hsource]
    simp
  · rw [String.toList_ofList]
  · simpa using htokenized

/-- What continues the tokens in front of a cut continues the text in front of it. -/
theorem AcceptsTokens.viableBefore_cut (haccepts : AcceptsTokens Accepts Accepted)
    (hcut : Cut 0 source.toList read later before after) (h : CanContinue Accepted read) :
    ViableBefore Accepts source (units before) := by
  obtain ⟨more, lexemes, hspells, haccepted⟩ := h (0 + units before)
  have hblank : Separated (' ' :: more) := separated_cons (Or.inl rfl) more
  exact haccepts.viableBefore hcut.text_eq
    (hcut.tokenized _ _ (.separated after hblank) hspells.tokenized) haccepted

/-- A number behind a cut gets the decimals that it lacks, and the text goes on after them. -/
theorem AcceptsTokens.viableBefore_point (haccepts : AcceptsTokens Accepts Accepted)
    {lexeme : Lexeme} (hcut : Cut 0 source.toList read (lexeme :: later) before after)
    (htoken : lexeme.token = .unfinishedNumber)
    (h : ∀ (number : Lexeme) (value : Decimal), number.token = .number value →
      (Decimal.toFloat value).isFinite = true → CanContinue Accepted (read ++ [number])) :
    ViableBefore Accepts source lexeme.stop := by
  obtain ⟨digits, r, hdigits, rfl, hspelling⟩ := hcut.exists_digits htoken
  obtain ⟨decimals, value, hnumeral, hfinite⟩ := hdigits.exists_finite
  obtain ⟨number, hnumber, hspellsNumber⟩ := spells_numeral hnumeral (0 + units before)
  obtain ⟨more, lexemes, hspells, haccepted⟩ := h number value hnumber hfinite
    (0 + units before + units (digits ++ '.' :: decimals))
  have hfinished := (hspellsNumber.append (Or.inl rfl) hspells).tokenized
  -- The text goes on with the same digit as before, so that the tokens before it stay the same.
  have hreplaces : Replaces (digits ++ '.' :: decimals ++ ' ' :: more) (digits ++ '.' :: r) := by
    obtain ⟨c, digits, rfl, hc⟩ := hdigits.exists_cons
    exact .digit _ _ hc
  have hstop : lexeme.stop = units (before ++ (digits ++ ['.'])) := by
    rw [Lexeme.stop, hcut.exists_scan.1, hspelling, Nat.zero_add, ← units_append]
  have hsource : source.toList = before ++ (digits ++ ['.']) ++ r := by
    simp [hcut.text_eq]
  have htokenized := hcut.tokenized _ _ hreplaces hfinished
  have hsplit : before ++ (digits ++ '.' :: decimals ++ ' ' :: more) =
      before ++ (digits ++ ['.']) ++ (decimals ++ ' ' :: more) := by
    simp
  rw [hsplit] at htokenized
  rw [List.append_assoc] at haccepted
  rw [hstop]
  exact haccepts.viableBefore hsource htokenized haccepted

theorem BreaksOff.viableBefore {position : Nat} (haccepts : AcceptsTokens Accepts Accepted)
    (h : BreaksOff Float Accepted (units source.toList) (lex source) position) :
    ViableBefore Accepts source position := by
  generalize hlex : lex source = lexemes at h
  cases h with
  | @next read later hread =>
    obtain ⟨before, after, hcut⟩ :=
      exists_cut 0 source.toList later read hlex (haccepts.isProper_of_canContinue hread)
    rw [hcut.nextPosition_eq]
    exact haccepts.viableBefore_cut hcut hread
  | @point read lexeme later htoken hread hnumber =>
    obtain ⟨before, after, hcut⟩ := exists_cut 0 source.toList (lexeme :: later) read hlex
      (haccepts.isProper_of_canContinue hread)
    exact haccepts.viableBefore_point hcut htoken hnumber

theorem ViableBefore.le {position : Nat} (h : ViableBefore Accepts source position) :
    position ≤ units source.toList := by
  obtain ⟨before, after, -, rfl, rfl, -⟩ := h
  rw [String.toList_append, units_append]
  exact Nat.le_add_right _ _

theorem SourceTree.acceptsTokens : AcceptsTokens
    (fun text => ∃ tree : SourceTree Float Nat, SourceTree.parse text = .ok tree)
    (SourceTree.IsSum Float) := by
  constructor
  · rintro lexemes ⟨tree, hphrase⟩
    exact hphrase.isProper
  · rintro text lexemes htokenized ⟨tree, hphrase⟩
    exact ⟨tree, SourceTree.parse_eq_ok_iff_derives.2 ⟨lexemes, htokenized, hphrase⟩⟩

theorem SourceRelation.acceptsTokens : AcceptsTokens
    (fun text => ∃ r : SourceRelation Float Nat, SourceRelation.parse text = .ok r)
    (SourceRelation.IsRelation Float) := by
  constructor
  · rintro _ ⟨before, lexeme, after, relation, rfl, htoken, ⟨lhs, hlhs⟩, ⟨rhs, hrhs⟩⟩
    rw [List.forall_mem_append, List.forall_mem_cons, htoken]
    exact ⟨hlhs.isProper, trivial, hrhs.isProper⟩
  · rintro text _ htokenized ⟨before, lexeme, after, relation, rfl, htoken, ⟨lhs, hlhs⟩, rhs, hrhs⟩
    refine ⟨{ lhs := lhs, relation := relation, rhs := rhs }, SourceRelation.parse_of_derives ?_⟩
    exact ⟨before, lexeme, after, htokenized, htoken, hlhs, hrhs⟩

end Texts

/-- A syntax error shows inside the text or at its end, and the text in front of it can be
continued to one that is accepted. -/
theorem syntaxError_position_viable (source : String) :
    (∀ e, (SourceTree.parse source : Except SyntaxError (SourceTree Float Nat)) = .error e →
      e.position ≤ units source.toList ∧ ViableBefore (fun text =>
        ∃ tree : SourceTree Float Nat, SourceTree.parse text = .ok tree) source e.position) ∧
    (∀ e, (SourceRelation.parse source : Except SyntaxError (SourceRelation Float Nat)) =
        .error e →
      e.position ≤ units source.toList ∧ ViableBefore (fun text =>
        ∃ r : SourceRelation Float Nat, SourceRelation.parse text = .ok r) source e.position) := by
  constructor
  · intro e h
    have hviable := (SourceTree.breaksOff_of_parse h).viableBefore SourceTree.acceptsTokens
    exact ⟨hviable.le, hviable⟩
  · intro e h
    have hviable := (SourceRelation.breaksOff_of_parse h).viableBefore SourceRelation.acceptsTokens
    exact ⟨hviable.le, hviable⟩

end NamedConstants
