import NamedConstants.Proofs.Expr.Grouping
import NamedConstants.Proofs.Source.Spelling
import NamedConstants.Source.Bind

/-!
Printed expressions against the grammar. Parentheses are left out where the grammar reads
the operand at the level it stands at, and around a right operand of equal precedence under
`+` or `*`. There the grammar groups to the left: such an operand goes on with the phrase
before it. So of an expression two things are said, what its tokens are by themselves and
what they are as a right operand.
-/
namespace NamedConstants

open Token

def BinaryOp.level : BinaryOp → PhraseLevel
  | add | sub => .sum
  | mul | div => .product

def BinaryOp.rightLevel : BinaryOp → PhraseLevel
  | add | sub => .product
  | mul | div => .signed

theorem BinaryOp.level_eq {op inner : BinaryOp} (h : inner.precedence = op.precedence) :
    inner.level = op.level := by
  revert h
  cases op <;> cases inner <;> decide

theorem BinaryOp.rightLevel_eq {op inner : BinaryOp} (h : op.precedence < inner.precedence) :
    op.rightLevel = inner.level := by
  revert h
  cases op <;> cases inner <;> decide

namespace Expr

variable {β ν : Type}

def IsLeaf : Expr β ν → Prop
  | binary .. => False
  | _ => True

/-- Every name in the expression is written as one, and it is resolved to what it names. -/
structure Resolves (label : ConstantId → String) (resolve : String → NameBinding)
    (e : Expr β String) : Prop where
  labels : ∀ id ∈ e.constantLeaves, IsName (label id).toList ∧ resolve (label id) = .constant id
  names : ∀ name ∈ e.variableLeaves, IsName name.toList ∧ resolve name = .decision name

theorem Resolves.binary {label : ConstantId → String} {resolve : String → NameBinding}
    {op : BinaryOp} {left right : Expr β String}
    (h : (binary op left right).Resolves label resolve) :
    left.Resolves label resolve ∧ right.Resolves label resolve := by
  obtain ⟨hlabels, hnames⟩ := h
  rw [constantLeaves, List.forall_mem_append] at hlabels
  rw [variableLeaves, List.forall_mem_append] at hnames
  exact ⟨⟨hlabels.1, hnames.1⟩, ⟨hlabels.2, hnames.2⟩⟩

end Expr

variable {α : Type} [Arithmetic α] {resolve : String → NameBinding}

/-- The tokens are a phrase of the level whose tree is bound to the expression. -/
def Writes (resolve : String → NameBinding) (level : PhraseLevel) (lexemes : List Lexeme)
    (e : Expr α String) : Prop :=
  ∃ tree, Phrase level lexemes tree ∧ tree.bindExpr resolve = .ok e

section Phrases

variable {op inner : BinaryOp} {before after lexemes : List Lexeme} {lexeme : Lexeme}
  {e a b : Expr α String}

theorem Writes.product_of_signed (h : Writes resolve .signed lexemes e) :
    Writes resolve .product lexemes e := by
  obtain ⟨tree, hphrase, hbind⟩ := h
  exact ⟨tree, .productOfSigned hphrase, hbind⟩

theorem Writes.sum_of_product (h : Writes resolve .product lexemes e) :
    Writes resolve .sum lexemes e := by
  obtain ⟨tree, hphrase, hbind⟩ := h
  exact ⟨tree, .sumOfProduct hphrase, hbind⟩

theorem Writes.signed_of_atom (h : Writes resolve .atom lexemes e) :
    Writes resolve .signed lexemes e := by
  obtain ⟨tree, hphrase, hbind⟩ := h
  exact ⟨tree, .signedOfAtom hphrase, hbind⟩

/-- A signed operand can stand on either side of every operator. -/
theorem Writes.of_signed (h : Writes resolve .signed lexemes e) (op : BinaryOp) :
    Writes resolve op.level lexemes e ∧ Writes resolve op.rightLevel lexemes e := by
  have hproduct := h.product_of_signed
  cases op with
  | add | sub => exact ⟨hproduct.sum_of_product, hproduct⟩
  | mul | div => exact ⟨hproduct, h⟩

/-- A phrase can stand to the left of an operator that does not bind tighter. -/
theorem Writes.loosen (hnot : ¬ inner.precedence < op.precedence)
    (h : Writes resolve inner.level lexemes e) : Writes resolve op.level lexemes e := by
  cases op <;> cases inner <;>
    first | exact h | exact h.sum_of_product | exact absurd (by decide) hnot

theorem Writes.operation (hleft : Writes resolve op.level before a)
    (htoken : lexeme.token = .op op) (hright : Writes resolve op.rightLevel after b) :
    Writes resolve op.level (before ++ lexeme :: after) (.binary op a b) := by
  obtain ⟨left, hleft, hbindLeft⟩ := hleft
  obtain ⟨right, hright, hbindRight⟩ := hright
  refine ⟨.binary op left right, ?_, ?_⟩
  · cases op with
    | add => exact .sum hleft htoken (Or.inl rfl) hright
    | sub => exact .sum hleft htoken (Or.inr rfl) hright
    | mul => exact .product hleft htoken (Or.inl rfl) hright
    | div => exact .product hleft htoken (Or.inr rfl) hright
  · unfold SourceTree.bindExpr at hbindLeft hbindRight ⊢
    rw [SourceTree.bindWith, hbindLeft, hbindRight]
    rfl

theorem Writes.parens {opening closing : Lexeme} (h : Writes resolve .sum lexemes e)
    (hopening : opening.token = .openParen) (hclosing : closing.token = .closeParen) :
    Writes resolve .atom (opening :: (lexemes ++ [closing])) e := by
  obtain ⟨tree, hphrase, hbind⟩ := h
  exact ⟨tree, .parens hopening hclosing hphrase, hbind⟩

end Phrases

section Parentheses

namespace Expr

variable {β ν : Type} {op outer : BinaryOp} {e left right : Expr β ν}

/-- A right operand in parentheses stays where it is. -/
theorem NeedsParens.not_regroupsUnder (h : e.NeedsParens op true) : ¬ e.RegroupsUnder op := by
  cases e with
  | binary inner l r =>
    rintro ⟨hop, hprecedence⟩
    rcases h with hlooser | ⟨-, -, hop'⟩
    · omega
    · rcases hop with rfl | rfl <;> simp at hop'
  | _ => exact id

/-- So does a left operand in parentheses, when its parent is rotated. -/
theorem NeedsParens.not_regroupsUnder_of_regroups (h : e.NeedsParens op false)
    (hregroups : outer.Regroups op) : ¬ e.RegroupsUnder outer := by
  cases e with
  | binary inner l r =>
    rintro ⟨-, hprecedence⟩
    have hparent := hregroups.2
    rcases h with hlooser | ⟨⟨⟩, -⟩
    omega
  | _ => exact id

/-- A left operand without parentheses needs none as a right operand where its parent is
rotated. -/
theorem not_needsParens_of_regroups (h : ¬ e.NeedsParens op false)
    (hregroups : outer.Regroups op) : ¬ e.NeedsParens outer true := by
  cases e with
  | binary inner l r =>
    have hparent := hregroups.2
    rintro (hlooser | ⟨-, -, hop⟩)
    · exact h (Or.inl (by omega))
    · rcases hregroups.1 with rfl | rfl <;> simp at hop
  | _ => exact id

/-- A right operand that needs no parentheses and cannot be rotated binds tighter. -/
theorem precedence_lt_of_not_needsParens (h : ¬ (binary op left right).NeedsParens outer true)
    (hregroups : ¬ outer.Regroups op) : outer.precedence < op.precedence := by
  have hnot : ¬ op.precedence < outer.precedence := fun hlooser => h (Or.inl hlooser)
  by_contra hge
  have heq : op.precedence = outer.precedence := by omega
  cases outer with
  | add => exact hregroups ⟨Or.inl rfl, heq⟩
  | sub => exact h (Or.inr ⟨rfl, heq, Or.inl rfl⟩)
  | mul => exact hregroups ⟨Or.inr rfl, heq⟩
  | div => exact h (Or.inr ⟨rfl, heq, Or.inr rfl⟩)

/-- Nothing binds looser than a sum. -/
theorem not_needsParens_add : ¬ e.NeedsParens .add false := by
  cases e with
  | binary inner l r =>
    rintro (hlooser | ⟨⟨⟩, -⟩)
    revert hlooser
    cases inner <;> decide
  | _ => exact id

end Expr

end Parentheses

section Operands

/-- After an operator the tokens go on with the phrase before it, which is grouped to the
left. -/
def Continues (resolve : String → NameBinding) (op : BinaryOp) (lexemes : List Lexeme)
    (right : Expr α String) : Prop :=
  ∀ before lexeme left, lexeme.token = .op op → Writes resolve op.level before left →
    Writes resolve op.level (before ++ lexeme :: lexemes) (left.graft op right)

/-- What the tokens of an expression are where no parentheses are needed. -/
structure WrittenBare (resolve : String → NameBinding) (lexemes : List Lexeme)
    (e : Expr α String) : Prop where
  alone : ∀ op, ¬ e.NeedsParens op false → Writes resolve op.level lexemes e.leftGrouped
  after : ∀ op, ¬ e.NeedsParens op true → Continues resolve op lexemes e.leftGrouped

structure WrittenOperand (resolve : String → NameBinding) (needed : Prop) (lexemes : List Lexeme)
    (e : Expr α String) : Prop where
  enclosed : needed → Writes resolve .atom lexemes e.leftGrouped
  bare : ¬ needed → WrittenBare resolve lexemes e

variable {op outer : BinaryOp} {lexemes lexemes' : List Lexeme} {lexeme : Lexeme}
  {e left right : Expr α String} {needed : Prop}

theorem Writes.continues (h : Writes resolve op.rightLevel lexemes right)
    (hnot : ¬ right.RegroupsUnder op) : Continues resolve op lexemes right := by
  intro before lexeme left htoken hleft
  rw [Expr.graft_of_not_regroupsUnder hnot]
  exact hleft.operation htoken h

theorem WrittenOperand.before (h : WrittenOperand resolve (e.NeedsParens op false) lexemes e) :
    Writes resolve op.level lexemes e.leftGrouped := by
  by_cases hneeded : e.NeedsParens op false
  · exact ((h.enclosed hneeded).signed_of_atom.of_signed op).1
  · exact (h.bare hneeded).alone op hneeded

/-- An operand goes on with the phrase before it where it would not need parentheses, or
where it cannot be rotated. -/
theorem WrittenOperand.continues (h : WrittenOperand resolve needed lexemes e)
    (henclosed : needed → ¬ e.RegroupsUnder op) (hbare : ¬ needed → ¬ e.NeedsParens op true) :
    Continues resolve op lexemes e.leftGrouped := by
  by_cases hneeded : needed
  · apply ((h.enclosed hneeded).signed_of_atom.of_signed op).2.continues
    rw [Expr.regroupsUnder_leftGrouped_iff]
    exact henclosed hneeded
  · exact (h.bare hneeded).after op (hbare hneeded)

/-- An operation without parentheses around it, from its operands. -/
theorem WrittenOperand.operation
    (hleft : WrittenOperand resolve (left.NeedsParens op false) lexemes left)
    (hright : WrittenOperand resolve (right.NeedsParens op true) lexemes' right)
    (htoken : lexeme.token = .op op) :
    WrittenBare resolve (lexemes ++ lexeme :: lexemes') (.binary op left right) := by
  have hcontinues : Continues resolve op lexemes' right.leftGrouped :=
    hright.continues Expr.NeedsParens.not_regroupsUnder id
  have hwrites : Writes resolve op.level (lexemes ++ lexeme :: lexemes')
      (Expr.binary op left right).leftGrouped :=
    hcontinues lexemes lexeme _ htoken hleft.before
  constructor
  · intro outer hnot
    exact hwrites.loosen fun hlooser => hnot (Or.inl hlooser)
  · intro outer hnot
    by_cases hregroups : outer.Regroups op
    · -- The left operand goes on with what comes before, and the right one with both of them.
      intro before lexeme' first htoken' hbefore
      have hfirst := hleft.continues (·.not_regroupsUnder_of_regroups hregroups)
        (Expr.not_needsParens_of_regroups · hregroups) before lexeme' first htoken' hbefore
      rw [← BinaryOp.level_eq hregroups.2] at hfirst ⊢
      have hboth := hcontinues _ lexeme _ htoken hfirst
      rwa [← Expr.graft_graft hregroups, List.append_assoc] at hboth
    · have hprecedence := Expr.precedence_lt_of_not_needsParens hnot hregroups
      rw [← BinaryOp.rightLevel_eq hprecedence] at hwrites
      apply hwrites.continues
      rwa [Expr.regroupsUnder_leftGrouped_iff]

/-- A leaf needs no parentheses anywhere. -/
theorem Writes.writtenBare (h : Writes resolve .signed lexemes e) (hleaf : e.IsLeaf) :
    WrittenBare resolve lexemes e := by
  have hgrouped : e.leftGrouped = e ∧ ∀ op, ¬ e.RegroupsUnder op := by
    cases e with
    | binary => exact hleaf.elim
    | _ => exact ⟨rfl, fun _ => not_false⟩
  constructor
  · intro op _
    rw [hgrouped.1]
    exact (h.of_signed op).1
  · intro op _
    rw [hgrouped.1]
    exact (h.of_signed op).2.continues (hgrouped.2 op)

theorem WrittenBare.enclosed {opening closing : Lexeme} (h : WrittenBare resolve lexemes e)
    (hopening : opening.token = .openParen) (hclosing : closing.token = .closeParen) :
    Writes resolve .atom (opening :: (lexemes ++ [closing])) e.leftGrouped :=
  (h.alone .add Expr.not_needsParens_add).parens hopening hclosing

end Operands

section Texts

def operandChars (needed : Prop) [Decidable needed] (chars : List Char) : List Char :=
  if needed then '(' :: (chars ++ [')']) else chars

theorem Expr.toList_render_binary {β ν : Type} (number : β → String)
    (label : ConstantId → String) (name : ν → String) (op : BinaryOp) (left right : Expr β ν) :
    ((Expr.binary op left right).render number label name).toList =
      operandChars (left.NeedsParens op false) (left.render number label name).toList ++
        ' ' :: (op.symbol.toList ++ ' ' ::
          operandChars (right.NeedsParens op true) (right.render number label name).toList) := by
  change ((if decide (left.NeedsParens op false) = true then
      "(" ++ left.render number label name ++ ")" else left.render number label name) ++ " " ++
    op.symbol ++ " " ++ (if decide (right.NeedsParens op true) = true then
      "(" ++ right.render number label name ++ ")" else right.render number label name)).toList = _
  unfold operandChars
  by_cases hleft : left.NeedsParens op false <;> by_cases hright : right.NeedsParens op true <;>
    simp [hleft, hright]

def ReadsAs (text : String) (x : α) : Prop :=
  ∃ v word, IsNumeral v word ∧ Arithmetic.isFinite (Arithmetic.ofDecimal v : α) = true ∧
    ((text.toList = word ∧ Arithmetic.ofDecimal v = x) ∨
      (text.toList = '-' :: word ∧ -Arithmetic.ofDecimal v = x))

/-- Wherever the characters stand, they are a phrase of the level for the expression. -/
def StandsFor (resolve : String → NameBinding) (level : PhraseLevel) (chars : List Char)
    (e : Expr α String) : Prop :=
  ∀ position, ∃ lexemes, Spells position chars lexemes ∧ Writes resolve level lexemes e

def Printed (resolve : String → NameBinding) (chars : List Char) (e : Expr α String) : Prop :=
  ∀ position, ∃ lexemes, Spells position chars lexemes ∧ WrittenBare resolve lexemes e

variable {chars : List Char} {e left right : Expr α String}

theorem Printed.operand (h : Printed resolve chars e) (needed : Prop) [Decidable needed]
    (position : Nat) :
    ∃ lexemes, Spells position (operandChars needed chars) lexemes ∧
      WrittenOperand resolve needed lexemes e := by
  by_cases hneeded : needed
  · obtain ⟨lexemes, hspells, hwritten⟩ := h (position + 1)
    obtain ⟨opening, closing, hopening, hclosing, henclosed⟩ := hspells.enclosed
    refine ⟨_, ?_, fun _ => hwritten.enclosed hopening hclosing, fun hnot => absurd hneeded hnot⟩
    rwa [operandChars, if_pos hneeded]
  · obtain ⟨lexemes, hspells, hwritten⟩ := h position
    refine ⟨lexemes, ?_, fun hneeded' => absurd hneeded' hneeded, fun _ => hwritten⟩
    rwa [operandChars, if_neg hneeded]

theorem standsFor_literal {text : String} {x : α} (h : ReadsAs text x) :
    StandsFor resolve .signed text.toList (.literal x : Expr α String) := by
  obtain ⟨v, word, hnumeral, hfinite, htext⟩ := h
  intro position
  rcases htext with ⟨htext, rfl⟩ | ⟨htext, rfl⟩
  · obtain ⟨lexeme, htoken, hspells⟩ := spells_numeral hnumeral position
    rw [htext]
    exact ⟨_, hspells, _, .signedOfAtom (.number htoken hfinite), rfl⟩
  · obtain ⟨lexeme, htoken, hspells⟩ := spells_numeral hnumeral (position + 1)
    obtain ⟨sign, hsign, hspells'⟩ := spells_minus hspells
    rw [htext]
    exact ⟨_, hspells', _, .minus hsign (.signedOfAtom (.number htoken hfinite)), rfl⟩

/-- A name stands for the leaf that it is resolved to. -/
theorem standsFor_name {name : String} (hname : IsName name.toList)
    (hresolve : (resolve name).toExpr = .ok e) : StandsFor resolve .signed name.toList e := by
  intro position
  obtain ⟨lexeme, htoken, rfl, hspells⟩ := spells_name hname position
  refine ⟨_, hspells, _, .signedOfAtom (.name htoken), ?_⟩
  unfold SourceTree.bindExpr
  rw [SourceTree.bindWith, hresolve]
  rfl

theorem StandsFor.operation {chars' : List Char} (op : BinaryOp)
    (hleft : StandsFor resolve op.level chars left)
    (hright : StandsFor resolve op.rightLevel chars' right) :
    StandsFor resolve op.level (chars ++ ' ' :: (op.symbol.toList ++ ' ' :: chars'))
      (.binary op left right) := by
  intro position
  obtain ⟨lexemes, hspells, hwrites⟩ := hleft position
  obtain ⟨lexemes', hspells', hwrites'⟩ := hright _
  obtain ⟨lexeme, htoken, hboth⟩ := hspells.around op.spelled hspells'
  exact ⟨_, hboth, hwrites.operation htoken hwrites'⟩

theorem StandsFor.sum_of_product (h : StandsFor resolve .product chars e) :
    StandsFor resolve .sum chars e :=
  fun position => (h position).imp fun _ hwritten => ⟨hwritten.1, hwritten.2.sum_of_product⟩

theorem StandsFor.product_of_signed (h : StandsFor resolve .signed chars e) :
    StandsFor resolve .product chars e :=
  fun position => (h position).imp fun _ hwritten => ⟨hwritten.1, hwritten.2.product_of_signed⟩

theorem StandsFor.printed (h : StandsFor resolve .signed chars e) (hleaf : e.IsLeaf) :
    Printed resolve chars e :=
  fun position => (h position).imp fun _ hwritten => ⟨hwritten.1, hwritten.2.writtenBare hleaf⟩

theorem Printed.binary {chars' : List Char} {op : BinaryOp} (hleft : Printed resolve chars left)
    (hright : Printed resolve chars' right) :
    Printed resolve
      (operandChars (left.NeedsParens op false) chars ++
        ' ' :: (op.symbol.toList ++ ' ' :: operandChars (right.NeedsParens op true) chars'))
      (.binary op left right) := by
  intro position
  obtain ⟨lexemes, hspells, hwritten⟩ := hleft.operand (left.NeedsParens op false) position
  obtain ⟨lexemes', hspells', hwritten'⟩ := hright.operand (right.NeedsParens op true) _
  obtain ⟨lexeme, htoken, hboth⟩ := hspells.around op.spelled hspells'
  exact ⟨_, hboth, hwritten.operation hwritten' htoken⟩

/-- The text of an expression is written for it. -/
theorem printed_render {number : α → String} {label : ConstantId → String}
    (hliterals : ∀ x ∈ e.literals, ReadsAs (number x) x) (hnames : e.Resolves label resolve) :
    Printed resolve (e.render number label id).toList e := by
  induction e with
  | literal value =>
    exact (standsFor_literal (hliterals value (List.mem_singleton_self _))).printed trivial
  | constant id =>
    obtain ⟨hname, hresolve⟩ := hnames.labels id (List.mem_singleton_self _)
    have hleaf : (resolve (label id)).toExpr = .ok (Expr.constant id : Expr α String) := by
      rw [hresolve]
      rfl
    exact (standsFor_name hname hleaf).printed trivial
  | var name =>
    obtain ⟨hname, hresolve⟩ := hnames.names name (List.mem_singleton_self _)
    have hleaf : (resolve name).toExpr = .ok (Expr.var name : Expr α String) := by
      rw [hresolve]
      rfl
    exact (standsFor_name hname hleaf).printed trivial
  | binary op left right ihleft ihright =>
    obtain ⟨hleft, hright⟩ := hnames.binary
    rw [Expr.literals, List.forall_mem_append] at hliterals
    rw [Expr.toList_render_binary]
    exact (ihleft hliterals.1 hleft).binary (ihright hliterals.2 hright)

end Texts

end NamedConstants
