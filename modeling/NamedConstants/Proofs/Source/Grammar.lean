import NamedConstants.Source.Parse

/-!
The grammar of source texts, stated without a reader. On the level of characters, numerals
and names are the longest ones at their place, and blanks stand between tokens but not
inside one. On the level of tokens, products bind tighter than sums, both group to the left,
and signs bind tighter than products.
-/
namespace NamedConstants

namespace Token

/-- A word of some class that no longer word of the class continues in the text. -/
structure Longest (Word : List Char → Prop) (word rest : List Char) : Prop where
  mem : Word word
  length_le : ∀ other, other <+: word ++ rest → Word other → other.length ≤ word.length

def IsDigits (digits : List Char) : Prop := digits ≠ [] ∧ ∀ c ∈ digits, isDigit c = true

/-- An exponent with its value; it may be left out, but it cannot do without a digit. -/
inductive IsExponent : Int → List Char → Prop where
  | absent : IsExponent 0 []
  | unsigned {mark : Char} {digits : List Char} (hmark : mark = 'e' ∨ mark = 'E')
      (hdigits : IsDigits digits) : IsExponent (natOfDigits digits) (mark :: digits)
  | positive {mark : Char} {digits : List Char} (hmark : mark = 'e' ∨ mark = 'E')
      (hdigits : IsDigits digits) : IsExponent (natOfDigits digits) (mark :: '+' :: digits)
  | negative {mark : Char} {digits : List Char} (hmark : mark = 'e' ∨ mark = 'E')
      (hdigits : IsDigits digits) : IsExponent (-(natOfDigits digits : Int)) (mark :: '-' :: digits)

/-- A numeral with its value: digits, or a decimal point and digits that may have digits
in front of it. -/
inductive IsNumeral : Decimal → List Char → Prop where
  | whole {digits exponent : List Char} {e : Int} (hdigits : IsDigits digits)
      (hexponent : IsExponent e exponent) :
      IsNumeral { coefficient := natOfDigits digits, exponent := e } (digits ++ exponent)
  | fractional {digits decimals exponent : List Char} {e : Int}
      (hdigits : ∀ c ∈ digits, isDigit c = true) (hdecimals : IsDigits decimals)
      (hexponent : IsExponent e exponent) :
      IsNumeral { coefficient := natOfDigits (digits ++ decimals), exponent := e - decimals.length }
        (digits ++ '.' :: (decimals ++ exponent))

def IsName : List Char → Prop
  | [] => False
  | c :: rest => isNameStart c = true ∧ ∀ d ∈ rest, isNamePart d = true

inductive Spelled : Token → List Char → List Char → Prop where
  | number {value : Decimal} {word rest : List Char} (hvalue : IsNumeral value word)
      (hlongest : Longest (fun w => ∃ d, IsNumeral d w) word rest) :
      Spelled (.number value) word rest
  | name {word rest : List Char} (hlongest : Longest IsName word rest) : Spelled .name word rest
  | add (rest : List Char) : Spelled (.op .add) ['+'] rest
  | sub (rest : List Char) : Spelled (.op .sub) ['-'] rest
  | mul (rest : List Char) : Spelled (.op .mul) ['*'] rest
  | div (rest : List Char) : Spelled (.op .div) ['/'] rest
  | openParen (rest : List Char) : Spelled .openParen ['('] rest
  | closeParen (rest : List Char) : Spelled .closeParen [')'] rest
  | equal (rest : List Char) : Spelled (.relation .equal) ['=', '='] rest
  | atMost (rest : List Char) : Spelled (.relation .atMost) ['<', '='] rest
  | atLeast (rest : List Char) : Spelled (.relation .atLeast) ['>', '='] rest

/-- The tokens that a text consists of, when it starts at the given position. -/
inductive Tokenized : Nat → List Char → List Lexeme → Prop where
  | done {position : Nat} : Tokenized position [] []
  | blank {position : Nat} {c : Char} {rest : List Char} {lexemes : List Lexeme}
      (hblank : IsBlank c) (hrest : Tokenized (position + 1) rest lexemes) :
      Tokenized position (c :: rest) lexemes
  | token {lexeme : Lexeme} {rest : List Char} {lexemes : List Lexeme}
      (hspelled : Spelled lexeme.token lexeme.spelling rest)
      (hrest : Tokenized lexeme.stop rest lexemes) :
      Tokenized lexeme.position (lexeme.spelling ++ rest) (lexeme :: lexemes)

end Token

/-- The levels of the grammar, from the loosest to the tightest. -/
inductive PhraseLevel where
  | sum
  | product
  | signed
  | atom
deriving DecidableEq, Repr

section

variable {α : Type} [Arithmetic α]

/-- The tokens of a phrase and the tree that they stand for. -/
inductive Phrase : PhraseLevel → List Lexeme → SourceTree α Nat → Prop where
  | sumOfProduct {lexemes : List Lexeme} {tree : SourceTree α Nat}
      (h : Phrase .product lexemes tree) : Phrase .sum lexemes tree
  | sum {before after : List Lexeme} {lexeme : Lexeme} {op : BinaryOp}
      {left right : SourceTree α Nat} (hleft : Phrase .sum before left)
      (htoken : lexeme.token = .op op) (hop : op = .add ∨ op = .sub)
      (hright : Phrase .product after right) :
      Phrase .sum (before ++ lexeme :: after) (.binary op left right)
  | productOfSigned {lexemes : List Lexeme} {tree : SourceTree α Nat}
      (h : Phrase .signed lexemes tree) : Phrase .product lexemes tree
  | product {before after : List Lexeme} {lexeme : Lexeme} {op : BinaryOp}
      {left right : SourceTree α Nat} (hleft : Phrase .product before left)
      (htoken : lexeme.token = .op op) (hop : op = .mul ∨ op = .div)
      (hright : Phrase .signed after right) :
      Phrase .product (before ++ lexeme :: after) (.binary op left right)
  | minus {lexeme : Lexeme} {lexemes : List Lexeme} {tree : SourceTree α Nat}
      (htoken : lexeme.token = .op .sub) (h : Phrase .signed lexemes tree) :
      Phrase .signed (lexeme :: lexemes) (.negate tree)
  | plus {lexeme : Lexeme} {lexemes : List Lexeme} {tree : SourceTree α Nat}
      (htoken : lexeme.token = .op .add) (h : Phrase .signed lexemes tree) :
      Phrase .signed (lexeme :: lexemes) tree
  | signedOfAtom {lexemes : List Lexeme} {tree : SourceTree α Nat}
      (h : Phrase .atom lexemes tree) : Phrase .signed lexemes tree
  | parens {opening closing : Lexeme} {lexemes : List Lexeme} {tree : SourceTree α Nat}
      (hopening : opening.token = .openParen) (hclosing : closing.token = .closeParen)
      (h : Phrase .sum lexemes tree) : Phrase .atom (opening :: (lexemes ++ [closing])) tree
  | number {lexeme : Lexeme} {value : Decimal} (htoken : lexeme.token = .number value)
      (hfinite : Arithmetic.isFinite (Arithmetic.ofDecimal value : α) = true) :
      Phrase .atom [lexeme] (.number (Arithmetic.ofDecimal value))
  | name {lexeme : Lexeme} (htoken : lexeme.token = .name) :
      Phrase .atom [lexeme] (.name lexeme.text lexeme.position)

def SourceTree.Derives (source : String) (tree : SourceTree α Nat) : Prop :=
  ∃ lexemes, Token.Tokenized 0 source.toList lexemes ∧ Phrase .sum lexemes tree

def SourceRelation.Derives (source : String) (r : SourceRelation α Nat) : Prop :=
  ∃ before lexeme after, Token.Tokenized 0 source.toList (before ++ lexeme :: after) ∧
    lexeme.token = .relation r.relation ∧ Phrase .sum before r.lhs ∧ Phrase .sum after r.rhs

end

end NamedConstants
