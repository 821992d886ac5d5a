import NamedConstants.Source.Token
import NamedConstants.Source.Tree

/-!
Reading of expressions and relations. The reader takes one token at a time. Between
tokens it knows the sums and products still waiting for their right operand, at the
current level and at every level of parentheses around it, so whatever it has accepted
can be continued to a complete text. The first token that does not fit is reported.
-/
namespace NamedConstants

inductive SyntaxFault where
  | unexpectedEnd
  | unexpectedToken (first : Char)
  | expectedClosingParen
  | missingFraction
  | invalidNumber (text : String)
  | relationInExpression
  | expectedRelation
  | secondRelation
  | misrelation (misrelation : Misrelation)
deriving DecidableEq, Repr

namespace SyntaxFault

def detail : SyntaxFault → String
  | unexpectedEnd => "Unexpected end of input"
  | unexpectedToken first => "Unexpected token \"" ++ toString (leadingUnit first) ++ "\""
  | expectedClosingParen => "Expected \")\""
  | missingFraction => "Expected digits after decimal point"
  | invalidNumber text => "Invalid number \"" ++ text ++ "\""
  | relationInExpression => "Relation operators are not allowed in a constant expression"
  | expectedRelation => "Expected a relation (\"==\", \"<=\" or \">=\")"
  | secondRelation => "Only one relation operator is allowed in a constraint"
  | misrelation .notEqual => "\"!=\" is not a linear relation"
  | misrelation .strict => "Strict inequalities are not supported; use \"<=\" or \">=\""
  | misrelation .singleEquals => "Expected \"==\" for equality"

end SyntaxFault

structure SyntaxError where
  fault : SyntaxFault
  position : Nat
deriving DecidableEq, Repr

namespace SyntaxError

def message (source : String) (e : SyntaxError) : String :=
  pointAt source e.fault.detail e.position

end SyntaxError

/-- What stands before the next operand of a sum: a left operand waiting for a sum, one
waiting for a product, and minus signs. -/
structure OperandGap (α : Type) where
  sum : Option (SourceTree α Nat × BinaryOp) := none
  product : Option (SourceTree α Nat × BinaryOp) := none
  negations : Nat := 0
deriving DecidableEq, Repr

def completed {α ρ : Type} : Option (SourceTree α ρ × BinaryOp) → SourceTree α ρ → SourceTree α ρ
  | none, right => right
  | some (left, op), right => .binary op left right

def SourceTree.negated {α ρ : Type} : Nat → SourceTree α ρ → SourceTree α ρ
  | 0, operand => operand
  | n + 1, operand => .negate (operand.negated n)

def OperandGap.fill {α : Type} (gap : OperandGap α) (operand : SourceTree α Nat) :
    SourceTree α Nat :=
  completed gap.product (operand.negated gap.negations)

/-- Where the reader stands: before an operand or after one. The gaps of the levels
around the current one come innermost first. -/
inductive ReaderState (α : Type) where
  | beforeOperand (gap : OperandGap α) (outer : List (OperandGap α))
  | afterOperand (sum : Option (SourceTree α Nat × BinaryOp)) (product : SourceTree α Nat)
      (outer : List (OperandGap α))
deriving DecidableEq, Repr

namespace ReaderState

variable {α : Type}

def start : ReaderState α := beforeOperand {} []

def filled (gap : OperandGap α) (outer : List (OperandGap α)) (operand : SourceTree α Nat) :
    ReaderState α :=
  afterOperand gap.sum (gap.fill operand) outer

end ReaderState

namespace SourceTree

variable {α : Type} [Arithmetic α]

/-- Reads the longest sum at the start of a token list. Also returns the tokens from
the first one on that cannot belong to the sum. `stop` is the position of the end. -/
def readSum (stop : Nat) : ReaderState α → List Lexeme →
    Except SyntaxError (SourceTree α Nat × List Lexeme)
  | .beforeOperand _ _, [] => .error ⟨.unexpectedEnd, stop⟩
  | .beforeOperand gap outer, lexeme :: rest =>
    match lexeme.token with
    | .op .sub =>
      readSum stop (.beforeOperand { gap with negations := gap.negations + 1 } outer) rest
    | .op .add => readSum stop (.beforeOperand gap outer) rest
    | .openParen => readSum stop (.beforeOperand {} (gap :: outer)) rest
    | .number decimal =>
      let value := Arithmetic.ofDecimal decimal
      if Arithmetic.isFinite value then readSum stop (.filled gap outer (number value)) rest
      else .error ⟨.invalidNumber lexeme.text, lexeme.position⟩
    | .name => readSum stop (.filled gap outer (name lexeme.text lexeme.position)) rest
    | .unfinishedNumber => .error ⟨.missingFraction, lexeme.stop⟩
    | _ => .error ⟨.unexpectedToken lexeme.first, lexeme.position⟩
  | .afterOperand sum product [], [] => .ok (completed sum product, [])
  | .afterOperand _ _ (_ :: _), [] => .error ⟨.expectedClosingParen, stop⟩
  | .afterOperand sum product outer, lexeme :: rest =>
    match lexeme.token, outer with
    | .op .add, _ =>
      readSum stop (.beforeOperand { sum := some (completed sum product, .add) } outer) rest
    | .op .sub, _ =>
      readSum stop (.beforeOperand { sum := some (completed sum product, .sub) } outer) rest
    | .op .mul, _ =>
      readSum stop (.beforeOperand { sum, product := some (product, .mul) } outer) rest
    | .op .div, _ =>
      readSum stop (.beforeOperand { sum, product := some (product, .div) } outer) rest
    | .closeParen, gap :: outer => readSum stop (.filled gap outer (completed sum product)) rest
    | _, [] => .ok (completed sum product, lexeme :: rest)
    | _, _ :: _ => .error ⟨.expectedClosingParen, lexeme.position⟩

def requireEnd (atRelation : SyntaxFault) : List Lexeme → Except SyntaxError Unit
  | [] => .ok ()
  | lexeme :: _ =>
    match lexeme.token with
    | .relation _ => .error ⟨atRelation, lexeme.position⟩
    | .misrelation _ => .error ⟨atRelation, lexeme.position⟩
    | _ => .error ⟨.unexpectedToken lexeme.first, lexeme.position⟩

def parse (source : String) : Except SyntaxError (SourceTree α Nat) := do
  let (tree, rest) ← readSum (units source.toList) .start (Token.lex source)
  requireEnd .relationInExpression rest
  return tree

end SourceTree

namespace SourceRelation

variable {α : Type} [Arithmetic α]

def readRelation (stop : Nat) : List Lexeme → Except SyntaxError (Relation × List Lexeme)
  | [] => .error ⟨.expectedRelation, stop⟩
  | lexeme :: rest =>
    match lexeme.token with
    | .relation relation => .ok (relation, rest)
    | .misrelation misrelation => .error ⟨.misrelation misrelation, lexeme.position⟩
    | _ => .error ⟨.unexpectedToken lexeme.first, lexeme.position⟩

def parse (source : String) : Except SyntaxError (SourceRelation α Nat) := do
  let stop := units source.toList
  let (lhs, afterLeft) ← SourceTree.readSum stop .start (Token.lex source)
  let (relation, afterRelation) ← readRelation stop afterLeft
  let (rhs, rest) ← SourceTree.readSum stop .start afterRelation
  SourceTree.requireEnd .secondRelation rest
  return { lhs, relation, rhs }

end SourceRelation

end NamedConstants
