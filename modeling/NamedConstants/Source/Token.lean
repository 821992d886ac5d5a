import NamedConstants.Constraint
import NamedConstants.Source.Units

/-!
The tokens of source texts. Numbers and names are as long as possible; blanks separate
tokens and never occur inside one. Every character belongs to some token: what no rule
accepts becomes a stray token, and complaining about it is left to the reader.
-/
namespace NamedConstants

/-- Comparisons that no constraint can be made of. -/
inductive Misrelation where
  | notEqual
  | strict
  | singleEquals
deriving DecidableEq, Repr

inductive Token where
  | number (value : Decimal)
  /-- Digits and a decimal point with no digit after it. -/
  | unfinishedNumber
  | name
  | op (op : BinaryOp)
  | openParen
  | closeParen
  | relation (relation : Relation)
  | misrelation (misrelation : Misrelation)
  | stray
deriving DecidableEq, Repr

structure Lexeme where
  token : Token
  first : Char
  more : List Char
  position : Nat
deriving DecidableEq, Repr

namespace Lexeme

def spelling (l : Lexeme) : List Char := l.first :: l.more

def text (l : Lexeme) : String := String.ofList l.spelling

def stop (l : Lexeme) : Nat := l.position + units l.spelling

end Lexeme

namespace Token

def IsBlank (c : Char) : Prop := c = ' ' ∨ c = '\t' ∨ c = '\n' ∨ c = '\r'

instance (c : Char) : Decidable (IsBlank c) := inferInstanceAs (Decidable (_ ∨ _))

def isDigit (c : Char) : Bool := '0' ≤ c && c ≤ '9'

def isNameStart (c : Char) : Bool :=
  ('a' ≤ c && c ≤ 'z') || ('A' ≤ c && c ≤ 'Z') || c = '_' || c = '$'

def isNamePart (c : Char) : Bool := isNameStart c || isDigit c || c = '.'

def digitsOf (l : List Char) : List Char := l.takeWhile isDigit

def natOfDigits (l : List Char) : Nat := l.foldl (fun n c => 10 * n + (c.toNat - '0'.toNat)) 0

def fractionPart : List Char → List Char
  | '.' :: rest => '.' :: digitsOf rest
  | _ => []

def signPart : List Char → List Char
  | '+' :: _ => ['+']
  | '-' :: _ => ['-']
  | _ => []

/-- An exponent mark, an optional sign and digits. Without a digit it is no exponent. -/
def exponentPart : List Char → List Char
  | [] => []
  | mark :: rest =>
    let sign := signPart rest
    let digits := digitsOf (rest.drop sign.length)
    if (mark = 'e' ∨ mark = 'E') ∧ digits ≠ [] then mark :: (sign ++ digits) else []

def exponentValue : List Char → Int
  | _ :: '-' :: digits => -(natOfDigits digits : Int)
  | _ :: '+' :: digits => natOfDigits digits
  | _ :: digits => natOfDigits digits
  | [] => 0

/-- The number at the start of a text that starts with a digit, or with a decimal point
and a digit. -/
def scanNumber (l : List Char) : Token × List Char :=
  let whole := digitsOf l
  let fraction := fractionPart (l.drop whole.length)
  if fraction = ['.'] then (.unfinishedNumber, whole ++ fraction)
  else
    let exponent := exponentPart (l.drop (whole.length + fraction.length))
    let decimals := fraction.drop 1
    (.number
      { coefficient := natOfDigits (whole ++ decimals)
        exponent := exponentValue exponent - decimals.length },
      whole ++ fraction ++ exponent)

def scanComparison (c : Char) (equals : Bool) : Token × List Char :=
  match c, equals with
  | '=', true => (.relation .equal, ['=', '='])
  | '<', true => (.relation .atMost, ['<', '='])
  | '>', true => (.relation .atLeast, ['>', '='])
  | '!', true => (.misrelation .notEqual, ['!', '='])
  | '=', false => (.misrelation .singleEquals, ['='])
  | '<', false => (.misrelation .strict, ['<'])
  | '>', false => (.misrelation .strict, ['>'])
  | c, _ => (.stray, [c])

def scan (c : Char) (rest : List Char) : Token × List Char :=
  if isDigit c || (c = '.' && (rest.head?.map isDigit).getD false) then scanNumber (c :: rest)
  else if isNameStart c then (.name, c :: rest.takeWhile isNamePart)
  else
    match c with
    | '+' => (.op .add, ['+'])
    | '-' => (.op .sub, ['-'])
    | '*' => (.op .mul, ['*'])
    | '/' => (.op .div, ['/'])
    | '(' => (.openParen, ['('])
    | ')' => (.closeParen, [')'])
    | c => scanComparison c (rest.head? = some '=')

def lexFrom (position : Nat) : List Char → List Lexeme
  | [] => []
  | c :: rest =>
    if IsBlank c then lexFrom (position + 1) rest
    else
      let (token, spelling) := scan c rest
      let lexeme : Lexeme := { token, first := c, more := spelling.drop 1, position }
      lexeme :: lexFrom lexeme.stop (rest.drop lexeme.more.length)
termination_by l => l.length
decreasing_by
  · simp
  · simp only [List.length_drop, List.length_cons]
    omega

def lex (source : String) : List Lexeme := lexFrom 0 source.toList

end Token

end NamedConstants
