import NamedConstants.Constraint
import NamedConstants.InsertionMap

/-!
Linear forms: a coefficient for each decision variable and an offset. Sums, differences
and multiples of forms are forms. A form remembers whether its expression held a
variable at all, since coefficients may cancel, and which constants were read for it.
-/
namespace NamedConstants

structure LinearForm (α : Type) where
  coefficients : InsertionMap String α
  offset : α
  /-- A variable occurs in the expression, even if it has cancelled. -/
  hasVariable : Bool
  /-- The constants read, in order of first appearance. -/
  constants : InsertionSet ConstantId

namespace LinearForm

variable {α : Type} [Arithmetic α]

def ofNumber (value : α) : LinearForm α where
  coefficients := ∅
  offset := value
  hasVariable := false
  constants := ∅

def ofConstant (id : ConstantId) (value : α) : LinearForm α where
  coefficients := ∅
  offset := value
  hasVariable := false
  constants := .singleton id

def ofVariable (name : String) : LinearForm α where
  coefficients := .singleton name Arithmetic.one
  offset := Arithmetic.zero
  hasVariable := true
  constants := ∅

def addTerm (sign : α) (coefficients : InsertionMap String α) (term : String × α) :
    InsertionMap String α :=
  coefficients.insert term.1 (coefficients.getD term.1 Arithmetic.zero + sign * term.2)

/-- The form `left + sign * right`; variables new on the right come last. -/
def combine (sign : α) (left right : LinearForm α) : LinearForm α where
  coefficients := right.coefficients.entries.foldl (addTerm sign) left.coefficients
  offset := left.offset + sign * right.offset
  hasVariable := left.hasVariable || right.hasVariable
  constants := left.constants ∪ right.constants

def scale (f : α → α) (form : LinearForm α) : LinearForm α where
  coefficients := form.coefficients.mapValues f
  offset := f form.offset
  hasVariable := form.hasVariable
  constants := form.constants

def reading (form : LinearForm α) (constants : InsertionSet ConstantId) : LinearForm α :=
  { form with constants := constants }

end LinearForm

end NamedConstants
