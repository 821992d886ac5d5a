import NamedConstants.Proofs.Constants.Coherent

/-!
Sequences of calls on a table of constants. A rejected definition leaves the table as
it was. However a table was reached from the empty one, it is coherent.
-/
namespace NamedConstants

inductive TableCall (α : Type) where
  | declare (label : String)
  | set (id : ConstantId) (input : Formula α)
deriving DecidableEq, Repr

namespace ConstantTable

variable {α : Type} [Arithmetic α] [DecidableEq α]

def perform (t : ConstantTable α) : TableCall α → ConstantTable α
  | .declare label => (t.declare label).2
  | .set id input =>
    match t.set id input with
    | .ok (t', _) => t'
    | .error _ => t

def after (t : ConstantTable α) (calls : List (TableCall α)) : ConstantTable α :=
  calls.foldl perform t

theorem after_append (t : ConstantTable α) (first second : List (TableCall α)) :
    t.after (first ++ second) = (t.after first).after second :=
  List.foldl_append

theorem coherent_perform {t : ConstantTable α} (ht : t.Coherent) (call : TableCall α) :
    (t.perform call).Coherent := by
  cases call with
  | declare label => exact ⟨ht.linked, ht.valueOf?_eq, ht.isFinite⟩
  | set id input =>
    simp only [perform]
    cases hset : t.set id input with
    | error fault => exact ht
    | ok result => exact ht.of_set hset

theorem coherent_after {t : ConstantTable α} (ht : t.Coherent) (calls : List (TableCall α)) :
    (t.after calls).Coherent := by
  induction calls generalizing t with
  | nil => exact ht
  | cons call calls ih => exact ih (coherent_perform ht call)

/-- Whatever was redefined, and whatever was attempted, no constant reaches itself
through the formulas of the table. -/
theorem mentions_acyclic (calls : List (TableCall α)) (id : ConstantId) :
    ¬ Relation.TransGen ((∅ : ConstantTable α).after calls).Mentions id id :=
  (coherent_after coherent_empty calls).linked.acyclic id

end ConstantTable

end NamedConstants
