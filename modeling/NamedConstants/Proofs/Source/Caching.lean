import NamedConstants.Proofs.InsertionMap
import NamedConstants.Source.Cache

/-!
Caches of parsed texts can not be told apart by what they answer. A cache that holds nothing
but what parsing gives answers like the parser, and requests keep it like that.
-/
namespace NamedConstants

namespace RecentCache

variable {ν ε : Type} {compute : String → Except ε ν} {c c' : RecentCache ν}

/-- Every value in the cache is the one that is computed for its text. -/
def Faithful (compute : String → Except ε ν) (c : RecentCache ν) : Prop :=
  ∀ text value, c.entries.get? text = some value → compute text = .ok value

theorem get?_of_get?_trim {m : InsertionMap String ν} {text : String} {value : ν}
    (h : (trim m).get? text = some value) : m.get? text = some value := by
  rw [← InsertionMap.mem_entries_iff] at h ⊢
  simp only [trim] at h
  exact List.mem_of_mem_drop h

namespace Faithful

theorem insert (h : c.Faithful compute) {text : String} {value : ν}
    (hvalue : compute text = .ok value) {m : InsertionMap String ν}
    (hm : ∀ other kept, m.get? other = some kept → c.entries.get? other = some kept) :
    Faithful compute { entries := m.insert text value } := by
  intro other kept hkept
  rw [InsertionMap.get?_insert] at hkept
  split at hkept
  · rename_i hother
    rw [hother, ← Option.some.inj hkept, hvalue]
  · exact h other kept (hm other kept hkept)

/-- A faithful cache fails where computing fails, and otherwise gives the computed value. -/
theorem request_cases (h : c.Faithful compute) (text : String) :
    (∃ error, compute text = .error error ∧ c.request compute text = .error error) ∨
      ∃ value c', compute text = .ok value ∧ c.request compute text = .ok (value, c') ∧
        c'.Faithful compute := by
  unfold request
  cases hkept : c.entries.get? text with
  | some value =>
    have hvalue := h text value hkept
    refine Or.inr ⟨value, _, hvalue, rfl, h.insert hvalue fun other kept hother => ?_⟩
    rw [InsertionMap.get?_erase] at hother
    split at hother
    · cases hother
    · exact hother
  | none =>
    cases hvalue : compute text with
    | error error => exact Or.inl ⟨error, rfl, rfl⟩
    | ok value =>
      refine Or.inr ⟨value, _, rfl, rfl, fun other kept hother => ?_⟩
      exact h.insert hvalue (fun _ _ => id) other kept (get?_of_get?_trim hother)

/-- Faithful caches answer alike, and they stay faithful. -/
theorem request_agrees (h : c.Faithful compute) (h' : c'.Faithful compute) (text : String) :
    (∃ error, c.request compute text = .error error ∧ c'.request compute text = .error error) ∨
      ∃ value next next', c.request compute text = .ok (value, next) ∧
        c'.request compute text = .ok (value, next') ∧
        next.Faithful compute ∧ next'.Faithful compute := by
  rcases h.request_cases text with ⟨error, hvalue, heq⟩ | ⟨value, next, hvalue, heq, hnext⟩ <;>
    rcases h'.request_cases text with
      ⟨error', hvalue', heq'⟩ | ⟨value', next', hvalue', heq', hnext'⟩ <;>
    rw [hvalue] at hvalue' <;> cases hvalue'
  · exact Or.inl ⟨error, heq, heq'⟩
  · exact Or.inr ⟨value, next, next', heq, heq', hnext, hnext'⟩

end Faithful

end RecentCache

namespace ParseCache

variable {α : Type} [Arithmetic α] {c c' : ParseCache α}

structure Faithful (c : ParseCache α) : Prop where
  expressions : c.expressions.Faithful SourceTree.parse
  relations : c.relations.Faithful SourceRelation.parse

theorem faithful_empty : (∅ : ParseCache α).Faithful where
  expressions := fun _ _ h => by cases h
  relations := fun _ _ h => by cases h

namespace Faithful

/-- Faithful caches read a text in the same way, and they stay faithful. -/
theorem expression_agrees (h : c.Faithful) (h' : c'.Faithful) (text : String) :
    (∃ error, c.expression text = .error error ∧ c'.expression text = .error error) ∨
      ∃ tree next next', c.expression text = .ok (tree, next) ∧
        c'.expression text = .ok (tree, next') ∧ next.Faithful ∧ next'.Faithful := by
  unfold expression
  rcases h.expressions.request_agrees h'.expressions text with
    ⟨error, heq, heq'⟩ | ⟨tree, next, next', heq, heq', hnext, hnext'⟩ <;> rw [heq, heq']
  · exact Or.inl ⟨error, rfl, rfl⟩
  · exact Or.inr ⟨tree, _, _, rfl, rfl, ⟨hnext, h.relations⟩, ⟨hnext', h'.relations⟩⟩

theorem relation_agrees (h : c.Faithful) (h' : c'.Faithful) (text : String) :
    (∃ error, c.relation text = .error error ∧ c'.relation text = .error error) ∨
      ∃ relation next next', c.relation text = .ok (relation, next) ∧
        c'.relation text = .ok (relation, next') ∧ next.Faithful ∧ next'.Faithful := by
  unfold relation
  rcases h.relations.request_agrees h'.relations text with
    ⟨error, heq, heq'⟩ | ⟨relation, next, next', heq, heq', hnext, hnext'⟩ <;> rw [heq, heq']
  · exact Or.inl ⟨error, rfl, rfl⟩
  · exact Or.inr ⟨relation, _, _, rfl, rfl, ⟨h.expressions, hnext⟩, ⟨h'.expressions, hnext'⟩⟩

end Faithful

end ParseCache

end NamedConstants
