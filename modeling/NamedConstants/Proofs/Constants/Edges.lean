import NamedConstants.Proofs.Constants.Changes
import NamedConstants.Proofs.Constants.Runs

/-!
The edges that a table keeps against the formulas that it holds. In every table that calls
have led to, the references of a constant are what its formula mentions, all of it declared,
and the dependents of a constant are those whose references it is among. A definition is
accepted only over declared constants, and no call takes a declaration back.
-/
namespace NamedConstants.ConstantTable

variable {α : Type} [Arithmetic α] [DecidableEq α] {t t' : ConstantTable α}

omit [Arithmetic α] [DecidableEq α] in
theorem Declares.mono (hsize : t.size ≤ t'.size) {id : ConstantId} (h : t.Declares id) :
    t'.Declares id :=
  ⟨h.1, h.2.trans (Int.ofNat_le.2 hsize)⟩

def MentionsDeclared (t : ConstantTable α) : Prop := ∀ a b, t.Mentions a b → t.Declares b

theorem mentionsDeclared_of_set (ht : t.MentionsDeclared) {id : ConstantId} {input : Formula α}
    {update : ConstantUpdate α} (h : t.set id input = .ok (t', update)) :
    t'.MentionsDeclared := by
  intro a b hab
  have hsize : t.size ≤ t'.size := by
    simp [size, labels_of_set h]
  unfold ConstantGraph.Mentions at hab
  rw [definitionOf_of_set h] at hab
  by_cases ha : a = id
  · rw [if_pos ha] at hab
    obtain ⟨value, hcheck, -⟩ := set_eq_ok h
    obtain ⟨-, -, hdeclared, -⟩ := check_eq_ok hcheck
    exact (hdeclared b hab).mono hsize
  · rw [if_neg ha] at hab
    exact (ht a b hab).mono hsize

theorem mentionsDeclared_perform (ht : t.MentionsDeclared) (call : TableCall α) :
    (t.perform call).MentionsDeclared := by
  cases call with
  | declare label =>
    have hsize : t.size ≤ (t.declare label).2.size := by
      simp [declare, size]
    intro a b hab
    exact (ht a b hab).mono hsize
  | set id input =>
    simp only [perform]
    cases hset : t.set id input with
    | error fault => exact ht
    | ok result => exact mentionsDeclared_of_set ht hset

theorem mentionsDeclared_after (ht : t.MentionsDeclared) (calls : List (TableCall α)) :
    (t.after calls).MentionsDeclared := by
  induction calls generalizing t with
  | nil => exact ht
  | cons call calls ih => exact ih (mentionsDeclared_perform ht call)

/-- After any calls, accepted or rejected, the two directions of the edges agree, and the
references of a constant are what its formula mentions: nothing if it has no formula, and
declared constants only. -/
theorem edges_follow_formulas (calls : List (TableCall α)) (a b : ConstantId) :
    let t := (∅ : ConstantTable α).after calls
    (a ∈ t.dependentsOf b ↔ b ∈ t.referencesOf a) ∧
      (b ∈ t.referencesOf a ↔
        ∃ expr, t.definitionOf a = .formula expr ∧ b ∈ expr.constantLeaves) ∧
      (b ∈ t.referencesOf a → t.Declares b) := by
  intro t
  have hlinked : t.Linked := (coherent_after coherent_empty calls).linked
  have hempty : (∅ : ConstantTable α).MentionsDeclared := by
    rintro a b ⟨expr, hexpr, -⟩
    cases hexpr
  have hdeclared : t.MentionsDeclared := mentionsDeclared_after hempty calls
  refine ⟨hlinked.mem_dependentsOf_iff a b, hlinked.mem_referencesOf, ?_⟩
  intro href
  exact hdeclared a b (hlinked.mem_referencesOf.1 href)

end NamedConstants.ConstantTable
