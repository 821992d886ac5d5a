import NamedConstants.Constants.Table
import NamedConstants.Proofs.Constants.Sweep

/-!
Graphs whose edges are those of their definitions. Entering a definition keeps the
edges right in both directions. It forms no cycle either, provided that nothing it
mentions is the constant itself or depends on it: a new cycle would have to run
through the constant and come back to it along old edges.
-/
open Relation

namespace NamedConstants

section Redefinition

variable {β : Type} {r r' : β → β → Prop} {x : β}

private theorem reaches_of_redefined (hr : ∀ a b, a ≠ x → r' a b → r a b) {a : β}
    (h : ReflTransGen r' a x) : ReflTransGen r a x := by
  induction h using ReflTransGen.head_induction_on with
  | refl => exact ReflTransGen.refl
  | @head a b hab _ ih =>
    by_cases ha : a = x
    · rw [ha]
    · exact ReflTransGen.head (hr a b ha hab) ih

private theorem split_at_redefined (hr : ∀ a b, a ≠ x → r' a b → r a b) {a b : β}
    (h : TransGen r' a b) : TransGen r a b ∨ (ReflTransGen r' a x ∧ TransGen r' x b) := by
  induction h with
  | @single b hab =>
    by_cases ha : a = x
    · exact Or.inr ⟨by rw [ha], ha ▸ TransGen.single hab⟩
    · exact Or.inl (TransGen.single (hr a b ha hab))
  | @tail b c hab hbc ih =>
    rcases ih with hold | ⟨hax, hxb⟩
    · by_cases hb : b = x
      · exact Or.inr ⟨hb ▸ hab.to_reflTransGen, hb ▸ TransGen.single hbc⟩
      · exact Or.inl (hold.tail (hr b c hb hbc))
    · exact Or.inr ⟨hax, hxb.tail hbc⟩

/-- Changing the edges out of one node closes no cycle, if no new edge leads back to it. -/
theorem not_transGen_self_of_redefined (hr : ∀ a b, a ≠ x → r' a b → r a b)
    (hacyclic : ∀ a, ¬ TransGen r a a) (hnew : ∀ b, r' x b → ¬ ReflTransGen r b x) (a : β) :
    ¬ TransGen r' a a := by
  intro hcycle
  rcases split_at_redefined hr hcycle with hold | ⟨hax, hxa⟩
  · exact hacyclic a hold
  · obtain ⟨b, hxb, hbx⟩ := TransGen.head'_iff.1 (hxa.trans_left hax)
    exact hnew b hxb (reaches_of_redefined hr hbx)

end Redefinition

variable {α : Type}

namespace ConstantGraph

/-- The formula of `a` mentions `b`. -/
def Mentions (g : ConstantGraph α) (a b : ConstantId) : Prop := (g.definitionOf a).Mentions b

/-- The edges are those of the definitions, in both directions and without a cycle. -/
structure Linked (g : ConstantGraph α) : Prop where
  references_eq : ∀ id, g.referencesOf id = (g.definitionOf id).references
  mem_dependentsOf_iff : ∀ d r, d ∈ g.dependentsOf r ↔ r ∈ g.referencesOf d
  acyclic : ∀ id, ¬ TransGen g.Mentions id id

namespace Linked

variable {g : ConstantGraph α}

theorem mem_referencesOf (h : g.Linked) {d r : ConstantId} :
    r ∈ g.referencesOf d ↔ g.Mentions d r := by
  rw [h.references_eq, Definition.mem_references]
  exact Iff.rfl

theorem dependsOn_iff (h : g.Linked) {d r : ConstantId} : g.DependsOn r d ↔ g.Mentions d r :=
  (h.mem_dependentsOf_iff d r).trans h.mem_referencesOf

theorem mem_closure (h : g.Linked) {root d : ConstantId} :
    d ∈ g.closure root ↔ TransGen g.Mentions d root := by
  have hswap : Function.swap g.DependsOn = g.Mentions := by
    funext a b
    exact propext h.dependsOn_iff
  have hself : ¬ g.DependsOn root root := by
    intro hdep
    exact h.acyclic root (TransGen.single (h.dependsOn_iff.1 hdep))
  rw [ConstantGraph.mem_closure hself, ← transGen_swap, hswap]
  constructor
  · exact fun hd => hd.2
  · intro hd
    exact ⟨fun he => h.acyclic root (he ▸ hd), hd⟩

theorem root_not_mem_closure (h : g.Linked) (root : ConstantId) : root ∉ g.closure root :=
  fun hroot => h.acyclic root (h.mem_closure.1 hroot)

/-- What a constant outside of a closure mentions is outside of it too, and not its root. -/
theorem not_mem_closure_of_mentions (h : g.Linked) {root j r : ConstantId}
    (hj : j ∉ g.closure root) (hr : g.Mentions j r) : r ≠ root ∧ r ∉ g.closure root := by
  constructor
  · intro he
    exact hj (h.mem_closure.2 (TransGen.single (he ▸ hr)))
  · intro hmem
    exact hj (h.mem_closure.2 ((h.mem_closure.1 hmem).head hr))

theorem orderable (h : g.Linked) (members : List ConstantId) : g.Orderable members where
  mem_dependentsOf d _ r _ := h.mem_dependentsOf_iff d r
  acyclic d hd := h.acyclic d (TransGen.mono
    (fun a b (hab : g.MemberReference members a b) => h.mem_referencesOf.1 hab.2.2) d d hd)

/-- A sweep comes to every constant after those that its formula mentions. -/
theorem sequential_sweepOrder (h : g.Linked) (root : ConstantId) :
    g.Sequential (g.sweepOrder root) :=
  (h.orderable _).sequential_sweepOrder fun _ _ _ hr => h.mem_referencesOf.2 hr

end Linked

theorem Linked.setValues {g : ConstantGraph α} (h : g.Linked)
    (values : InsertionMap ConstantId (Option α)) : (g.setValues values).Linked where
  references_eq id := by
    rw [referencesOf_setValues, definitionOf_setValues, h.references_eq]
  mem_dependentsOf_iff d r := by
    rw [dependentsOf_setValues, referencesOf_setValues, h.mem_dependentsOf_iff]
  acyclic := by
    have hmentions : (g.setValues values).Mentions = g.Mentions := by
      funext a b
      unfold Mentions
      rw [definitionOf_setValues]
    rw [hmentions]
    exact h.acyclic

end ConstantGraph

namespace ConstantTable

variable {g : ConstantGraph α} {id : ConstantId}

theorem referencesOf_relink (references : InsertionSet ConstantId) (j : ConstantId) :
    (relink g id references).referencesOf j = if j = id then references else g.referencesOf j :=
  InsertionMap.getD_insert _ _ _ _ _

theorem dependentsOf_relink (references : InsertionSet ConstantId) (r : ConstantId) :
    (relink g id references).dependentsOf r =
      let cleared :=
        if r ∈ g.referencesOf id then (g.dependentsOf r).erase id else g.dependentsOf r
      if r ∈ references then cleared.insert id else cleared := by
  have hcleared := InsertionMap.getD_foldl_insert (fun members => members.erase id) ∅
    (g.referencesOf id).toList (g.referencesOf id).nodup g.dependents r
  have hlinked := InsertionMap.getD_foldl_insert
    (fun members : InsertionSet ConstantId => members.insert id) ∅ references.toList
    references.nodup (relink g id ∅).dependents r
  rw [show (relink g id ∅).dependents.getD r ∅ = _ from hcleared] at hlinked
  exact hlinked

theorem mem_dependentsOf_relink {references : InsertionSet ConstantId} {d r : ConstantId} :
    d ∈ (relink g id references).dependentsOf r ↔
      (d = id ∧ r ∈ references) ∨ (d ∈ g.dependentsOf r ∧ ¬ (d = id ∧ r ∈ g.referencesOf id)) := by
  rw [dependentsOf_relink]
  by_cases hold : r ∈ g.referencesOf id <;> by_cases hnew : r ∈ references <;>
    simp [hold, hnew, and_comm]

theorem definitionOf_enter (definition : Definition α) (value : α) (j : ConstantId) :
    (enter g id definition value).definitionOf j =
      if j = id then definition else g.definitionOf j :=
  InsertionMap.getD_insert _ _ _ _ _

theorem valueOf?_enter (definition : Definition α) (value : α) (j : ConstantId) :
    (enter g id definition value).valueOf? j = if j = id then some value else g.valueOf? j :=
  InsertionMap.get?_insert _ _ _ _

/-- Entering a definition keeps the graph linked, if it mentions no dependent. -/
theorem linked_enter (h : g.Linked) {definition : Definition α} (value : α)
    (hself : ¬ definition.Mentions id)
    (hnew : ∀ r, definition.Mentions r → r ∉ g.closure id) :
    (enter g id definition value).Linked where
  references_eq j := by
    rw [definitionOf_enter]
    refine (referencesOf_relink definition.references j).trans ?_
    by_cases hj : j = id
    · rw [if_pos hj, if_pos hj]
    · rw [if_neg hj, if_neg hj, h.references_eq]
  mem_dependentsOf_iff d r := by
    refine mem_dependentsOf_relink.trans ?_
    rw [show (enter g id definition value).referencesOf d = _ from
      referencesOf_relink definition.references d, h.mem_dependentsOf_iff]
    by_cases hd : d = id
    · subst hd
      simp
    · simp [hd]
  acyclic := by
    have hdef (j : ConstantId) : (enter g id definition value).definitionOf j =
        if j = id then definition else g.definitionOf j := definitionOf_enter definition value j
    refine not_transGen_self_of_redefined (r := g.Mentions) (x := id) ?_ h.acyclic ?_
    · intro a b ha hab
      unfold ConstantGraph.Mentions at hab
      rwa [hdef, if_neg ha] at hab
    · intro b hb hpath
      unfold ConstantGraph.Mentions at hb
      rw [hdef, if_pos rfl] at hb
      rcases reflTransGen_iff_eq_or_transGen.1 hpath with heq | htrans
      · exact hself (heq ▸ hb)
      · exact hnew b hb (h.mem_closure.2 htrans)

end ConstantTable

end NamedConstants
