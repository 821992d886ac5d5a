import NamedConstants.Proofs.Constants.Linked

/-!
The invariant of the table of constants: its graph is linked, its values are what the
definitions give under these very values, and all of them are finite. Declaring
changes none of this. Setting a constant may change its value; then its dependents
are swept, and everything else mentions neither the constant nor a dependent of it.
-/
open Relation

namespace NamedConstants.ConstantTable

variable {α : Type} [Arithmetic α] {t : ConstantTable α} {id : ConstantId}

/-- The values that a new definition of `id` may use. -/
def visible (t : ConstantTable α) (id ref : ConstantId) : Option α :=
  if ref ∈ t.closure id then none else t.valueOf? ref

omit [Arithmetic α] in
theorem valueOf?_of_visible {ref : ConstantId} {x : α} (h : t.visible id ref = some x) :
    ref ∉ t.closure id ∧ t.valueOf? ref = some x := by
  unfold visible at h
  split at h
  · cases h
  · exact ⟨by assumption, h⟩

/-- What it takes for a definition to be accepted. -/
theorem check_eq_ok {definition : Definition α} {value : α}
    (h : t.check id definition = .ok value) :
    t.Declares id ∧ ¬ definition.Mentions id ∧ (∀ r, definition.Mentions r → t.Declares r) ∧
      definition.resolve id (t.visible id) = .ok value := by
  unfold check at h
  by_cases hdeclared : t.Declares id
  · by_cases hself : id ∈ definition.references
    · simp [hdeclared, hself] at h
    · simp only [hdeclared, hself, not_true_eq_false, if_false] at h
      cases hfind : definition.references.toList.find? fun ref => ¬ t.Declares ref with
      | some ref => rw [hfind] at h; cases h
      | none =>
        rw [hfind] at h
        refine ⟨hdeclared, by rwa [← Definition.mem_references], fun r hr => ?_, h⟩
        have hnot := List.find?_eq_none.1 hfind r (Definition.mem_references.2 hr)
        simpa using hnot
  · simp [hdeclared] at h

/-- A definition over declared constants other than `id`, with a value, is accepted. -/
theorem check_of_resolve {definition : Definition α} {value : α} (hdeclared : t.Declares id)
    (hself : ¬ definition.Mentions id) (hmentioned : ∀ r, definition.Mentions r → t.Declares r)
    (hresolve : definition.resolve id (t.visible id) = .ok value) :
    t.check id definition = .ok value := by
  have hnone : (definition.references.toList.find? fun ref => ¬ t.Declares ref) = none := by
    refine List.find?_eq_none.2 fun r hr => ?_
    simpa using hmentioned r (Definition.mem_references.1 hr)
  have hself' : id ∉ definition.references := mt Definition.mem_references.1 hself
  unfold check
  rw [if_neg (not_not_intro hdeclared), if_neg hself', hnone]
  exact hresolve

theorem not_mem_closure_of_check {definition : Definition α} {value : α}
    (h : t.check id definition = .ok value) {r : ConstantId} (hr : definition.Mentions r) :
    r ∉ t.closure id := by
  obtain ⟨-, -, -, hresolve⟩ := check_eq_ok h
  obtain ⟨x, hx⟩ := Definition.resolved_of_resolve hresolve hr
  exact (valueOf?_of_visible hx).1

/-- The table after a definition was accepted: swept only if the value is new. -/
theorem set_eq_ok [DecidableEq α] {input : Formula α} {t' : ConstantTable α}
    {update : ConstantUpdate α} (h : t.set id input = .ok (t', update)) :
    ∃ value, t.check id (.ofFormula input) = .ok value ∧ update.id = id ∧ update.value = value ∧
      t'.labels = t.labels ∧
      ((t.valueOf? id = some value ∧ update.changed = [] ∧ update.warnings = [] ∧
          t'.toConstantGraph = enter t.toConstantGraph id (.ofFormula input) value) ∨
        (t.valueOf? id ≠ some value ∧
          update.changed = { id, previous := t.valueOf? id, value := some value } ::
            ((enter t.toConstantGraph id (.ofFormula input) value).sweepOrder id).filterMap
              (change? (enter t.toConstantGraph id (.ofFormula input) value) t'.toConstantGraph) ∧
          update.warnings = ((enter t.toConstantGraph id (.ofFormula input) value).sweep id
            (.singleton id (some value))).warnings ∧
          t'.toConstantGraph =
            (enter t.toConstantGraph id (.ofFormula input) value).swept id value)) := by
  unfold set at h
  cases hcheck : t.check id (.ofFormula input) with
  | error fault => simp [hcheck] at h
  | ok value =>
    simp only [hcheck] at h
    by_cases hsame : t.valueOf? id = some value
    · rw [if_pos hsame] at h
      cases h
      exact ⟨value, rfl, rfl, rfl, rfl, Or.inl ⟨hsame, rfl, rfl, rfl⟩⟩
    · rw [if_neg hsame] at h
      cases h
      exact ⟨value, rfl, rfl, rfl, rfl, Or.inr ⟨hsame, rfl, rfl, rfl⟩⟩

/-- The values are those of the definitions, and the definitions form no cycle. -/
structure Coherent (t : ConstantTable α) : Prop where
  linked : t.Linked
  valueOf?_eq : ∀ id, t.valueOf? id = (t.resolve id).toOption
  isFinite : ∀ id v, t.valueOf? id = some v → Arithmetic.isFinite v = true

theorem coherent_empty : (∅ : ConstantTable α).Coherent where
  linked :=
    { references_eq := fun _ => rfl
      mem_dependentsOf_iff := fun d r => by
        constructor <;> exact fun h => absurd h (InsertionSet.not_mem_empty _)
      acyclic := fun id h => by
        obtain ⟨b, ⟨expr, hexpr, -⟩, -⟩ := TransGen.head'_iff.1 h
        cases hexpr }
  valueOf?_eq _ := rfl
  isFinite _ _ h := by cases h

namespace Coherent

variable {definition : Definition α} {value : α}

theorem valueOf?_eq_some_iff (ht : t.Coherent) (id : ConstantId) (v : α) :
    t.valueOf? id = some v ↔ t.resolve id = .ok v := by
  rw [ht.valueOf?_eq]
  cases t.resolve id <;> simp [Except.toOption]

theorem valueOf?_eq_none_iff (ht : t.Coherent) (id : ConstantId) :
    t.valueOf? id = none ↔ ∃ fault, t.resolve id = .error fault := by
  rw [ht.valueOf?_eq]
  cases t.resolve id <;> simp [Except.toOption]

theorem linked_enter (ht : t.Coherent) (h : t.check id definition = .ok value) :
    (enter t.toConstantGraph id definition value).Linked :=
  ConstantTable.linked_enter ht.linked value (check_eq_ok h).2.1
    fun _ hr => not_mem_closure_of_check h hr

theorem isFinite_of_check (ht : t.Coherent) (h : t.check id definition = .ok value) :
    Arithmetic.isFinite value = true :=
  Definition.isFinite_of_resolve
    (fun ref x hx => ht.isFinite ref x (valueOf?_of_visible hx).2) (check_eq_ok h).2.2.2

theorem isFinite_enter (ht : t.Coherent) (h : t.check id definition = .ok value)
    (j : ConstantId) (v : α)
    (hj : (enter t.toConstantGraph id definition value).valueOf? j = some v) :
    Arithmetic.isFinite v = true := by
  rw [valueOf?_enter] at hj
  split at hj
  · cases hj
    exact ht.isFinite_of_check h
  · exact ht.isFinite j v hj

/-- A value agrees with its definition in a later graph that defines the constant alike
and has the same values for everything that it mentions. -/
theorem valueOf?_eq_of_frame (ht : t.Coherent) {g : ConstantGraph α} {j : ConstantId}
    (hdef : g.definitionOf j = t.definitionOf j) (hvalue : g.valueOf? j = t.valueOf? j)
    (hmentioned : ∀ r, t.Mentions j r → g.valueOf? r = t.valueOf? r) :
    g.valueOf? j = (g.resolve j).toOption := by
  rw [hvalue, ht.valueOf?_eq]
  unfold ConstantGraph.resolve ConstantGraph.resolveWith
  rw [hdef, Definition.resolve_congr j hmentioned]

/-- The constant that was set has the value of its new definition, if what is visible
to the definition keeps its value. -/
theorem resolve_of_check {g : ConstantGraph α} (h : t.check id definition = .ok value)
    (hdef : g.definitionOf id = definition)
    (hmentioned : ∀ r, definition.Mentions r → g.valueOf? r = t.valueOf? r) :
    g.resolve id = .ok value := by
  obtain ⟨-, -, -, hresolve⟩ := check_eq_ok h
  unfold ConstantGraph.resolve ConstantGraph.resolveWith
  rw [hdef, Definition.resolve_congr id hmentioned]
  exact Definition.resolve_mono (fun ref x hx => (valueOf?_of_visible hx).2) hresolve

/-- Entering a definition with the value that the constant already has. -/
theorem enter_of_valueOf? (ht : t.Coherent) (h : t.check id definition = .ok value)
    (hsame : t.valueOf? id = some value) {t' : ConstantTable α}
    (ht' : t'.toConstantGraph = enter t.toConstantGraph id definition value) : t'.Coherent := by
  have hvalues : ∀ j, t'.valueOf? j = t.valueOf? j := by
    intro j
    rw [ht', valueOf?_enter]
    split
    · rename_i hj
      rw [hj, hsame]
    · rfl
  refine ⟨ht' ▸ ht.linked_enter h, fun j => ?_, fun j v hj => ht.isFinite j v (hvalues j ▸ hj)⟩
  by_cases hj : j = id
  · subst hj
    have hdef : t'.definitionOf j = definition := by rw [ht', definitionOf_enter, if_pos rfl]
    rw [resolve_of_check h hdef fun r _ => hvalues r, hvalues, hsame]
    rfl
  · refine ht.valueOf?_eq_of_frame ?_ (hvalues j) fun r _ => hvalues r
    rw [ht', definitionOf_enter, if_neg hj]

/-- Only the constant that is set and its dependents can get another value. -/
theorem valueOf?_frame {j : ConstantId} (hj : j ≠ id)
    (hclosure : j ∉ (enter t.toConstantGraph id definition value).closure id) :
    ((enter t.toConstantGraph id definition value).swept id value).valueOf? j = t.valueOf? j := by
  rw [ConstantGraph.valueOf?_swept_of_not_mem _ _ hclosure, valueOf?_enter, if_neg hj]

theorem definitionOf_swept (j : ConstantId) :
    ((enter t.toConstantGraph id definition value).swept id value).definitionOf j =
      if j = id then definition else t.definitionOf j := by
  rw [ConstantGraph.swept, ConstantGraph.definitionOf_setValues, definitionOf_enter]

/-- A constant that the sweep does not visit has the value of its definition. -/
theorem valueOf?_swept_of_not_mem (ht : t.Coherent) (h : t.check id definition = .ok value)
    {j : ConstantId} (hj : j ∉ (enter t.toConstantGraph id definition value).closure id) :
    ((enter t.toConstantGraph id definition value).swept id value).valueOf? j =
      (((enter t.toConstantGraph id definition value).swept id value).resolve j).toOption := by
  have hlinked := ht.linked_enter h
  have hmentioned : ∀ r, (if j = id then definition else t.definitionOf j).Mentions r →
      ((enter t.toConstantGraph id definition value).swept id value).valueOf? r =
        t.valueOf? r := by
    intro r hr
    rw [← definitionOf_enter (g := t.toConstantGraph) definition value j] at hr
    obtain ⟨hne, hmem⟩ := hlinked.not_mem_closure_of_mentions hj hr
    exact valueOf?_frame hne hmem
  have hdef : ((enter t.toConstantGraph id definition value).swept id value).definitionOf j = _ :=
    definitionOf_swept j
  by_cases hid : j = id
  · subst hid
    rw [if_pos rfl] at hmentioned hdef
    rw [resolve_of_check h hdef hmentioned, ConstantGraph.valueOf?_swept_of_not_mem _ _ hj,
      valueOf?_enter, if_pos rfl]
    rfl
  · rw [if_neg hid] at hmentioned hdef
    exact ht.valueOf?_eq_of_frame hdef (valueOf?_frame hid hj) hmentioned

/-- Entering a definition with a new value and sweeping the dependents. -/
theorem enter_swept (ht : t.Coherent) (h : t.check id definition = .ok value)
    {t' : ConstantTable α}
    (ht' : t'.toConstantGraph = (enter t.toConstantGraph id definition value).swept id value) :
    t'.Coherent := by
  have hlinked := ht.linked_enter h
  have hroot : (enter t.toConstantGraph id definition value).valueOf? id = some value := by
    rw [valueOf?_enter, if_pos rfl]
  refine ⟨ht' ▸ hlinked.setValues _, fun j => ?_, ?_⟩
  · rw [ht']
    by_cases hclosure : j ∈ (enter t.toConstantGraph id definition value).closure id
    · exact ConstantGraph.valueOf?_swept hroot (hlinked.orderable _)
        (fun d _ r hr => hlinked.mem_referencesOf.2 hr) hclosure
    · exact ht.valueOf?_swept_of_not_mem h hclosure
  · rw [ht']
    exact ConstantGraph.isFinite_swept hroot (ht.isFinite_enter h)

/-- An accepted definition leaves a coherent table behind. -/
theorem of_set [DecidableEq α] (ht : t.Coherent) {input : Formula α} {t' : ConstantTable α}
    {update : ConstantUpdate α} (h : t.set id input = .ok (t', update)) : t'.Coherent := by
  obtain ⟨value, hcheck, -, -, -, hcase⟩ := set_eq_ok h
  rcases hcase with ⟨hsame, -, -, ht'⟩ | ⟨-, -, -, ht'⟩
  · exact ht.enter_of_valueOf? hcheck hsame ht'
  · exact ht.enter_swept hcheck ht'

end Coherent

end NamedConstants.ConstantTable
