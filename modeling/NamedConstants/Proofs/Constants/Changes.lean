import NamedConstants.Proofs.Constants.Coherent

/-!
The changes that an accepted definition makes and reports. What is reported is what has
another value afterwards: the constant itself, or a dependent that the sweep has visited.
Making the same definition once more is accepted and changes nothing.
-/
namespace NamedConstants

/-- Reports that name what they are about name some of the list, each once and in order. -/
theorem sublist_map_filterMap {ι β : Type} (report : ι → Option β) (subject : β → ι)
    (h : ∀ i b, report i = some b → subject b = i) (l : List ι) :
    ((l.filterMap report).map subject).Sublist l := by
  induction l with
  | nil => exact List.Sublist.refl _
  | cons i l ih =>
    rw [List.filterMap_cons]
    cases hreport : report i with
    | none => exact ih.cons i
    | some b =>
      rw [List.map_cons, h i b hreport]
      exact ih.cons_cons i

namespace ConstantTable

variable {α : Type} [Arithmetic α] [DecidableEq α] {t t' : ConstantTable α}

omit [Arithmetic α] in
theorem change?_of_ne {before after : ConstantGraph α} {id : ConstantId}
    (h : before.valueOf? id ≠ after.valueOf? id) :
    change? before after id =
      some { id, previous := before.valueOf? id, value := after.valueOf? id } :=
  if_neg h

omit [Arithmetic α] in
theorem id_of_change? {before after : ConstantGraph α} {id : ConstantId}
    {change : ConstantChange α} (h : change? before after id = some change) : change.id = id := by
  unfold change? at h
  split at h
  · cases h
  · cases h
    rfl

/-- No constant changes its value unnoticed. -/
theorem exists_change_of_valueOf?_ne {id : ConstantId} {input : Formula α}
    {update : ConstantUpdate α} (h : t.set id input = .ok (t', update)) {c : ConstantId}
    (hne : t'.valueOf? c ≠ t.valueOf? c) : ∃ change ∈ update.changed, change.id = c := by
  obtain ⟨value, -, -, -, -, hcase⟩ := set_eq_ok h
  rcases hcase with ⟨hsame, -, -, ht'⟩ | ⟨-, hchanged, -, ht'⟩
  · refine absurd ?_ hne
    rw [ht', valueOf?_enter]
    split
    · rename_i hc
      rw [hc, hsame]
    · rfl
  · rw [hchanged]
    by_cases hc : c = id
    · exact ⟨_, List.mem_cons_self .., hc.symm⟩
    · have hclosure : c ∈ (enter t.toConstantGraph id (.ofFormula input) value).closure id := by
        by_contra hnot
        rw [ht'] at hne
        exact hne (Coherent.valueOf?_frame hc hnot)
      have hentered : (enter t.toConstantGraph id (.ofFormula input) value).valueOf? c =
          t.valueOf? c := by
        rw [valueOf?_enter, if_neg hc]
      have horder := (ConstantGraph.sweepOrder_perm _ id).mem_iff.2 hclosure
      refine ⟨_, List.mem_cons_of_mem _ (List.mem_filterMap.2 ⟨c, horder, change?_of_ne ?_⟩), rfl⟩
      rw [hentered]
      exact hne.symm

/-- The second table has the labels, definitions and values of the first, and the same edges,
though perhaps listed in another order. -/
structure Unaltered (t t' : ConstantTable α) : Prop where
  labels_eq : t'.labels = t.labels
  definitionOf_eq : ∀ c, t'.definitionOf c = t.definitionOf c
  valueOf?_eq : ∀ c, t'.valueOf? c = t.valueOf? c
  mem_referencesOf_iff : ∀ c r, r ∈ t'.referencesOf c ↔ r ∈ t.referencesOf c
  mem_dependentsOf_iff : ∀ c d, d ∈ t'.dependentsOf c ↔ d ∈ t.dependentsOf c

omit [Arithmetic α] [DecidableEq α] in
/-- Entering the definition and the value that a constant has alters nothing: it is taken off
its references and put back among the dependents of the same ones. -/
theorem Unaltered.of_enter (ht : t.Linked) {id : ConstantId} {definition : Definition α} {value : α}
    (hdef : t.definitionOf id = definition) (hvalue : t.valueOf? id = some value) :
    t.Unaltered { t with toConstantGraph := enter t.toConstantGraph id definition value } where
  labels_eq := rfl
  definitionOf_eq c := by
    rw [definitionOf_enter]
    split
    · rename_i hc
      rw [hc, hdef]
    · rfl
  valueOf?_eq c := by
    rw [valueOf?_enter]
    split
    · rename_i hc
      rw [hc, hvalue]
    · rfl
  mem_referencesOf_iff c r := by
    have hreferences : (enter t.toConstantGraph id definition value).referencesOf c = _ :=
      referencesOf_relink definition.references c
    rw [hreferences]
    split
    · rename_i hc
      rw [hc, ht.references_eq, hdef]
    · rfl
  mem_dependentsOf_iff c d := by
    have hdependents : d ∈ (enter t.toConstantGraph id definition value).dependentsOf c ↔ _ :=
      mem_dependentsOf_relink
    have hreferences : t.referencesOf id = definition.references := by
      rw [ht.references_eq, hdef]
    rw [hdependents, ht.mem_dependentsOf_iff, hreferences]
    by_cases hd : d = id
    · subst hd
      simp [hreferences]
    · simp [hd]

section

variable {id : ConstantId} {input : Formula α} {update : ConstantUpdate α}

theorem definitionOf_of_set (h : t.set id input = .ok (t', update)) (j : ConstantId) :
    t'.definitionOf j = if j = id then .ofFormula input else t.definitionOf j := by
  obtain ⟨value, -, -, -, -, hcase⟩ := set_eq_ok h
  rcases hcase with ⟨-, -, -, ht'⟩ | ⟨-, -, -, ht'⟩
  · rw [ht', definitionOf_enter]
  · rw [ht', Coherent.definitionOf_swept]

theorem labels_of_set (h : t.set id input = .ok (t', update)) : t'.labels = t.labels := by
  obtain ⟨value, -, -, -, hlabels, -⟩ := set_eq_ok h
  exact hlabels

/-- The constant that was set has the value that the update says. -/
theorem valueOf?_of_set (ht : t.Coherent) (h : t.set id input = .ok (t', update)) :
    t'.valueOf? id = some update.value := by
  obtain ⟨value, hcheck, -, hvalue, -, hcase⟩ := set_eq_ok h
  have hentered : (enter t.toConstantGraph id (.ofFormula input) value).valueOf? id =
      some value := by
    rw [valueOf?_enter, if_pos rfl]
  rw [hvalue]
  rcases hcase with ⟨-, -, -, ht'⟩ | ⟨-, -, -, ht'⟩
  · rw [ht', hentered]
  · have hroot := (ht.linked_enter hcheck).root_not_mem_closure id
    rw [ht', ConstantGraph.valueOf?_swept_of_not_mem _ _ hroot, hentered]

/-- A change is reported only where the value is another one. -/
theorem valueOf?_ne_of_change (ht : t.Coherent) (h : t.set id input = .ok (t', update))
    {change : ConstantChange α} (hchange : change ∈ update.changed) :
    t'.valueOf? change.id ≠ t.valueOf? change.id := by
  have hroot := valueOf?_of_set ht h
  obtain ⟨value, hcheck, -, hvalue, -, hcase⟩ := set_eq_ok h
  rcases hcase with ⟨-, hchanged, -, -⟩ | ⟨hne, hchanged, -, -⟩
  · rw [hchanged] at hchange
    cases hchange
  · rw [hchanged] at hchange
    rcases List.mem_cons.1 hchange with rfl | hchange
    · rw [hroot, hvalue]
      exact hne.symm
    · obtain ⟨c, horder, hc⟩ := List.mem_filterMap.1 hchange
      have hclosure := (ConstantGraph.sweepOrder_perm _ id).mem_iff.1 horder
      have hcid : c ≠ id := by
        rintro rfl
        exact (ht.linked_enter hcheck).root_not_mem_closure c hclosure
      unfold change? at hc
      split at hc
      · cases hc
      · rename_i hdiffer
        rw [Option.some.injEq] at hc
        rw [valueOf?_enter, if_neg hcid] at hdiffer
        rw [← hc]
        exact fun heq => hdiffer heq.symm

/-- What a definition reads keeps its value while the definition is made. -/
theorem valueOf?_eq_of_mentions (ht : t.Coherent) (h : t.set id input = .ok (t', update))
    {r : ConstantId} (hr : (Definition.ofFormula input).Mentions r) :
    t'.valueOf? r = t.valueOf? r := by
  obtain ⟨value, hcheck, -, -, -, hcase⟩ := set_eq_ok h
  have hlinked := ht.linked_enter hcheck
  have hmentions : (enter t.toConstantGraph id (.ofFormula input) value).Mentions id r := by
    unfold ConstantGraph.Mentions
    rwa [definitionOf_enter, if_pos rfl]
  obtain ⟨hne, hmem⟩ :=
    hlinked.not_mem_closure_of_mentions (hlinked.root_not_mem_closure id) hmentions
  rcases hcase with ⟨-, -, -, ht'⟩ | ⟨-, -, -, ht'⟩
  · rw [ht', valueOf?_enter, if_neg hne]
  · rw [ht']
    exact Coherent.valueOf?_frame hne hmem

/-- The definition just made would be accepted again, with the same value. -/
theorem check_of_set (ht : t.Coherent) (h : t.set id input = .ok (t', update)) :
    t'.check id (.ofFormula input) = .ok update.value := by
  have hlinked := (ht.of_set h).linked
  have hdef : t'.definitionOf id = .ofFormula input := by rw [definitionOf_of_set h, if_pos rfl]
  have hvalues := fun r hr => valueOf?_eq_of_mentions ht h (r := r) hr
  obtain ⟨value, hcheck, -, hvalue, hlabels, -⟩ := set_eq_ok h
  obtain ⟨hdeclared, hself, hmentioned, hresolve⟩ := check_eq_ok hcheck
  have hdeclares : ∀ r, t.Declares r → t'.Declares r := by
    intro r hr
    unfold Declares size at hr ⊢
    rwa [hlabels]
  have hvisible : ∀ r, (Definition.ofFormula input).Mentions r →
      t.visible id r = t'.visible id r := by
    intro r hr
    have hmentions : t'.Mentions id r := by
      unfold ConstantGraph.Mentions
      rwa [hdef]
    have hbefore := not_mem_closure_of_check hcheck hr
    have hafter := hlinked.not_mem_closure_of_mentions (hlinked.root_not_mem_closure id) hmentions
    unfold visible
    rw [if_neg hbefore, if_neg hafter.2, hvalues r hr]
  rw [Definition.resolve_congr id hvisible] at hresolve
  rw [hvalue]
  exact check_of_resolve (hdeclares id hdeclared) hself
    (fun r hr => hdeclares r (hmentioned r hr)) hresolve

/-- Making a definition once more enters it once more, and there is nothing to sweep. -/
theorem set_again_eq (ht : t.Coherent) (h : t.set id input = .ok (t', update)) :
    t'.set id input =
      .ok ({ t' with
          toConstantGraph := enter t'.toConstantGraph id (.ofFormula input) update.value },
        { id, value := update.value, changed := [], warnings := [] }) := by
  simp only [set, check_of_set ht h, valueOf?_of_set ht h, if_true]

/-- Making a definition once more is accepted, alters nothing and warns of nothing. -/
theorem set_again (ht : t.Coherent) (h : t.set id input = .ok (t', update)) :
    ∃ t'', t'.set id input = .ok (t'',
        { id, value := update.value, changed := [], warnings := [] }) ∧ t'.Unaltered t'' := by
  have hdef : t'.definitionOf id = .ofFormula input := by rw [definitionOf_of_set h, if_pos rfl]
  exact ⟨_, set_again_eq ht h, .of_enter (ht.of_set h).linked hdef (valueOf?_of_set ht h)⟩

end

/-- Setting a constant that nothing depends on enters the definition and sweeps nothing. -/
theorem set_of_free {id : ConstantId} {input : Formula α} {value : α}
    (hcheck : t.check id (.ofFormula input) = .ok value)
    (hfree : ((enter t.toConstantGraph id (.ofFormula input) value).dependentsOf id).toList = []) :
    t.set id input =
      .ok ({ t with toConstantGraph := enter t.toConstantGraph id (.ofFormula input) value },
        { id, value, warnings := []
          changed := if t.valueOf? id = some value then []
            else [{ id, previous := t.valueOf? id, value := some value }] }) := by
  have hclosure : (enter t.toConstantGraph id (.ofFormula input) value).closure id = [] := by
    rw [ConstantGraph.closure, hfree, ConstantGraph.explore]
  have horder : (enter t.toConstantGraph id (.ofFormula input) value).sweepOrder id = [] :=
    (hclosure ▸ ConstantGraph.sweepOrder_perm _ id).eq_nil
  simp only [set, hcheck]
  by_cases hsame : t.valueOf? id = some value
  · simp only [hsame, if_true]
  · simp [hsame, horder, ConstantGraph.sweep, ConstantGraph.setValues,
      EmptyCollection.emptyCollection]

/-- Setting a number on a constant that nothing depends on. -/
theorem set_literal {id : ConstantId} {v : α} (hdeclared : t.Declares id)
    (hfinite : Arithmetic.isFinite v = true)
    (hfree : ((enter t.toConstantGraph id (.literal v) v).dependentsOf id).toList = []) :
    t.set id (.literal v) =
      .ok ({ t with toConstantGraph := enter t.toConstantGraph id (.literal v) v },
        { id, value := v, warnings := []
          changed := if t.valueOf? id = some v then []
            else [{ id, previous := t.valueOf? id, value := some v }] }) := by
  have hresolve : (Definition.literal v).resolve id (t.visible id) = .ok v := by
    simp [Definition.resolve, requireFinite, hfinite, Except.mapError]
  have hmentions : ∀ r, ¬ (Definition.literal v).Mentions r := by
    rintro r ⟨expr, hexpr, -⟩
    cases hexpr
  exact set_of_free (check_of_resolve hdeclared (hmentions id)
    (fun r hr => absurd hr (hmentions r)) hresolve) hfree

end ConstantTable

end NamedConstants
