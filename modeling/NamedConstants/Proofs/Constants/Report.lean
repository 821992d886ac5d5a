import NamedConstants.Proofs.Constants.Arrangement
import NamedConstants.Proofs.Constants.Fixpoint
import NamedConstants.Proofs.Constants.Replay
import NamedConstants.Proofs.Constants.Runs

/-!
The report on an accepted definition, read against the tables before and after it. Its
changes and its warnings are both taken from the sweep over the dependents, in the order of
the sweep: a dependent is among the changes if its value differs, and among the warnings if
it has none in the end. What the dependents are, and which of them comes first, is settled by
the formulas of the new table.
-/
open Relation

namespace NamedConstants.ConstantTable

variable {α : Type} [Arithmetic α] [DecidableEq α] {t t' : ConstantTable α} {id : ConstantId}
  {input : Formula α} {update : ConstantUpdate α}

/-- The graph that an accepted definition is entered in has the edges of the new table. -/
theorem exists_linked_of_set (ht : t.Coherent) (h : t.set id input = .ok (t', update)) :
    let entered := enter t.toConstantGraph id (.ofFormula input) update.value
    entered.Linked ∧ (∀ j, t'.definitionOf j = entered.definitionOf j) ∧
      ∀ c, c ∈ entered.sweepOrder id ↔ TransGen t'.Mentions c id := by
  intro entered
  obtain ⟨value, hcheck, -, hvalue, -, -⟩ := set_eq_ok h
  have hlinked : entered.Linked := by
    subst hvalue
    exact ht.linked_enter hcheck
  have hdef : ∀ j, t'.definitionOf j = entered.definitionOf j := by
    intro j
    rw [definitionOf_of_set h, definitionOf_enter]
  refine ⟨hlinked, hdef, fun c => ?_⟩
  rw [(entered.sweepOrder_perm id).mem_iff, hlinked.mem_closure,
    ConstantGraph.mentions_eq hdef]

/-- A list of changes starts with the constant that was set, and goes on in the order of the
sweep. -/
theorem changed_of_set (h : t.set id input = .ok (t', update)) :
    let entered := enter t.toConstantGraph id (.ofFormula input) update.value
    update.changed = [] ∨ ∃ first, first.id = id ∧ update.changed =
      first :: (entered.sweepOrder id).filterMap (change? entered t'.toConstantGraph) := by
  obtain ⟨value, -, -, rfl, -, hcase⟩ := set_eq_ok h
  rcases hcase with ⟨-, hchanged, -, -⟩ | ⟨-, hchanged, -, -⟩
  · exact Or.inl hchanged
  · exact Or.inr ⟨_, rfl, hchanged⟩

/-- No constant is listed before one that its formula mentions. -/
theorem pairwise_changed_of_set (ht : t.Coherent) (h : t.set id input = .ok (t', update)) :
    update.changed.Pairwise fun earlier later => ¬ t'.Mentions earlier.id later.id := by
  obtain ⟨hlinked, hdef, hmem⟩ := exists_linked_of_set ht h
  have hafter := (ht.of_set h).linked
  rcases changed_of_set h with hnil | ⟨first, hfirst, hchanged⟩
  · rw [hnil]
    exact List.Pairwise.nil
  · have hsequential := hlinked.sequential_sweepOrder id
    rw [hchanged, List.pairwise_cons]
    constructor
    · intro later hlater hmentions
      obtain ⟨c, hc, hchange⟩ := List.mem_filterMap.1 hlater
      rw [hfirst, id_of_change? hchange] at hmentions
      exact hafter.acyclic id (((hmem c).1 hc).head hmentions)
    · refine hsequential.sorted.filterMap _ ?_
      intro c d hnot earlier hearlier later hlater
      rw [id_of_change? hearlier, id_of_change? hlater]
      unfold ConstantGraph.Mentions
      rw [hdef]
      exact hnot

/-- What is listed depends on the constant that was set. -/
theorem reaches_of_changed (ht : t.Coherent) (h : t.set id input = .ok (t', update))
    {change : ConstantChange α} (hchange : change ∈ update.changed) (hne : change.id ≠ id) :
    TransGen t'.Mentions change.id id := by
  obtain ⟨-, -, hmem⟩ := exists_linked_of_set ht h
  rcases changed_of_set h with hnil | ⟨first, hfirst, hchanged⟩
  · rw [hnil] at hchange
    cases hchange
  · rw [hchanged, List.mem_cons] at hchange
    rcases hchange with rfl | hchange
    · exact absurd hfirst hne
    · obtain ⟨c, hc, hlisted⟩ := List.mem_filterMap.1 hchange
      rw [id_of_change? hlisted]
      exact (hmem c).1 hc

/-- The warnings are those that resolving the dependents in the new table gives. -/
theorem warnings_of_set (ht : t.Coherent) (h : t.set id input = .ok (t', update))
    (hne : t.valueOf? id ≠ some update.value) :
    update.warnings =
      ((enter t.toConstantGraph id (.ofFormula input) update.value).sweepOrder id).filterMap
        (t'.warning? t'.valueOf?) := by
  obtain ⟨hlinked, hdef, -⟩ := exists_linked_of_set ht h
  obtain ⟨value, -, -, rfl, -, hcase⟩ := set_eq_ok h
  rcases hcase with ⟨hsame, -, -, -⟩ | ⟨-, -, hwarnings, ht'⟩
  · exact absurd hsame hne
  · have hroot : (enter t.toConstantGraph id (.ofFormula input) update.value).valueOf? id =
        some update.value := by
      rw [valueOf?_enter, if_pos rfl]
    have hsequential := hlinked.sequential_sweepOrder id
    rw [hwarnings, ConstantGraph.sweep, hsequential.warnings_foldl_sweepStep, List.nil_append]
    refine List.filterMap_congr fun d _ => ?_
    have hlookup := funext fun j => ConstantGraph.stagedLookup_sweep hroot j
    rw [ConstantGraph.sweep, ← ht'] at hlookup
    unfold ConstantGraph.warning? ConstantGraph.resolveWith
    rw [hlookup, hdef]

/-- A dependent is warned of exactly if it has no value in the new table. -/
theorem mem_warnings_of_set (ht : t.Coherent) (h : t.set id input = .ok (t', update))
    (hne : t.valueOf? id ≠ some update.value) (warning : DependentWarning α) :
    warning ∈ update.warnings ↔
      TransGen t'.Mentions warning.id id ∧ t'.resolve warning.id = .error warning.fault := by
  obtain ⟨-, -, hmem⟩ := exists_linked_of_set ht h
  rw [warnings_of_set ht h hne, List.mem_filterMap, ← hmem]
  constructor
  · rintro ⟨c, hc, hwarning⟩
    obtain ⟨rfl, hfault⟩ := ConstantGraph.warning?_eq_some_iff.1 hwarning
    exact ⟨hc, hfault⟩
  · rintro ⟨hc, hfault⟩
    exact ⟨warning.id, hc, ConstantGraph.warning?_eq_some_iff.2 ⟨rfl, hfault⟩⟩

theorem nodup_warnings_of_set (ht : t.Coherent) (h : t.set id input = .ok (t', update))
    (hne : t.valueOf? id ≠ some update.value) :
    (update.warnings.map DependentWarning.id).Nodup := by
  rw [warnings_of_set ht h hne]
  have hsublist := sublist_map_filterMap (t'.warning? t'.valueOf?) DependentWarning.id
    (fun _ _ hwarning => (ConstantGraph.warning?_eq_some_iff.1 hwarning).1)
  refine List.Nodup.sublist (hsublist _) ?_
  exact (ConstantGraph.sweepOrder_perm _ id).nodup_iff.2 (ConstantGraph.nodup_closure _ id)

/-- A definition that does not change the value of its constant changes no value, and has
nothing to report. -/
theorem unchanged_of_set (h : t.set id input = .ok (t', update))
    (hsame : t.valueOf? id = some update.value) :
    update.changed = [] ∧ update.warnings = [] ∧ ∀ c, t'.valueOf? c = t.valueOf? c := by
  obtain ⟨value, -, -, rfl, -, hcase⟩ := set_eq_ok h
  rcases hcase with ⟨-, hchanged, hwarnings, -⟩ | ⟨hne, -, -, -⟩
  · refine ⟨hchanged, hwarnings, fun c => ?_⟩
    by_contra hne
    obtain ⟨change, hchange, -⟩ := exists_change_of_valueOf?_ne h hne
    rw [hchanged] at hchange
    cases hchange
  · exact absurd hsame hne

/-- A dependent that is warned of has no value in the new table, for the reason that is given. -/
theorem resolve_of_warning (ht : t.Coherent) (h : t.set id input = .ok (t', update))
    {warning : DependentWarning α} (hwarning : warning ∈ update.warnings) :
    t'.resolve warning.id = .error warning.fault := by
  by_cases hsame : t.valueOf? id = some update.value
  · rw [(unchanged_of_set h hsame).2.1] at hwarning
    cases hwarning
  · exact ((mem_warnings_of_set ht h hsame warning).1 hwarning).2

/-- What the report on an accepted definition says, after any calls. Its changes are exactly
the constants whose value differs, once each, with the values before and after: first the
constant that was set, then dependents of it, none before a listed one that it mentions. If
the constant has kept its value there is nothing to report; otherwise the warnings name exactly
the dependents that have no value now, once each, with the reason. The other constants keep
their definitions and references, and all constants their labels. -/
theorem report_of_differences (calls : List (TableCall α)) (id : ConstantId) (input : Formula α)
    (t' : ConstantTable α) (update : ConstantUpdate α)
    (h : ((∅ : ConstantTable α).after calls).set id input = .ok (t', update)) :
    let t := (∅ : ConstantTable α).after calls
    ((∀ c, (∃ change ∈ update.changed, change.id = c) ↔ t'.valueOf? c ≠ t.valueOf? c) ∧
      (update.changed.map ConstantChange.id).Nodup ∧
      (∀ change ∈ update.changed,
        change.previous = t.valueOf? change.id ∧ change.value = t'.valueOf? change.id) ∧
      (∀ first rest, update.changed = first :: rest → first.id = id) ∧
      (update.changed.Pairwise fun earlier later => ¬ t'.Mentions earlier.id later.id) ∧
      ∀ change ∈ update.changed, change.id ≠ id → TransGen t'.Mentions change.id id) ∧
    (t'.valueOf? id = t.valueOf? id →
      update.changed = [] ∧ update.warnings = [] ∧ ∀ c, t'.valueOf? c = t.valueOf? c) ∧
    (t'.valueOf? id ≠ t.valueOf? id →
      (update.warnings.map DependentWarning.id).Nodup ∧
      (∀ c, (∃ warning ∈ update.warnings, warning.id = c) ↔
        TransGen t'.Mentions c id ∧ t'.valueOf? c = none) ∧
      ∀ warning ∈ update.warnings, t'.resolve warning.id = .error warning.fault) ∧
    (t'.labels = t.labels ∧
      ∀ j, j ≠ id →
        t'.definitionOf j = t.definitionOf j ∧ t'.referencesOf j = t.referencesOf j) := by
  intro t
  have ht : t.Coherent := coherent_after coherent_empty calls
  have ht' : t'.Coherent := ht.of_set h
  have hvalue : t'.valueOf? id = some update.value := valueOf?_of_set ht h
  refine ⟨⟨?_, nodup_changed_of_set ht h, ?_, ?_, pairwise_changed_of_set ht h, ?_⟩, ?_, ?_,
    labels_of_set h, ?_⟩
  · intro c
    constructor
    · rintro ⟨change, hchange, rfl⟩
      exact valueOf?_ne_of_change ht h hchange
    · exact exists_change_of_valueOf?_ne h
  · intro change hchange
    obtain ⟨hprevious, hvalue⟩ := isBetween_of_set ht h hchange
    exact ⟨hprevious, hvalue⟩
  · intro first rest heq
    rcases changed_of_set h with hnil | ⟨head, hhead, hchanged⟩
    · rw [hnil] at heq
      cases heq
    · rw [hchanged, List.cons.injEq] at heq
      exact heq.1 ▸ hhead
  · intro change hchange hne
    exact reaches_of_changed ht h hchange hne
  · intro hsame
    exact unchanged_of_set h (hsame.symm.trans hvalue)
  · intro hne
    rw [hvalue] at hne
    have hmem := mem_warnings_of_set ht h (Ne.symm hne)
    refine ⟨nodup_warnings_of_set ht h (Ne.symm hne), ?_, ?_⟩
    · intro c
      rw [ht'.valueOf?_eq_none_iff]
      constructor
      · rintro ⟨warning, hwarning, rfl⟩
        obtain ⟨hpath, hfault⟩ := (hmem warning).1 hwarning
        exact ⟨hpath, warning.fault, hfault⟩
      · rintro ⟨hpath, fault, hfault⟩
        exact ⟨⟨c, fault⟩, (hmem ⟨c, fault⟩).2 ⟨hpath, hfault⟩, rfl⟩
    · intro warning hwarning
      exact ((hmem warning).1 hwarning).2
  · intro j hj
    have hdef : t'.definitionOf j = t.definitionOf j := by rw [definitionOf_of_set h, if_neg hj]
    rw [ht'.linked.references_eq, ht.linked.references_eq, hdef]
    exact ⟨rfl, rfl⟩

/-- A quotient loses its value, and a constant that depends on it; another one recovers. -/
theorem report_of_differences_divisor :
    let calls : List (TableCall Rat) :=
      [.declare "a", .declare "b", .declare "c", .declare "d", .set 1 (.literal 2),
        .set 3 (.binary .div (.literal 6) (.constant 1)),
        .set 2 (.binary .mul (.constant 3) (.constant 1)),
        .set 4 (.binary .div (.literal 1) (.binary .sub (.constant 1) (.literal 1))),
        .set 1 (.literal 1)]
    let t : ConstantTable Rat := (∅ : ConstantTable Rat).after calls
    ∃ t' update, t.set 1 (.literal 0) = .ok (t', update) ∧
      update.changed =
        [⟨1, some 1, some 0⟩, ⟨3, some 6, none⟩, ⟨2, some 6, none⟩, ⟨4, none, some (-1)⟩] ∧
      update.warnings = [⟨3, .divisionByZero 3⟩, ⟨2, .unresolvedDependency 3 2⟩] ∧
      (∀ c, (∃ change ∈ update.changed, change.id = c) ↔ t'.valueOf? c ≠ t.valueOf? c) ∧
      ∀ c, (∃ warning ∈ update.warnings, warning.id = c) ↔
        TransGen t'.Mentions c 1 ∧ t'.valueOf? c = none := by
  intro calls t
  have hreport : (t.set 1 (.literal 0)).map Prod.snd =
      .ok
        { id := 1, value := 0
          changed :=
            [⟨1, some 1, some 0⟩, ⟨3, some 6, none⟩, ⟨2, some 6, none⟩, ⟨4, none, some (-1)⟩]
          warnings := [⟨3, .divisionByZero 3⟩, ⟨2, .unresolvedDependency 3 2⟩] } := by
    subst t calls
    cbv
  cases hset : t.set 1 (.literal 0) with
  | error fault =>
    rw [hset] at hreport
    cases hreport
  | ok result =>
    obtain ⟨t', update⟩ := result
    rw [hset] at hreport
    obtain rfl : update = _ := Except.ok.inj hreport
    obtain ⟨⟨hchanged, -⟩, -, hwarned, -⟩ := report_of_differences calls 1 (.literal 0) t' _ hset
    have hdiffers : t'.valueOf? 1 ≠ t.valueOf? 1 := (hchanged 1).1 ⟨_, List.mem_cons_self, rfl⟩
    exact ⟨t', _, rfl, rfl, rfl, hchanged, (hwarned hdiffers).2.1⟩

end NamedConstants.ConstantTable
