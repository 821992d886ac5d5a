import NamedConstants.Proofs.Constants.Changes

/-!
Change lists as a record of the values. Someone who has the values and is told only what
has changed can keep up: a change fits if it starts from the value that is known, and then
it overwrites it. The list that an accepted definition reports names every constant at most
once, so it fits the values from before, and it leads to the values after.
-/
namespace NamedConstants

variable {α : Type}

namespace ConstantChange

variable [DecidableEq α]

def carryOut? (values : ConstantId → Option α) (change : ConstantChange α) :
    Option (ConstantId → Option α) :=
  if values change.id = change.previous then some (Function.update values change.id change.value)
  else none

def replay (values : ConstantId → Option α) (changes : List (ConstantChange α)) :
    Option (ConstantId → Option α) :=
  changes.foldlM carryOut? values

theorem replay_cons (values : ConstantId → Option α) (change : ConstantChange α)
    (changes : List (ConstantChange α)) :
    replay values (change :: changes) =
      (carryOut? values change).bind fun next => replay next changes := rfl

theorem replay_append (values : ConstantId → Option α) (first second : List (ConstantChange α)) :
    replay values (first ++ second) =
      (replay values first).bind fun next => replay next second :=
  List.foldlM_append

end ConstantChange

structure ConstantChange.IsBetween (before after : ConstantId → Option α)
    (change : ConstantChange α) : Prop where
  previous : change.previous = before change.id
  value : change.value = after change.id

/-- Changes that name all that differs, and nothing twice, lead from the one to the other. -/
theorem ConstantChange.replay_eq [DecidableEq α] {before after : ConstantId → Option α}
    {changes : List (ConstantChange α)} (hnodup : (changes.map ConstantChange.id).Nodup)
    (hchanges : ∀ change ∈ changes, change.IsBetween before after)
    (hrest : ∀ c, c ∉ changes.map ConstantChange.id → after c = before c) :
    replay before changes = some after := by
  induction changes generalizing before with
  | nil =>
    have heq : after = before := funext fun c => hrest c List.not_mem_nil
    rw [heq]
    rfl
  | cons change changes ih =>
    rw [List.map_cons, List.nodup_cons] at hnodup
    obtain ⟨hnew, hnodup⟩ := hnodup
    rw [List.forall_mem_cons] at hchanges
    obtain ⟨hchange, hchanges⟩ := hchanges
    have hstep : carryOut? before change =
        some (Function.update before change.id change.value) := if_pos hchange.previous.symm
    rw [replay_cons, hstep, Option.bind_some]
    apply ih hnodup
    · intro later hlater
      have hne : later.id ≠ change.id := by
        intro heq
        exact hnew (heq ▸ List.mem_map_of_mem hlater)
      obtain ⟨hprevious, hvalue⟩ := hchanges later hlater
      exact ⟨by rw [hprevious, Function.update_of_ne hne], hvalue⟩
    · intro c hc
      by_cases hid : c = change.id
      · rw [hid, Function.update_self, hchange.value]
      · rw [Function.update_of_ne hid]
        exact hrest c (by simp [hid, hc])

namespace ConstantTable

variable [Arithmetic α] [DecidableEq α] {t t' : ConstantTable α} {id : ConstantId}
  {input : Formula α} {update : ConstantUpdate α}

/-- The reported changes say what the value was and what it is. -/
theorem isBetween_of_set (ht : t.Coherent) (h : t.set id input = .ok (t', update))
    {change : ConstantChange α} (hchange : change ∈ update.changed) :
    change.IsBetween t.valueOf? t'.valueOf? := by
  have hroot := valueOf?_of_set ht h
  obtain ⟨value, hcheck, -, hvalue, -, hcase⟩ := set_eq_ok h
  rcases hcase with ⟨-, hchanged, -, -⟩ | ⟨-, hchanged, -, -⟩
  · rw [hchanged] at hchange
    cases hchange
  · rw [hchanged] at hchange
    rcases List.mem_cons.1 hchange with rfl | hchange
    · exact ⟨rfl, by rw [hroot, hvalue]⟩
    · obtain ⟨c, horder, hc⟩ := List.mem_filterMap.1 hchange
      have hclosure := (ConstantGraph.sweepOrder_perm _ id).mem_iff.1 horder
      have hcid : c ≠ id := by
        rintro rfl
        exact (ht.linked_enter hcheck).root_not_mem_closure c hclosure
      unfold change? at hc
      split at hc
      · cases hc
      · rw [Option.some.injEq] at hc
        rw [valueOf?_enter, if_neg hcid] at hc
        subst hc
        exact ⟨rfl, rfl⟩

/-- No constant is reported twice. -/
theorem nodup_changed_of_set (ht : t.Coherent) (h : t.set id input = .ok (t', update)) :
    (update.changed.map ConstantChange.id).Nodup := by
  obtain ⟨value, hcheck, -, -, -, hcase⟩ := set_eq_ok h
  rcases hcase with ⟨-, hchanged, -, -⟩ | ⟨-, hchanged, -, -⟩
  · rw [hchanged]
    exact List.nodup_nil
  · rw [hchanged, List.map_cons, List.nodup_cons]
    have hsublist := sublist_map_filterMap
      (change? (enter t.toConstantGraph id (.ofFormula input) value) t'.toConstantGraph)
      ConstantChange.id (fun _ _ => id_of_change?)
      ((enter t.toConstantGraph id (.ofFormula input) value).sweepOrder id)
    have hperm := ConstantGraph.sweepOrder_perm
      (enter t.toConstantGraph id (.ofFormula input) value) id
    constructor
    · intro hid
      exact (ht.linked_enter hcheck).root_not_mem_closure id
        (hperm.mem_iff.1 (hsublist.subset hid))
    · exact (hperm.nodup_iff.2 (ConstantGraph.nodup_closure _ id)).sublist hsublist

/-- The reported changes lead from the values before a definition to those after it. -/
theorem replay_of_set (ht : t.Coherent) (h : t.set id input = .ok (t', update)) :
    ConstantChange.replay t.valueOf? update.changed = some t'.valueOf? := by
  apply ConstantChange.replay_eq (nodup_changed_of_set ht h)
  · intro change hchange
    exact isBetween_of_set ht h hchange
  · intro c hc
    by_contra hne
    obtain ⟨change, hchange, rfl⟩ := exists_change_of_valueOf?_ne h hne
    exact hc (List.mem_map_of_mem hchange)

end ConstantTable

end NamedConstants
