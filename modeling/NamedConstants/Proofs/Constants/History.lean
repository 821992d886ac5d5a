import Mathlib
import NamedConstants.Proofs.Constants.Arrangement
import NamedConstants.Proofs.Constants.Changes
import NamedConstants.Proofs.Constants.Runs

/-!
What a table remembers of its past: the labels and the definitions, and nothing else that
shows. The mentions among definitions form no cycle, so they settle the values; they also
settle what depends on what, and with it the order of every sweep. Two coherent tables with
the same labels and definitions therefore give the same answer to a call, and they have
the same labels and definitions after it.
-/
open Relation

namespace NamedConstants

namespace ConstantGraph

variable {α : Type} {g : ConstantGraph α}

/-- Going from definitions to what they mention comes to an end. -/
theorem Linked.wellFounded (h : g.Linked) : WellFounded fun r d => g.Mentions d r := by
  let below (r d : ConstantId) : Prop := TransGen g.Mentions d r
  have : IsStrictOrder ConstantId below :=
    { irrefl := h.acyclic
      trans := fun a b c hab hbc => TransGen.trans hbc hab }
  have hwf : {d | d ∈ g.definitions.keys}.WellFoundedOn below :=
    g.definitions.keys.finite_toSet.wellFoundedOn
  have hfree : ∀ d, d ∉ g.definitions.keys → Acc (fun r d => g.Mentions d r) d := by
    intro d hd
    apply Acc.intro
    rintro r ⟨expr, hexpr, -⟩
    rw [definitionOf, InsertionMap.getD, InsertionMap.get?_eq_none_iff.2 hd] at hexpr
    cases hexpr
  constructor
  intro d
  by_cases hd : d ∈ g.definitions.keys
  · apply hwf.induction (P := fun d => Acc (fun r d => g.Mentions d r) d) hd
    intro d hd ih
    apply Acc.intro
    intro r hr
    by_cases hr' : r ∈ g.definitions.keys
    · exact ih r hr' (TransGen.single hr)
    · exact hfree r hr'
  · exact hfree d hd

variable [Arithmetic α] {g' : ConstantGraph α}

/-- A sweep over the same order, definitions and values does the same. -/
theorem sweep_congr {root : ConstantId} (horder : g.sweepOrder root = g'.sweepOrder root)
    (hdef : ∀ id, g.definitionOf id = g'.definitionOf id)
    (hvalue : ∀ id, g.valueOf? id = g'.valueOf? id)
    (staged : InsertionMap ConstantId (Option α)) : g.sweep root staged = g'.sweep root staged := by
  have hstep : g.sweepStep = g'.sweepStep := by
    funext s id
    have hlookup : g.stagedLookup s.staged = g'.stagedLookup s.staged := by
      funext j
      rw [stagedLookup_eq, stagedLookup_eq, hvalue]
    unfold sweepStep resolveWith
    rw [hlookup, hdef]
  unfold sweep
  rw [hstep, horder]

end ConstantGraph

namespace ConstantTable

variable {α : Type} [Arithmetic α] {t t' : ConstantTable α}

/-- Two tables with the same labels and the same definitions. -/
structure Alike (t t' : ConstantTable α) : Prop where
  labels : t.labels = t'.labels
  definitionOf : ∀ id, t.definitionOf id = t'.definitionOf id

namespace Alike

omit [Arithmetic α] in
theorem declares_iff (h : t.Alike t') (id : ConstantId) : t.Declares id ↔ t'.Declares id := by
  unfold Declares size
  rw [h.labels]

/-- The definitions settle the values. -/
theorem valueOf?_eq (h : t.Alike t') (ht : t.Coherent) (ht' : t'.Coherent) (id : ConstantId) :
    t.valueOf? id = t'.valueOf? id := by
  induction id using ht.linked.wellFounded.induction with
  | _ id ih =>
    rw [ht.valueOf?_eq, ht'.valueOf?_eq]
    unfold ConstantGraph.resolve ConstantGraph.resolveWith
    rw [← h.definitionOf, Definition.resolve_congr id ih]

theorem visible_eq (h : t.Alike t') (ht : t.Coherent) (ht' : t'.Coherent) (id : ConstantId) :
    t.visible id = t'.visible id := by
  funext ref
  unfold visible
  simp only [ht.linked.mem_closure_congr ht'.linked h.definitionOf id ref, h.valueOf?_eq ht ht']

theorem check_eq (h : t.Alike t') (ht : t.Coherent) (ht' : t'.Coherent) (id : ConstantId)
    (definition : Definition α) : t.check id definition = t'.check id definition := by
  have hvisible := h.visible_eq ht ht' id
  unfold visible at hvisible
  unfold check
  simp only [h.declares_iff, hvisible]

omit [Arithmetic α] in
theorem change?_eq [DecidableEq α] {before after before' after' : ConstantGraph α}
    (hbefore : ∀ id, before.valueOf? id = before'.valueOf? id)
    (hafter : ∀ id, after.valueOf? id = after'.valueOf? id) :
    change? before after = change? before' after' := by
  funext id
  unfold change?
  rw [hbefore, hafter]

/-- Entering a definition in both tables makes graphs with the same definitions, values
and order of evaluation. -/
theorem enter (h : t.Alike t') (ht : t.Coherent) (ht' : t'.Coherent) {id : ConstantId}
    {definition : Definition α} {value : α} (hcheck : t.check id definition = .ok value) :
    (∀ j, (enter t.toConstantGraph id definition value).definitionOf j =
        (enter t'.toConstantGraph id definition value).definitionOf j) ∧
      (∀ j, (enter t.toConstantGraph id definition value).valueOf? j =
        (enter t'.toConstantGraph id definition value).valueOf? j) ∧
      (enter t.toConstantGraph id definition value).sweepOrder id =
        (enter t'.toConstantGraph id definition value).sweepOrder id := by
  have hcheck' : t'.check id definition = .ok value := by rw [← h.check_eq ht ht', hcheck]
  have hdef : ∀ j, (ConstantTable.enter t.toConstantGraph id definition value).definitionOf j =
      (ConstantTable.enter t'.toConstantGraph id definition value).definitionOf j := by
    intro j
    rw [definitionOf_enter, definitionOf_enter, h.definitionOf]
  refine ⟨hdef, ?_, ?_⟩
  · intro j
    rw [valueOf?_enter, valueOf?_enter, h.valueOf?_eq ht ht']
  · exact (ht.linked_enter hcheck).sweepOrder_eq (ht'.linked_enter hcheck') hdef id

variable [DecidableEq α]

/-- Setting a constant has the same outcome in both tables. -/
theorem set_eq (h : t.Alike t') (ht : t.Coherent) (ht' : t'.Coherent) (id : ConstantId)
    (input : Formula α) :
    (t.set id input).map Prod.snd = (t'.set id input).map Prod.snd := by
  have hcheck := h.check_eq ht ht' id (.ofFormula input)
  simp only [set, ← hcheck, ← h.valueOf?_eq ht ht']
  cases hvalue : t.check id (.ofFormula input) with
  | error fault => rfl
  | ok value =>
    obtain ⟨hdef, hentered, horder⟩ := h.enter ht ht' hvalue
    dsimp only
    split
    · rfl
    · have hsweep := ConstantGraph.sweep_congr horder hdef hentered (.singleton id (some value))
      rw [← hsweep, ← horder, change?_eq hentered (fun j => ?_)]
      · rfl
      · rw [ConstantGraph.valueOf?_setValues, ConstantGraph.valueOf?_setValues,
          ConstantGraph.stagedLookup_eq, ConstantGraph.stagedLookup_eq, hentered]

end Alike

variable [DecidableEq α]

theorem Alike.perform (h : t.Alike t') (ht : t.Coherent) (ht' : t'.Coherent)
    (call : TableCall α) : (t.perform call).Alike (t'.perform call) := by
  cases call with
  | declare label =>
    refine ⟨?_, h.definitionOf⟩
    change t.labels ++ [label] = t'.labels ++ [label]
    rw [h.labels]
  | set id input =>
    have hset := h.set_eq ht ht' id input
    simp only [ConstantTable.perform]
    cases hleft : t.set id input with
    | error fault =>
      cases hright : t'.set id input with
      | error fault' => exact h
      | ok result =>
        rw [hleft, hright] at hset
        cases hset
    | ok result =>
      cases hright : t'.set id input with
      | error fault' =>
        rw [hleft, hright] at hset
        cases hset
      | ok result' =>
        constructor
        · rw [labels_of_set hleft, labels_of_set hright, h.labels]
        · intro j
          rw [definitionOf_of_set hleft, definitionOf_of_set hright, h.definitionOf]

end ConstantTable

inductive TableAnswer (α : Type) where
  | declared (id : ConstantId)
  | set (outcome : Except (ResolutionFault α) (ConstantUpdate α))

namespace ConstantTable

variable {α : Type} [Arithmetic α] [DecidableEq α] {t t' : ConstantTable α}

def answer (t : ConstantTable α) : TableCall α → TableAnswer α
  | .declare label => .declared (t.declare label).1
  | .set id input => .set ((t.set id input).map Prod.snd)

def answers (t : ConstantTable α) : List (TableCall α) → List (TableAnswer α)
  | [] => []
  | call :: calls => t.answer call :: (t.perform call).answers calls

theorem Alike.answer_eq (h : t.Alike t') (ht : t.Coherent) (ht' : t'.Coherent)
    (call : TableCall α) : t.answer call = t'.answer call := by
  cases call with
  | declare label =>
    simp only [answer, declare, size, h.labels]
  | set id input => exact congrArg TableAnswer.set (h.set_eq ht ht' id input)

theorem Alike.answers_eq (h : t.Alike t') (ht : t.Coherent) (ht' : t'.Coherent)
    (calls : List (TableCall α)) : t.answers calls = t'.answers calls := by
  induction calls generalizing t t' with
  | nil => rfl
  | cons call calls ih =>
    have hrest := ih (h.perform ht ht' call) (coherent_perform ht call) (coherent_perform ht' call)
    rw [answers, answers, h.answer_eq ht ht' call, hrest]

/-- The past of a table shows in its labels and definitions only. Two tables that agree
on these have the same values, and they answer every sequence of calls alike, however
different the calls were that they were reached by. -/
theorem answers_independent_of_past (past past' : List (TableCall α))
    (hlabels : ((∅ : ConstantTable α).after past).labels =
      ((∅ : ConstantTable α).after past').labels)
    (hdef : ∀ id, ((∅ : ConstantTable α).after past).definitionOf id =
      ((∅ : ConstantTable α).after past').definitionOf id) :
    (∀ id, ((∅ : ConstantTable α).after past).valueOf? id =
      ((∅ : ConstantTable α).after past').valueOf? id) ∧
    ∀ calls, ((∅ : ConstantTable α).after past).answers calls =
      ((∅ : ConstantTable α).after past').answers calls := by
  have halike : ((∅ : ConstantTable α).after past).Alike ((∅ : ConstantTable α).after past') :=
    ⟨hlabels, hdef⟩
  have ht := coherent_after (coherent_empty (α := α)) past
  have ht' := coherent_after (coherent_empty (α := α)) past'
  exact ⟨halike.valueOf?_eq ht ht', halike.answers_eq ht ht'⟩

/-- Two constants that read a third. In the second past one of them is cut loose and
linked again, so it comes later among the dependents. -/
theorem answers_independent_of_past_relinked :
    let past : List (TableCall Rat) :=
      [.declare "a", .declare "b", .declare "c", .set 1 (.literal 2),
        .set 2 (.binary .mul (.constant 1) (.constant 1)), .set 3 (.constant 1)]
    let past' : List (TableCall Rat) :=
      past ++ [.set 2 (.literal 4), .set 2 (.binary .mul (.constant 1) (.constant 1))]
    let t : ConstantTable Rat := (∅ : ConstantTable Rat).after past
    let t' : ConstantTable Rat := (∅ : ConstantTable Rat).after past'
    t.labels = t'.labels ∧ (∀ id, t.definitionOf id = t'.definitionOf id) ∧
      t.closure 1 = [2, 3] ∧ t'.closure 1 = [3, 2] ∧
      (∀ id, t.valueOf? id = t'.valueOf? id) ∧ ∀ calls, t.answers calls = t'.answers calls := by
  intro past past' t t'
  have hlabels : t.labels = t'.labels := by
    subst t t' past' past
    cbv
  have hdefinitions : t.definitions = t'.definitions := by
    subst t t' past' past
    cbv
  have hclosure : t.closure 1 = [2, 3] := by
    subst t past
    cbv
  have hclosure' : t'.closure 1 = [3, 2] := by
    subst t' past' past
    cbv
  have hdef : ∀ id, t.definitionOf id = t'.definitionOf id := by
    intro id
    unfold ConstantGraph.definitionOf
    rw [hdefinitions]
  have halike := answers_independent_of_past past past' hlabels hdef
  exact ⟨hlabels, hdef, hclosure, hclosure', halike⟩

end ConstantTable

end NamedConstants
