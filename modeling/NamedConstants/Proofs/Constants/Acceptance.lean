import NamedConstants.Proofs.Constants.Changes
import NamedConstants.Proofs.Constants.Runs
import NamedConstants.Proofs.Expr.Evaluates
import NamedConstants.Proofs.InsertionSet

/-!
Which definitions a table accepts. The table looks for the dependents of a constant in the
edges that it keeps, and hides them from the new definition. In a coherent table this comes
down to a condition on the formulas alone: a definition is accepted if it mentions declared
constants other than its own, none of which depends on it, and has a value under the current
values. If it is refused, the first check that fails gives the fault.
-/
open Relation

namespace NamedConstants

variable {α : Type}

namespace Definition

theorem references_ofFormula (input : Formula α) :
    (ofFormula input).references = .ofList input.constantLeaves := by
  cases input <;> rfl

theorem mentions_ofFormula {input : Formula α} {r : ConstantId} :
    (ofFormula input).Mentions r ↔ r ∈ input.constantLeaves := by
  rw [← mem_references, references_ofFormula, InsertionSet.mem_ofList]

variable [Arithmetic α]

theorem resolve_ofFormula (input : Formula α) (id : ConstantId)
    (lookup : ConstantId → Option α) :
    (ofFormula input).resolve id lookup =
      (input.eval lookup).mapError (EvalFault.resolving id) := by
  cases input <;> rfl

theorem resolve_ofFormula_eq_ok_iff {input : Formula α} {id : ConstantId}
    {lookup : ConstantId → Option α} {v : α} :
    (ofFormula input).resolve id lookup = .ok v ↔ input.Evaluates lookup v := by
  rw [resolve_ofFormula, ← Expr.eval_eq_ok_iff]
  cases input.eval lookup <;> simp [Except.mapError]

theorem resolve_ofFormula_eq_error_iff {input : Formula α} {id : ConstantId}
    {lookup : ConstantId → Option α} {fault : ResolutionFault α} :
    (ofFormula input).resolve id lookup = .error fault ↔
      ∃ first, input.FailsFirst lookup first ∧ fault = first.resolving id := by
  rw [resolve_ofFormula]
  simp only [← Expr.eval_eq_error_iff]
  cases input.eval lookup <;> simp [Except.mapError, eq_comm]

end Definition

namespace ConstantTable

variable {t t' : ConstantTable α} {id : ConstantId} {input : Formula α}

open Classical in
/-- The values that a new definition of `id` may use: what depends on `id` counts as
unresolved. -/
noncomputable def seenFrom (t : ConstantTable α) (id ref : ConstantId) : Option α :=
  if TransGen t.Mentions ref id then none else t.valueOf? ref

theorem visible_eq_seenFrom (ht : t.Linked) (id : ConstantId) : t.visible id = t.seenFrom id := by
  funext ref
  unfold visible seenFrom
  by_cases hclosure : ref ∈ t.closure id
  · rw [if_pos hclosure, if_pos (ht.mem_closure.1 hclosure)]
  · rw [if_neg hclosure, if_neg (mt ht.mem_closure.2 hclosure)]

variable [Arithmetic α]

structure Accepts (t : ConstantTable α) (id : ConstantId) (input : Formula α) (value : α) :
    Prop where
  declared : t.Declares id
  mentioned : ∀ r ∈ input.constantLeaves, r ≠ id ∧ t.Declares r ∧ ¬ TransGen t.Mentions r id
  evaluates : input.Evaluates t.valueOf? value

/-- Why a definition is refused. Each reason comes into play only if there is none before it. -/
inductive Refuses (t : ConstantTable α) (id : ConstantId) (input : Formula α) :
    ResolutionFault α → Prop where
  | undeclared (hdeclared : ¬ t.Declares id) : Refuses t id input (.unknownConstant id id)
  | selfReference (hdeclared : t.Declares id) (hself : id ∈ input.constantLeaves) :
      Refuses t id input (.selfReference id)
  | unknownReference (hdeclared : t.Declares id) (hself : id ∉ input.constantLeaves)
      (before after : List ConstantId) (ref : ConstantId)
      (hleaves : input.constantLeaves = before ++ ref :: after)
      (hbefore : ∀ r ∈ before, t.Declares r) (href : ¬ t.Declares ref) :
      Refuses t id input (.unknownConstant ref id)
  | unresolved (hdeclared : t.Declares id) (hself : id ∉ input.constantLeaves)
      (hmentioned : ∀ r ∈ input.constantLeaves, t.Declares r) (fault : EvalFault α)
      (hfails : input.FailsFirst (t.seenFrom id) fault) : Refuses t id input (fault.resolving id)

theorem check_eq_ok_iff (ht : t.Linked) {value : α} :
    t.check id (.ofFormula input) = .ok value ↔ t.Accepts id input value := by
  constructor
  · intro h
    obtain ⟨hdeclared, hself, hmentioned, hresolve⟩ := check_eq_ok h
    refine ⟨hdeclared, fun r hr => ?_, ?_⟩
    · have hr' := Definition.mentions_ofFormula.2 hr
      refine ⟨?_, hmentioned r hr', ?_⟩
      · rintro rfl
        exact hself hr'
      · exact fun hpath => not_mem_closure_of_check h hr' (ht.mem_closure.2 hpath)
    · apply Definition.resolve_ofFormula_eq_ok_iff.1
      exact Definition.resolve_mono (fun ref x hx => (valueOf?_of_visible hx).2) hresolve
  · rintro ⟨hdeclared, hmentioned, hevaluates⟩
    apply check_of_resolve hdeclared
    · intro hself
      exact (hmentioned id (Definition.mentions_ofFormula.1 hself)).1 rfl
    · intro r hr
      exact (hmentioned r (Definition.mentions_ofFormula.1 hr)).2.1
    · have hresolve : (Definition.ofFormula input).resolve id t.valueOf? = .ok value :=
        Definition.resolve_ofFormula_eq_ok_iff.2 hevaluates
      rw [← hresolve]
      refine Definition.resolve_congr id fun r hr => ?_
      have hnot := (hmentioned r (Definition.mentions_ofFormula.1 hr)).2.2
      unfold visible
      rw [if_neg (mt ht.mem_closure.1 hnot)]

/-- The checks in their order, read off the leaves of the formula. -/
theorem check_ofFormula (t : ConstantTable α) (id : ConstantId) (input : Formula α) :
    t.check id (.ofFormula input) =
      if ¬ t.Declares id then .error (.unknownConstant id id)
      else if id ∈ input.constantLeaves then .error (.selfReference id)
      else
        match input.constantLeaves.find? fun ref => ¬ t.Declares ref with
        | some ref => .error (.unknownConstant ref id)
        | none => (Definition.ofFormula input).resolve id (t.visible id) := by
  have hself : id ∈ (Definition.ofFormula input).references ↔ id ∈ input.constantLeaves := by
    rw [Definition.references_ofFormula, InsertionSet.mem_ofList]
  have hfind := InsertionSet.find?_toList_ofList (fun ref => decide ¬ t.Declares ref)
    input.constantLeaves
  rw [← Definition.references_ofFormula] at hfind
  unfold check
  simp only [hself, hfind]
  rfl

theorem check_eq_error_iff (ht : t.Linked) {fault : ResolutionFault α} :
    t.check id (.ofFormula input) = .error fault ↔ t.Refuses id input fault := by
  rw [check_ofFormula, visible_eq_seenFrom ht]
  constructor
  · intro h
    by_cases hdeclared : t.Declares id
    · rw [if_neg (not_not_intro hdeclared)] at h
      by_cases hself : id ∈ input.constantLeaves
      · rw [if_pos hself] at h
        cases h
        exact .selfReference hdeclared hself
      · rw [if_neg hself] at h
        cases hfind : input.constantLeaves.find? fun ref => ¬ t.Declares ref with
        | some ref =>
          rw [hfind] at h
          cases h
          obtain ⟨href, before, after, hleaves, hbefore⟩ := List.find?_eq_some_iff_append.1 hfind
          exact .unknownReference hdeclared hself before after ref hleaves
            (fun r hr => by simpa using hbefore r hr) (by simpa using href)
        | none =>
          rw [hfind] at h
          obtain ⟨first, hfails, rfl⟩ := Definition.resolve_ofFormula_eq_error_iff.1 h
          exact .unresolved hdeclared hself
            (fun r hr => by simpa using List.find?_eq_none.1 hfind r hr) first hfails
    · rw [if_pos hdeclared] at h
      cases h
      exact .undeclared hdeclared
  · intro h
    cases h with
    | undeclared hdeclared => rw [if_pos hdeclared]
    | selfReference hdeclared hself => rw [if_neg (not_not_intro hdeclared), if_pos hself]
    | unknownReference hdeclared hself before after ref hleaves hbefore href =>
      have hfind : (input.constantLeaves.find? fun r => ¬ t.Declares r) = some ref := by
        rw [List.find?_eq_some_iff_append]
        exact ⟨by simpa using href, before, after, hleaves,
          fun r hr => by simpa using hbefore r hr⟩
      rw [if_neg (not_not_intro hdeclared), if_neg hself, hfind]
    | unresolved hdeclared hself hmentioned first hfails =>
      have hfind : (input.constantLeaves.find? fun r => ¬ t.Declares r) = none :=
        List.find?_eq_none.2 fun r hr => by simpa using hmentioned r hr
      rw [if_neg (not_not_intro hdeclared), if_neg hself, hfind]
      exact Definition.resolve_ofFormula_eq_error_iff.2 ⟨first, hfails, rfl⟩

omit [Arithmetic α] in
theorem not_reaches_of_literal {r : ConstantId} {v : α} (h : t.definitionOf r = .literal v) :
    ¬ TransGen t.Mentions r id := by
  intro hpath
  obtain ⟨b, ⟨expr, hexpr, -⟩, -⟩ := TransGen.head'_iff.1 hpath
  rw [h] at hexpr
  cases hexpr

/-- A formula over other constants that are numbers is accepted if it has a value. -/
theorem accepts_of_literals {value : α} (hdeclared : t.Declares id)
    (hmentioned : ∀ r ∈ input.constantLeaves,
      r ≠ id ∧ t.Declares r ∧ ∃ v, t.definitionOf r = .literal v)
    (hvalue : input.eval t.valueOf? = .ok value) : t.Accepts id input value where
  declared := hdeclared
  mentioned r hr := by
    obtain ⟨hne, hr, v, hv⟩ := hmentioned r hr
    exact ⟨hne, hr, not_reaches_of_literal hv⟩
  evaluates := Expr.eval_eq_ok_iff.1 hvalue

variable [DecidableEq α]

theorem set_eq_error_iff {fault : ResolutionFault α} :
    t.set id input = .error fault ↔ t.check id (.ofFormula input) = .error fault := by
  simp only [set]
  cases t.check id (.ofFormula input) with
  | error fault' => simp
  | ok value => by_cases hsame : t.valueOf? id = some value <;> simp [hsame]

theorem exists_set_eq_ok_iff {value : α} :
    (∃ t' update, t.set id input = .ok (t', update) ∧ update.value = value) ↔
      t.check id (.ofFormula input) = .ok value := by
  constructor
  · rintro ⟨t', update, h, rfl⟩
    obtain ⟨value, hcheck, -, hvalue, -⟩ := set_eq_ok h
    rw [hcheck, hvalue]
  · intro hcheck
    cases h : t.set id input with
    | error fault =>
      rw [set_eq_error_iff, hcheck] at h
      cases h
    | ok result =>
      obtain ⟨value', hcheck', -, hvalue, -⟩ := set_eq_ok h
      rw [hcheck, Except.ok.injEq] at hcheck'
      exact ⟨_, _, rfl, hvalue.trans hcheck'.symm⟩

/-- After any calls, a definition is accepted with a value exactly if the constant is declared,
the formula mentions declared constants other than it, none of which depends on it, and
evaluates to this value under the current values; then the value and the definition are stored.
Otherwise the first reason to refuse it decides the fault, and the table stays as it was. -/
theorem acceptance_decided (calls : List (TableCall α)) (id : ConstantId) (input : Formula α) :
    let t := (∅ : ConstantTable α).after calls
    (∀ value, (∃ t' update, t.set id input = .ok (t', update) ∧ update.value = value) ↔
      t.Accepts id input value) ∧
    (∀ t' update, t.set id input = .ok (t', update) →
      t'.valueOf? id = some update.value ∧ t'.definitionOf id = .ofFormula input) ∧
    (∀ fault, t.set id input = .error fault ↔ t.Refuses id input fault) ∧
    ∀ fault, t.set id input = .error fault → t.perform (.set id input) = t := by
  intro t
  have ht : t.Coherent := coherent_after coherent_empty calls
  refine ⟨?_, ?_, ?_, ?_⟩
  · intro value
    rw [exists_set_eq_ok_iff, check_eq_ok_iff ht.linked]
  · intro t' update h
    refine ⟨valueOf?_of_set ht h, ?_⟩
    rw [definitionOf_of_set h, if_pos rfl]
  · intro fault
    rw [set_eq_error_iff, check_eq_error_iff ht.linked]
  · intro fault h
    simp only [perform, h]

end ConstantTable

end NamedConstants
