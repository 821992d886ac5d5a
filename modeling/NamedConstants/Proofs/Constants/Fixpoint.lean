import Mathlib
import NamedConstants.Proofs.Constants.Sweep

/-!
What a sweep leaves behind, over any graph and any values staged before. The dependents come
in an order in which none mentions a later one, so what is decided about a constant when the
pass comes to it is what would be decided at the end. The values and the warnings of a sweep
can therefore be read off the values staged at its end, as if all dependents had been resolved
then, at one time.
-/
namespace NamedConstants.ConstantGraph

variable {α : Type} [Arithmetic α] {g : ConstantGraph α}

def warning? (g : ConstantGraph α) (lookup : ConstantId → Option α) (id : ConstantId) :
    Option (DependentWarning α) :=
  match g.resolveWith id lookup with
  | .ok _ => none
  | .error fault => some { id, fault }

theorem warning?_eq_some_iff {lookup : ConstantId → Option α} {id : ConstantId}
    {warning : DependentWarning α} :
    g.warning? lookup id = some warning ↔
      warning.id = id ∧ g.resolveWith id lookup = .error warning.fault := by
  obtain ⟨warned, fault⟩ := warning
  unfold warning?
  cases g.resolveWith id lookup with
  | ok value => simp
  | error fault' => simp [eq_comm]

theorem warnings_sweepStep (g : ConstantGraph α) (s : Sweep α) (id : ConstantId) :
    (g.sweepStep s id).warnings =
      s.warnings ++ (g.warning? (g.stagedLookup s.staged) id).toList := by
  unfold sweepStep warning?
  cases g.resolveWith id (g.stagedLookup s.staged) <;> simp

namespace Sequential

variable {ids : List ConstantId}

/-- A pass warns of the constants that have no value under what is staged at its end. -/
theorem warnings_foldl_sweepStep (h : g.Sequential ids) (s : Sweep α) :
    (ids.foldl g.sweepStep s).warnings = s.warnings ++
      ids.filterMap (g.warning? (g.stagedLookup (ids.foldl g.sweepStep s).staged)) := by
  induction ids generalizing s with
  | nil => simp
  | cons d ids ih =>
    have hstable : g.warning? (g.stagedLookup s.staged) d =
        g.warning? (g.stagedLookup (ids.foldl g.sweepStep (g.sweepStep s d)).staged) d := by
      unfold warning?
      rw [h.resolveWith_eq s]
    rw [List.foldl_cons, ih h.tail, warnings_sweepStep, hstable, List.append_assoc,
      List.filterMap_cons]
    cases g.warning? (g.stagedLookup (ids.foldl g.sweepStep (g.sweepStep s d)).staged) d <;> rfl

/-- A pass records each constant once, in order, with its value under what is staged at the
end. -/
theorem entries_foldl_sweepStep (h : g.Sequential ids) (s : Sweep α)
    (hnew : ∀ d ∈ ids, s.values.get? d = none) :
    (ids.foldl g.sweepStep s).values.entries = s.values.entries ++
      ids.map fun d => (d, g.outcome (g.stagedLookup (ids.foldl g.sweepStep s).staged) d) := by
  induction ids generalizing s with
  | nil => simp
  | cons d ids ih =>
    have hfirst : s.values.get? d = none := hnew d List.mem_cons_self
    have hrest : ∀ e ∈ ids, (g.sweepStep s d).values.get? e = none := by
      intro e he
      have hne : e ≠ d := by
        rintro rfl
        exact (List.nodup_cons.1 h.nodup).1 he
      rw [values_sweepStep, InsertionMap.get?_insert_of_ne _ _ hne]
      exact hnew e (List.mem_cons_of_mem _ he)
    have hstable : g.outcome (g.stagedLookup s.staged) d =
        g.outcome (g.stagedLookup (ids.foldl g.sweepStep (g.sweepStep s d)).staged) d := by
      unfold outcome
      rw [h.resolveWith_eq s]
    rw [List.foldl_cons, ih h.tail _ hrest, values_sweepStep,
      InsertionMap.entries_insert_of_get?_eq_none _ hfirst, hstable, List.append_assoc]
    rfl

end Sequential

/-- One pass is enough, for graphs of any shape outside of the dependents of the root, and
whatever is staged before. Each dependent is resolved once. What is recorded for it, and staged,
is what its definition gives when staged values come first, the ones staged at the end; the
warnings name the dependents that have no value then, in order. Nothing else is staged. -/
theorem sweep_reaches_fixpoint (g : ConstantGraph α) (root : ConstantId)
    (staged : InsertionMap ConstantId (Option α)) (horderable : g.Orderable (g.closure root))
    (hcover : ∀ d ∈ g.closure root, ∀ r, (g.definitionOf d).Mentions r → r ∈ g.referencesOf d) :
    let final := (g.sweep root staged).staged
    let resolved := fun d => g.resolveWith d (g.stagedLookup final)
    (g.sweepOrder root).Perm (g.closure root) ∧ (g.closure root).Nodup ∧
      (g.sweep root staged).values.entries =
        (g.sweepOrder root).map (fun d => (d, (resolved d).toOption)) ∧
      (∀ d ∈ g.closure root, final.get? d = some (resolved d).toOption) ∧
      (g.sweep root staged).warnings =
        (g.sweepOrder root).filterMap (g.warning? (g.stagedLookup final)) ∧
      ∀ j ∉ g.closure root, final.get? j = staged.get? j := by
  intro final resolved
  have hperm := g.sweepOrder_perm root
  have hsequential := horderable.sequential_sweepOrder hcover
  refine ⟨hperm, g.nodup_closure root, ?_, ?_, ?_, ?_⟩
  · exact hsequential.entries_foldl_sweepStep { staged } fun _ _ => rfl
  · intro d hd
    exact get?_staged_foldl_sweepStep { staged } hsequential (hperm.mem_iff.2 hd)
  · exact hsequential.warnings_foldl_sweepStep { staged }
  · intro j hj
    have horder : j ∉ g.sweepOrder root := fun h => hj (hperm.mem_iff.1 h)
    exact (g.get?_foldl_sweepStep_of_not_mem _ { staged } horder).1

def diamond : ConstantGraph Rat where
  definitions := .ofList
    [(1, .formula (.constant 2)), (2, .formula (.binary .add (.constant 1) (.constant 5))),
      (3, .formula (.binary .div (.constant 2) (.constant 7))),
      (4, .formula (.binary .mul (.constant 3) (.constant 6))),
      (6, .formula (.binary .mul (.constant 2) (.constant 2)))]
  values := .ofList [(1, 1), (2, 5), (4, 20), (5, 4), (6, 25), (7, 2)]
  references := .ofList
    [(1, .ofList [2]), (2, .ofList [1, 5]), (3, .ofList [2, 7]), (4, .ofList [3, 6]),
      (6, .ofList [2])]
  dependents := .ofList
    [(1, .ofList [2]), (2, .ofList [6, 1, 3]), (3, .ofList [4]), (5, .ofList [2]),
      (6, .ofList [4]), (7, .ofList [3])]

/-- The divisor 7 is staged as zero, and 4 is staged too early. -/
theorem sweep_reaches_fixpoint_diamond :
    let staged : InsertionMap ConstantId (Option Rat) :=
      .ofList [(1, some 10), (4, some 0), (7, some 0)]
    let final := (diamond.sweep 1 staged).staged
    diamond.Orderable (diamond.closure 1) ∧
      (∀ d ∈ diamond.closure 1, ∀ r, (diamond.definitionOf d).Mentions r →
        r ∈ diamond.referencesOf d) ∧
      (diamond.sweep 1 staged).values.entries =
        [(2, some 14), (3, none), (6, some 196), (4, none)] ∧
      (diamond.sweep 1 staged).warnings =
        [⟨3, .divisionByZero 3⟩, ⟨4, .unresolvedDependency 3 4⟩] ∧
      (∀ d ∈ diamond.closure 1, final.get? d =
        some (diamond.resolveWith d (diamond.stagedLookup final)).toOption) ∧
      final.get? 7 = some (some 0) := by
  intro staged final
  have hclosure : diamond.closure 1 = [2, 6, 3, 4] := by cbv
  have horderable : diamond.Orderable (diamond.closure 1) := by
    rw [hclosure]
    exact .of_rank (fun d => if d = 4 then 7 else d) (by decide) (by decide)
  have hcover : ∀ d ∈ diamond.closure 1, ∀ r, (diamond.definitionOf d).Mentions r →
      r ∈ diamond.referencesOf d := by
    rw [hclosure]
    have hlisted : ∀ d ∈ [2, 6, 3, 4], ∀ r ∈ (diamond.definitionOf d).references.toList,
        r ∈ diamond.referencesOf d := by
      decide
    intro d hd r hr
    exact hlisted d hd r (Definition.mem_references.2 hr)
  obtain ⟨-, -, -, hstaged, -, hothers⟩ :=
    sweep_reaches_fixpoint diamond 1 staged horderable hcover
  refine ⟨horderable, hcover, by cbv, by cbv, hstaged, ?_⟩
  rw [hothers 7 (by rw [hclosure]; decide)]
  rfl

end NamedConstants.ConstantGraph
