import NamedConstants.Propagation.Registry
import NamedConstants.Proofs.InsertionMap
import NamedConstants.Proofs.Solver.Recorder

/-!
What adding and removing a constraint do. A new constraint is installed or skipped, and
gets a handle of its own; a removed one leaves the registry, the solver and the index.
The index is complete and holds nothing else: it leads from a constant to exactly the
tracked constraints that mention it.
-/
namespace NamedConstants.Propagator

variable {σ : Type} {p p' : Propagator σ}

/-- The two ways in which adding a constraint succeeds. -/
inductive Added (p : Propagator σ) (definition : Constraint Float) (strength : σ) :
    Propagator σ → Prop where
  | skipped (fault : LinearizeFault Float) (log : Log WarningKey)
      (hlinear : p.linearize definition strength = .error fault)
      (htolerates : p.Tolerates fault) :
      Added p definition strength
        { (p.register { definition, strength, linear := none, slot := .detached }).2 with log }
  | installed (linear : LinearConstraint Float σ) (token : SolverToken) (solver : Recorder σ)
      (hlinear : p.linearize definition strength = .ok linear)
      (hsolver : p.solver.install linear = .ok (token, solver)) :
      Added p definition strength
        ({ p with solver }.register
          { definition, strength, linear := some linear, slot := .installed token }).2

theorem add_eq_ok {definition : Constraint Float} {strength : σ} {handle : Handle}
    (h : p.add definition strength = .ok (handle, p')) :
    handle = p.nextHandle ∧ Added p definition strength p' := by
  unfold add at h
  cases hlinear : p.linearize definition strength with
  | error fault =>
    simp only [hlinear] at h
    by_cases htolerates : p.Tolerates fault
    · rw [if_pos htolerates] at h
      cases h
      exact ⟨rfl, .skipped fault _ hlinear htolerates⟩
    · rw [if_neg htolerates] at h
      cases h
  | ok linear =>
    simp only [hlinear] at h
    cases hsolver : p.solver.install linear with
    | error infeasible => rw [hsolver] at h; cases h
    | ok result =>
      rw [hsolver] at h
      cases h
      exact ⟨rfl, .installed linear result.1 result.2 hlinear hsolver⟩

theorem Added.frame {definition : Constraint Float} {strength : σ}
    (h : Added p definition strength p') :
    p'.table = p.table ∧ p'.policy = p.policy ∧ p'.tolerance = p.tolerance := by
  cases h <;> exact ⟨rfl, rfl, rfl⟩

/-- What removing a handle can do: nothing, or forget a constraint that was installed or
detached. -/
inductive Removed (p : Propagator σ) (handle : Handle) : Propagator σ → Prop where
  | absent (hentry : p.tracked.get? handle = none) : Removed p handle p
  | uninstalled (entry : Tracked σ) (token : SolverToken) (solver : Recorder σ)
      (hentry : p.tracked.get? handle = some entry) (hslot : entry.slot = .installed token)
      (hsolver : p.solver.remove token = .ok solver) :
      Removed p handle
        { p with
          tracked := p.tracked.erase handle
          mentions := entry.definition.constants.toList.foldl (unlist · handle ·) p.mentions
          solver }
  | forgotten (entry : Tracked σ) (log : Log WarningKey)
      (hentry : p.tracked.get? handle = some entry) (hslot : entry.slot = .detached) :
      Removed p handle
        { p with
          tracked := p.tracked.erase handle
          mentions := entry.definition.constants.toList.foldl (unlist · handle ·) p.mentions
          log }

theorem Removed.frame {handle : Handle} (h : Removed p handle p') :
    p'.table = p.table ∧ p'.policy = p.policy ∧ p'.tolerance = p.tolerance := by
  cases h <;> exact ⟨rfl, rfl, rfl⟩

theorem Removed.get?_of_get? {handle k : Handle} {entry : Tracked σ} (h : Removed p handle p')
    (hentry : p'.tracked.get? k = some entry) : p.tracked.get? k = some entry := by
  have herase : (p.tracked.erase handle).get? k = some entry → p.tracked.get? k = some entry := by
    rw [InsertionMap.get?_erase]
    split
    · exact fun hnone => by cases hnone
    · exact id
  cases h with
  | absent => exact hentry
  | uninstalled => exact herase hentry
  | forgotten => exact herase hentry

theorem remove_eq_ok {handle : Handle} {removed : Bool}
    (h : p.remove handle = .ok (removed, p')) : Removed p handle p' := by
  unfold remove at h
  cases hentry : p.tracked.get? handle with
  | none =>
    rw [hentry] at h
    cases h
    exact .absent hentry
  | some entry =>
    simp only [hentry] at h
    cases hslot : entry.slot with
    | installed token =>
      simp only [hslot] at h
      cases hsolver : p.solver.remove token with
      | error misuse => rw [hsolver] at h; cases h
      | ok solver =>
        rw [hsolver] at h
        cases h
        exact .uninstalled entry token solver hentry hslot hsolver
    | detached =>
      simp only [hslot] at h
      cases h
      exact .forgotten entry _ hentry hslot

/-- Removing fails only at a token that is not installed. -/
theorem remove_eq_error {handle : Handle} {misuse : SolverMisuse}
    (h : p.remove handle = .error misuse) :
    ∃ entry token, p.tracked.get? handle = some entry ∧ entry.slot = .installed token ∧
      p.solver.installed.contains token = false := by
  unfold remove at h
  cases hentry : p.tracked.get? handle with
  | none => rw [hentry] at h; cases h
  | some entry =>
    simp only [hentry] at h
    cases hslot : entry.slot with
    | installed token =>
      simp only [hslot] at h
      cases hsolver : p.solver.remove token with
      | ok solver => rw [hsolver] at h; cases h
      | error m => exact ⟨entry, token, rfl, hslot, Recorder.not_contains_of_remove_misuse hsolver⟩
    | detached =>
      simp only [hslot] at h
      cases h

theorem mem_handlesFor_register {entry : Tracked σ} {handle : Handle} {id : ConstantId} :
    handle ∈ (p.register entry).2.handlesFor id ↔
      handle ∈ p.handlesFor id ∨ (id ∈ entry.definition.constants ∧ handle = p.nextHandle) := by
  have hmentions := InsertionMap.getD_foldl_insert (fun handles => handles.insert p.nextHandle) ∅
    entry.definition.constants.toList entry.definition.constants.nodup p.mentions id
  have hfor : (p.register entry).2.handlesFor id = _ := hmentions
  rw [hfor]
  unfold handlesFor
  by_cases hid : id ∈ entry.definition.constants
  · rw [if_pos (InsertionSet.mem_iff.1 hid), InsertionSet.mem_insert]
    simp [hid, or_comm]
  · rw [if_neg (mt InsertionSet.mem_iff.2 hid)]
    simp [hid]

theorem mem_unlist {mentions : InsertionMap ConstantId (InsertionSet Handle)} {handle h : Handle}
    {id c : ConstantId} :
    h ∈ (unlist mentions handle id).getD c ∅ ↔
      h ∈ mentions.getD c ∅ ∧ ¬ (c = id ∧ h = handle) := by
  unfold unlist
  cases hlisted : mentions.get? id with
  | none =>
    constructor
    · intro hmem
      refine ⟨hmem, ?_⟩
      rintro ⟨rfl, -⟩
      rw [InsertionMap.getD, hlisted] at hmem
      exact InsertionSet.not_mem_empty _ hmem
    · exact And.left
  | some handles =>
    have hgetD : mentions.getD id ∅ = handles := by
      rw [InsertionMap.getD, hlisted]
      rfl
    by_cases hempty : (handles.erase handle).isEmpty = true
    · -- the only constraint that could mention `id` is the one taken out
      have hnone : ∀ k, k ∉ handles.erase handle := by
        intro k hk
        unfold InsertionSet.isEmpty at hempty
        rw [InsertionSet.mem_iff, List.isEmpty_iff.1 hempty] at hk
        cases hk
      simp only [hempty, if_true]
      rw [InsertionMap.getD, InsertionMap.get?_erase]
      by_cases hc : c = id
      · have hnot := hnone h
        rw [InsertionSet.mem_erase] at hnot
        rw [if_pos hc, hc, hgetD]
        simp only [Option.getD_none, InsertionSet.not_mem_empty, true_and, false_iff]
        exact fun hmem => hnot ⟨hmem.2, hmem.1⟩
      · rw [if_neg hc]
        simp [InsertionMap.getD, hc]
    · simp only [hempty]
      rw [if_neg Bool.false_ne_true, InsertionMap.getD_insert]
      by_cases hc : c = id
      · rw [if_pos hc, hc, hgetD, InsertionSet.mem_erase]
        simp [and_comm]
      · rw [if_neg hc]
        simp [hc]

theorem mem_foldl_unlist (ids : List ConstantId) {handle h : Handle} {c : ConstantId}
    (mentions : InsertionMap ConstantId (InsertionSet Handle)) :
    h ∈ (ids.foldl (unlist · handle ·) mentions).getD c ∅ ↔
      h ∈ mentions.getD c ∅ ∧ ¬ (c ∈ ids ∧ h = handle) := by
  induction ids generalizing mentions with
  | nil => simp
  | cons id ids ih =>
    rw [List.foldl_cons, ih, mem_unlist, List.mem_cons, or_and_right, not_or, and_assoc]

/-- The index leads from a constant to the tracked constraints that mention it; handles
are given out in turn. -/
structure Indexed (p : Propagator σ) : Prop where
  mem_handlesFor_iff : ∀ handle id, handle ∈ p.handlesFor id ↔
    ∃ entry, p.tracked.get? handle = some entry ∧ id ∈ entry.definition.constants
  fresh : ∀ handle, p.nextHandle ≤ handle → p.tracked.get? handle = none

namespace Indexed

theorem mem_handlesFor_of_get? (hp : p.Indexed) {handle : Handle} {entry : Tracked σ}
    (hentry : p.tracked.get? handle = some entry) (id : ConstantId) :
    handle ∈ p.handlesFor id ↔ id ∈ entry.definition.constants := by
  rw [hp.mem_handlesFor_iff]
  constructor
  · rintro ⟨found, hfound, hmentioned⟩
    rw [hentry, Option.some.injEq] at hfound
    exact hfound ▸ hmentioned
  · exact fun hmentioned => ⟨entry, hentry, hmentioned⟩

theorem register (hp : p.Indexed) (entry : Tracked σ) : (p.register entry).2.Indexed where
  mem_handlesFor_iff handle id := by
    have htracked : (p.register entry).2.tracked = p.tracked.insert p.nextHandle entry := rfl
    rw [mem_handlesFor_register, hp.mem_handlesFor_iff, htracked, InsertionMap.get?_insert]
    by_cases hhandle : handle = p.nextHandle
    · subst hhandle
      simp [hp.fresh _ (Int.le_refl _)]
    · simp [hhandle]
  fresh handle hhandle := by
    have htracked : (p.register entry).2.tracked = p.tracked.insert p.nextHandle entry := rfl
    have hlt : p.nextHandle < handle := Int.add_one_le_iff.1 hhandle
    rw [htracked, InsertionMap.get?_insert, if_neg (Int.ne_of_gt hlt)]
    exact hp.fresh handle (Int.le_of_lt hlt)

/-- Forgetting a tracked constraint takes it out of the index. -/
theorem forget (hp : p.Indexed) {handle : Handle} {entry : Tracked σ}
    (hentry : p.tracked.get? handle = some entry)
    (htracked : p'.tracked = p.tracked.erase handle)
    (hmentions : p'.mentions =
      entry.definition.constants.toList.foldl (unlist · handle ·) p.mentions)
    (hnext : p'.nextHandle = p.nextHandle) : p'.Indexed where
  mem_handlesFor_iff h id := by
    have hfor : h ∈ p'.handlesFor id ↔
        h ∈ p.handlesFor id ∧ ¬ (id ∈ entry.definition.constants.toList ∧ h = handle) := by
      unfold handlesFor
      rw [hmentions, mem_foldl_unlist]
    rw [hfor, hp.mem_handlesFor_iff, htracked, InsertionMap.get?_erase]
    by_cases hh : h = handle
    · subst hh
      simp [hentry, InsertionSet.mem_iff]
    · simp [hh]
  fresh h hh := by
    rw [htracked, InsertionMap.get?_erase]
    split
    · rfl
    · exact hp.fresh h (hnext ▸ hh)

theorem of_added (hp : p.Indexed) {definition : Constraint Float} {strength : σ}
    (h : Added p definition strength p') : p'.Indexed := by
  cases h with
  | skipped fault log => exact ⟨(hp.register _).mem_handlesFor_iff, (hp.register _).fresh⟩
  | installed linear token solver =>
    have hp' : { p with solver : Propagator σ }.Indexed := ⟨hp.mem_handlesFor_iff, hp.fresh⟩
    exact hp'.register _

theorem of_removed (hp : p.Indexed) {handle : Handle} (h : Removed p handle p') : p'.Indexed := by
  cases h with
  | absent => exact hp
  | uninstalled entry token solver hentry => exact hp.forget hentry rfl rfl rfl
  | forgotten entry log hentry => exact hp.forget hentry rfl rfl rfl

end Indexed

end NamedConstants.Propagator
