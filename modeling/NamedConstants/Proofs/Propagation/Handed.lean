import NamedConstants.Proofs.Linear.Normal
import NamedConstants.Proofs.Propagation.Runs

/-!
What the solver is handed. A token is given out for one constraint and stays with it, so
whatever is installed or replaced under it is a normal form of the definition and has the
strength with which this constraint was added, however often it was linearized in between.
-/
namespace NamedConstants

variable {σ : Type}

structure LinearConstraint.States (linear : LinearConstraint Float σ) (a : Addition σ) : Prop where
  isNormal : linear.IsNormal
  relation_eq : linear.relation = a.definition.relation
  definition_eq : linear.definition = a.definition
  strength_eq : linear.strength = a.strength

def SolverCall.handed? : SolverCall σ → Option (SolverToken × LinearConstraint Float σ)
  | install token linear => some (token, linear)
  | replace token linear => some (token, linear)
  | remove _ => none
  | reoptimize => none

def Recorder.handed (s : Recorder σ) : List (SolverToken × LinearConstraint Float σ) :=
  s.calls.filterMap SolverCall.handed?

namespace Propagator

variable {p p' : Propagator σ} {added : List (Addition σ)}

theorem states_of_linearize {definition : Constraint Float} {strength : σ} {handle : Handle}
    {linear : LinearConstraint Float σ} (h : p.linearize definition strength = .ok linear) :
    linear.States { handle, definition, strength } := by
  obtain ⟨hnormal, hrelation, hdefinition, hstrength⟩ := Constraint.isNormal_of_linearize h
  exact ⟨hnormal, hrelation, hdefinition, hstrength⟩

/-- The handles and the tokens lead back to what was added. -/
structure Traces (added : List (Addition σ)) (owner : SolverToken → Handle) (p : Propagator σ) :
    Prop where
  handed : ∀ token linear, (token, linear) ∈ p.solver.handed → token < p.solver.nextToken ∧
    ∃ a ∈ added, a.handle = owner token ∧ linear.States a
  tracked : ∀ handle entry, p.tracked.get? handle = some entry →
    { handle, definition := entry.definition, strength := entry.strength } ∈ added
  owned : ∀ handle entry token, p.tracked.get? handle = some entry →
    entry.slot = .installed token → token < p.solver.nextToken ∧ owner token = handle
  nodup : (added.map Addition.handle).Nodup
  lt_nextHandle : ∀ a ∈ added, a.handle < p.nextHandle

namespace Traces

variable {owner : SolverToken → Handle}

/-- Nothing is handed over, and an entry that is written has no token or keeps its own. -/
theorem keep (h : Traces added owner p) (hhanded : p'.solver.handed = p.solver.handed)
    (htoken : p'.solver.nextToken = p.solver.nextToken) (hnext : p'.nextHandle = p.nextHandle)
    (htracked : ∀ k e', p'.tracked.get? k = some e' →
      { handle := k, definition := e'.definition, strength := e'.strength } ∈ added ∧
        ∀ token, e'.slot = .installed token →
          ∃ e, p.tracked.get? k = some e ∧ e.slot = .installed token) :
    Traces added owner p' where
  handed token linear hmem := by
    rw [hhanded] at hmem
    rw [htoken]
    exact h.handed token linear hmem
  tracked k e' he' := (htracked k e' he').1
  owned k e' token he' hslot := by
    obtain ⟨e, he, hslot'⟩ := (htracked k e' he').2 token hslot
    rw [htoken]
    exact h.owned k e token he hslot'
  nodup := h.nodup
  lt_nextHandle a ha := by
    rw [hnext]
    exact h.lt_nextHandle a ha

/-- A form is handed over for a constraint, under its own token or under a new one. -/
theorem hand (h : Traces added owner p) {handle : Handle} {token : SolverToken}
    {linear : LinearConstraint Float σ} (entry : Tracked σ)
    (hat : owner token = handle ∨ p.solver.nextToken ≤ token)
    (hslot : entry.slot = .installed token)
    (hadded : { handle, definition := entry.definition, strength := entry.strength } ∈ added)
    (hstates : linear.States
      { handle, definition := entry.definition, strength := entry.strength })
    (hhanded : p'.solver.handed = p.solver.handed ++ [(token, linear)])
    (htracked : p'.tracked.get? = Function.update p.tracked.get? handle (some entry))
    (hnextToken : p.solver.nextToken ≤ p'.solver.nextToken) (htoken : token < p'.solver.nextToken)
    (hnext : p'.nextHandle = p.nextHandle) :
    Traces added (Function.update owner token handle) p' := by
  have hold {t : SolverToken} (ht : t < p.solver.nextToken) :
      Function.update owner token handle t = owner t := by
    rw [Function.update_apply]
    split
    · rename_i heq
      rcases hat with hown | hfree
      · rw [heq, hown]
      · exact absurd (heq ▸ ht) (Int.not_lt.2 hfree)
    · rfl
  refine ⟨fun t l hmem => ?_, fun k e hk => ?_, fun k e t hk ht => ?_, h.nodup, fun a ha => ?_⟩
  · rw [hhanded, List.mem_append, List.mem_singleton] at hmem
    rcases hmem with hmem | heq
    · obtain ⟨hlt, a, ha, howner, hlinear⟩ := h.handed t l hmem
      exact ⟨hlt.trans_le hnextToken, a, ha, by rw [hold hlt, howner], hlinear⟩
    · cases heq
      have howner : Function.update owner token handle token = handle := Function.update_self ..
      exact ⟨htoken, _, hadded, howner.symm, hstates⟩
  · rw [htracked, Function.update_apply] at hk
    split at hk
    · rename_i heq
      cases hk
      rw [heq]
      exact hadded
    · exact h.tracked k e hk
  · rw [htracked, Function.update_apply] at hk
    split at hk
    · rename_i heq
      cases hk
      rw [hslot, Slot.installed.injEq] at ht
      rw [← ht, heq]
      exact ⟨htoken, Function.update_self ..⟩
    · obtain ⟨hlt, howner⟩ := h.owned k e t hk ht
      exact ⟨hlt.trans_le hnextToken, (hold hlt).trans howner⟩
  · rw [hnext]
    exact h.lt_nextHandle a ha

/-- The next handle is given out. -/
theorem grow (h : Traces added owner p) {a : Addition σ} (ha : a.handle = p.nextHandle) :
    Traces (added ++ [a]) owner { p with nextHandle := p.nextHandle + 1 } where
  handed token linear hmem := by
    obtain ⟨hlt, b, hb, hrest⟩ := h.handed token linear hmem
    exact ⟨hlt, b, List.mem_append_left _ hb, hrest⟩
  tracked k e hk := List.mem_append_left _ (h.tracked k e hk)
  owned := h.owned
  nodup := by
    rw [List.map_append, List.nodup_append]
    refine ⟨h.nodup, List.nodup_singleton _, fun k hk k' hk' heq => ?_⟩
    obtain ⟨b, hb, rfl⟩ := List.mem_map.1 hk
    rw [List.map_singleton, List.mem_singleton, ha] at hk'
    exact absurd (h.lt_nextHandle b hb) (by rw [heq, hk']; exact Int.lt_irrefl _)
  lt_nextHandle b hb := by
    rcases List.mem_append.1 hb with hb | hb
    · exact (h.lt_nextHandle b hb).trans (Int.lt_succ _)
    · rw [List.mem_singleton.1 hb, ha]
      exact Int.lt_succ _

end Traces

/-- Everything that the solver has been handed was added, and every token has an owner. -/
def Accounted (added : List (Addition σ)) (p : Propagator σ) : Prop :=
  ∃ owner, Traces added owner p

namespace Accounted

theorem congr (hp : p.Accounted added) (hhanded : p'.solver.handed = p.solver.handed)
    (htoken : p'.solver.nextToken = p.solver.nextToken) (htracked : p'.tracked = p.tracked)
    (hnext : p'.nextHandle = p.nextHandle) : p'.Accounted added := by
  obtain ⟨owner, h⟩ := hp
  refine ⟨owner, h.keep hhanded htoken hnext fun k e' he' => ?_⟩
  rw [htracked] at he'
  exact ⟨h.tracked k e' he', fun token hslot => ⟨e', he', hslot⟩⟩

/-- A tracked constraint is detached, and what happens at the solver hands nothing over. -/
theorem detach (hp : p.Accounted added) {handle : Handle} {entry : Tracked σ}
    (hentry : p.tracked.get? handle = some entry) {solver : Recorder σ}
    (hhanded : solver.handed = p.solver.handed) (htoken : solver.nextToken = p.solver.nextToken) :
    (({ p with solver } : Propagator σ).place handle entry none .detached).Accounted added := by
  obtain ⟨owner, h⟩ := hp
  refine ⟨owner, h.keep hhanded htoken rfl fun k e' he' => ?_⟩
  simp only [place, InsertionMap.get?_insert] at he'
  split at he'
  · rename_i heq
    cases he'
    rw [heq]
    refine ⟨h.tracked handle entry hentry, ?_⟩
    rintro token ⟨⟩
  · exact ⟨h.tracked k e' he', fun token hslot => ⟨e', he', hslot⟩⟩

theorem of_refreshed (hp : p.Accounted added) {handle : Handle} {entry : Tracked σ}
    (hentry : p.tracked.get? handle = some entry) (h : Refreshed p handle entry p') :
    p'.Accounted added := by
  cases h with
  | replaced token linear solver hlinear hslot hsolver =>
    obtain ⟨-, rfl⟩ := Recorder.replace_eq_ok hsolver
    obtain ⟨owner, h⟩ := hp
    obtain ⟨hlt, howner⟩ := h.owned handle entry token hentry hslot
    exact ⟨_, h.hand { entry with linear := some linear, slot := .installed token }
      (Or.inl howner) rfl (h.tracked handle entry hentry)
      (states_of_linearize hlinear) (by simp [Recorder.handed, SolverCall.handed?, place])
      (InsertionMap.get?_insert_eq_update _ _ _) (Int.le_refl _) hlt rfl⟩
  | attached token linear solver hlinear hslot hsolver =>
    obtain ⟨rfl, rfl⟩ := Recorder.install_eq_ok hsolver
    obtain ⟨owner, h⟩ := hp
    exact ⟨_, h.hand { entry with linear := some linear, slot := .installed p.solver.nextToken }
      (Or.inr (Int.le_refl _)) rfl (h.tracked handle entry hentry)
      (states_of_linearize hlinear) (by simp [Recorder.handed, SolverCall.handed?, place])
      (InsertionMap.get?_insert_eq_update _ _ _) (Int.le_add_one (Int.le_refl _))
      (Int.lt_succ _) rfl⟩
  | detached token fault solver hlinear htolerates hslot hsolver =>
    obtain ⟨-, rfl⟩ := Recorder.remove_eq_ok hsolver
    exact hp.detach hentry (by simp [Recorder.handed, SolverCall.handed?]) rfl
  | stayed fault hlinear htolerates hslot => exact hp.detach hentry rfl rfl

theorem of_added (hp : p.Accounted added) {definition : Constraint Float} {strength : σ}
    (h : Added p definition strength p') :
    p'.Accounted (added ++ [{ handle := p.nextHandle, definition, strength }]) := by
  obtain ⟨owner, htraces⟩ := hp
  have hgrown := htraces.grow (a := { handle := p.nextHandle, definition, strength }) rfl
  have hlast : { handle := p.nextHandle, definition, strength : Addition σ } ∈
      added ++ [{ handle := p.nextHandle, definition, strength }] :=
    List.mem_append_right _ (List.mem_singleton_self _)
  cases h with
  | skipped fault log hlinear htolerates =>
    refine ⟨owner, hgrown.keep rfl rfl rfl fun k e' he' => ?_⟩
    simp only [register, InsertionMap.get?_insert] at he'
    split at he'
    · rename_i heq
      cases he'
      rw [heq]
      refine ⟨hlast, ?_⟩
      rintro token ⟨⟩
    · exact ⟨hgrown.tracked k e' he', fun token hslot => ⟨e', he', hslot⟩⟩
  | installed linear token solver hlinear hsolver =>
    obtain ⟨rfl, rfl⟩ := Recorder.install_eq_ok hsolver
    exact ⟨_, hgrown.hand
      { definition, strength, linear := some linear, slot := .installed p.solver.nextToken }
      (Or.inr (Int.le_refl _)) rfl hlast (states_of_linearize hlinear)
      (by simp [Recorder.handed, SolverCall.handed?, register])
      (InsertionMap.get?_insert_eq_update _ _ _) (Int.le_add_one (Int.le_refl _))
      (Int.lt_succ _) rfl⟩

theorem of_removed (hp : p.Accounted added) {handle : Handle} (h : Removed p handle p') :
    p'.Accounted added := by
  obtain ⟨owner, htraces⟩ := hp
  have hsame (k : Handle) (e' : Tracked σ) (he' : p'.tracked.get? k = some e') :
      { handle := k, definition := e'.definition, strength := e'.strength } ∈ added ∧
        ∀ token, e'.slot = .installed token →
          ∃ e, p.tracked.get? k = some e ∧ e.slot = .installed token := by
    have he := h.get?_of_get? he'
    exact ⟨htraces.tracked k e' he, fun token hslot => ⟨e', he, hslot⟩⟩
  cases h with
  | absent => exact ⟨owner, htraces⟩
  | uninstalled entry token solver hentry hslot hsolver =>
    obtain ⟨-, rfl⟩ := Recorder.remove_eq_ok hsolver
    exact ⟨owner, htraces.keep (by simp [Recorder.handed, SolverCall.handed?]) rfl rfl hsame⟩
  | forgotten entry log hentry hslot => exact ⟨owner, htraces.keep rfl rfl rfl hsame⟩

theorem round (hp : p.Accounted added) (update : ConstantUpdate Float) :
    (p.round update).1.propagator.Accounted added := by
  obtain ⟨log, hlog⟩ := exists_warned_eq p update.id update.warnings
  have hwarned : ({ p with log } : Propagator σ).Accounted added := hp.congr rfl rfl rfl rfl
  unfold Propagator.round
  rw [hlog]
  exact (refreshAll_induction (P := Accounted added)
    (fun q handle entry q' hq hentry hrefreshed => hq.of_refreshed hentry hrefreshed)
    (({ p with log } : Propagator σ).affected update.changed)
    { propagator := ({ p with log } : Propagator σ) } hwarned).1

theorem setConstant (hp : p.Accounted added) (id : ConstantId) (input : Formula Float) :
    (p.setConstant id input).propagator.Accounted added := by
  rcases p.setConstant_cases id input with ⟨fault, -, heq, -⟩ | ⟨table, update, -, heq, -⟩
  · rw [heq]
    exact hp
  · have htable : ({ p with table } : Propagator σ).Accounted added := hp.congr rfl rfl rfl rfl
    obtain ⟨solver, hpropagate, hsolver⟩ :=
      ({ p with table } : Propagator σ).exists_propagate_eq update
    rw [heq, hpropagate]
    rcases hsolver with rfl | rfl
    · exact htable.round update
    · exact (htable.round update).congr
        (by simp [Recorder.handed, Recorder.record, SolverCall.handed?]) rfl rfl rfl

theorem facing (hp : p.Accounted added) (answers : SolverAnswers σ) :
    (p.facing answers).Accounted added :=
  hp.congr rfl rfl rfl rfl

/-- Calls that add nothing hand over only what was added before. -/
theorem perform (hp : p.Accounted added) {call : PropagatorCall σ}
    (hcall : ∀ definition strength, call ≠ .add definition strength) :
    (p.perform call).Accounted added := by
  cases call with
  | table call => exact hp.congr rfl rfl rfl rfl
  | add definition strength => exact absurd rfl (hcall definition strength)
  | remove handle =>
    simp only [Propagator.perform]
    cases hremove : p.remove handle with
    | error misuse => exact hp
    | ok result => exact hp.of_removed (remove_eq_ok hremove)
  | setConstant id input => exact hp.setConstant id input

end Accounted

end Propagator

end NamedConstants
