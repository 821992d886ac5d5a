import NamedConstants.Engine.Inspect
import NamedConstants.Proofs.Linear.Reading
import NamedConstants.Proofs.Propagation.InStep

/-!
How handles are given out. A successful addition takes the next number, a removal gives
none back, and nothing else touches the numbering. So the tracked constraints, in the order
in which the registry lists them, are what is left of the numbered list of all additions.
-/
namespace NamedConstants.Propagator

variable {σ : Type} {p p' : Propagator σ}

def addition? (p : Propagator σ) : PropagatorCall σ → Option (Addition σ)
  | .add definition strength =>
    match p.add definition strength with
    | .ok (handle, _) => some { handle, definition, strength }
    | .error _ => none
  | _ => none

def additions (p : Propagator σ) : List (PropagatorStep σ) → List (Addition σ)
  | [] => []
  | s :: steps => ((p.facing s.answers).addition? s.call).toList ++ (p.step s).additions steps

/-- The tracked constraints as they were added, in the order of the registry. -/
def registered (p : Propagator σ) : List (Addition σ) :=
  p.tracked.entries.map fun (handle, entry) =>
    { handle, definition := entry.definition, strength := entry.strength }

def Fails (p : Propagator σ) : PropagatorCall σ → Prop
  | .add definition strength => ∃ failure, p.add definition strength = .error failure
  | .setConstant id input => ∃ failure, (p.setConstant id input).result = .error failure
  | _ => False

theorem mem_map_handle_registered {handle : Handle} :
    handle ∈ p.registered.map Addition.handle ↔ p.contains handle = true := by
  have hkeys : p.registered.map Addition.handle = p.tracked.keys := by
    simp [registered, InsertionMap.keys]
  have hnone : p.tracked.get? handle = none ↔ handle ∉ p.tracked.keys :=
    InsertionMap.get?_eq_none_iff
  rw [hkeys, contains, InsertionMap.contains, Option.isSome_iff_ne_none, ne_eq, hnone, not_not]

theorem handles_snapshot (p : Propagator σ) :
    p.snapshot.map ConstraintAccount.handle = p.registered.map Addition.handle := by
  simp [snapshot, registered]

theorem mem_snapshot_iff {handle : Handle} {entry : Tracked σ} :
    (∃ account ∈ p.snapshot, account.handle = handle ∧ account.entry = entry) ↔
      p.tracked.get? handle = some entry := by
  rw [← InsertionMap.mem_entries_iff]
  constructor
  · rintro ⟨account, haccount, rfl, rfl⟩
    obtain ⟨⟨k, e⟩, hmem, rfl⟩ := List.mem_map.1 haccount
    exact hmem
  · intro hmem
    exact ⟨_, List.mem_map_of_mem hmem, rfl, rfl⟩

/-- The numbering, and the registry apart from the forms and the slots, are the same. -/
structure SameRegistry (p p' : Propagator σ) : Prop where
  mentions_eq : p'.mentions = p.mentions
  registered_eq : p'.registered = p.registered
  nextHandle_eq : p'.nextHandle = p.nextHandle

namespace SameRegistry

theorem of_eq (htracked : p'.tracked = p.tracked) (hmentions : p'.mentions = p.mentions)
    (hnext : p'.nextHandle = p.nextHandle) : p.SameRegistry p' where
  mentions_eq := hmentions
  registered_eq := by rw [registered, registered, htracked]
  nextHandle_eq := hnext

theorem trans {p'' : Propagator σ} (h : p.SameRegistry p') (h' : p'.SameRegistry p'') :
    p.SameRegistry p'' where
  mentions_eq := h'.mentions_eq.trans h.mentions_eq
  registered_eq := h'.registered_eq.trans h.registered_eq
  nextHandle_eq := h'.nextHandle_eq.trans h.nextHandle_eq

theorem of_refreshed {handle : Handle} {entry : Tracked σ}
    (hentry : p.tracked.get? handle = some entry) (h : Refreshed p handle entry p') :
    p.SameRegistry p' := by
  obtain ⟨solver, linear, slot, rfl⟩ := h.exists_eq
  exact ⟨rfl, InsertionMap.map_entries_insert hentry rfl, rfl⟩

theorem of_round (p : Propagator σ) (update : ConstantUpdate Float) :
    p.SameRegistry (p.round update).1.propagator := by
  obtain ⟨log, hlog⟩ := exists_warned_eq p update.id update.warnings
  unfold round
  rw [hlog]
  exact (refreshAll_induction (P := p.SameRegistry)
    (fun q handle entry q' hq hentry hrefreshed => hq.trans (of_refreshed hentry hrefreshed))
    (({ p with log } : Propagator σ).affected update.changed)
    { propagator := ({ p with log } : Propagator σ) } (of_eq rfl rfl rfl)).1

/-- Setting a constant, whether it succeeds or stops somewhere, moves slots and forms only. -/
theorem of_setConstant (p : Propagator σ) (id : ConstantId) (input : Formula Float) :
    p.SameRegistry (p.setConstant id input).propagator := by
  rcases p.setConstant_cases id input with ⟨fault, -, heq, -⟩ | ⟨table, update, hset, -, -⟩
  · rw [heq]
    exact of_eq rfl rfl rfl
  · obtain ⟨⟨solver, heq⟩, -⟩ := setConstant_of_set hset
    have htable : p.SameRegistry { p with table } := of_eq rfl rfl rfl
    rw [heq]
    exact (htable.trans (of_round _ update)).trans (of_eq rfl rfl rfl)

theorem of_fails {call : PropagatorCall σ} (h : p.Fails call) :
    p.SameRegistry (p.perform call) := by
  cases call with
  | table call => exact h.elim
  | remove handle => exact h.elim
  | setConstant id input => exact of_setConstant p id input
  | add definition strength =>
    obtain ⟨failure, hfailure⟩ := h
    simp only [perform, hfailure]
    exact of_eq rfl rfl rfl

end SameRegistry

theorem registered_of_added (hp : p.Indexed) {definition : Constraint Float} {strength : σ}
    (h : Added p definition strength p') :
    p'.registered = p.registered ++ [{ handle := p.nextHandle, definition, strength }] ∧
      p'.nextHandle = p.nextHandle + 1 := by
  have hfresh : p.tracked.get? p.nextHandle = none := hp.fresh _ (Int.le_refl _)
  cases h with
  | skipped | installed =>
    refine ⟨?_, rfl⟩
    simp only [register, registered, InsertionMap.entries_insert_of_get?_eq_none _ hfresh]
    simp

theorem registered_of_removed {handle : Handle} (h : Removed p handle p') :
    p'.registered = p.registered.filter (fun a => a.handle ≠ handle) ∧
      p'.nextHandle = p.nextHandle := by
  cases h with
  | absent hentry =>
    refine ⟨(List.filter_eq_self.2 fun a ha => ?_).symm, rfl⟩
    have hcontains := mem_map_handle_registered.1 (List.mem_map_of_mem (f := Addition.handle) ha)
    rw [decide_eq_true_iff]
    rintro rfl
    rw [contains, InsertionMap.contains, hentry] at hcontains
    cases hcontains
  | uninstalled | forgotten =>
    refine ⟨?_, rfl⟩
    simp only [registered, InsertionMap.erase, List.filter_map]
    rfl

/-- A call either appends one constraint under the next number, or it gives out no number
and at most drops constraints. -/
theorem perform_registered (hp : p.Indexed) (call : PropagatorCall σ) :
    (∃ a, p.addition? call = some a ∧ a.handle = p.nextHandle ∧
      (p.perform call).registered = p.registered ++ [a] ∧
      (p.perform call).nextHandle = p.nextHandle + 1) ∨
    (p.addition? call = none ∧ (p.perform call).registered.Sublist p.registered ∧
      (p.perform call).nextHandle = p.nextHandle) := by
  cases call with
  | table call => exact Or.inr ⟨rfl, List.Sublist.refl _, rfl⟩
  | add definition strength =>
    simp only [addition?, perform]
    cases hadd : p.add definition strength with
    | error failure => exact Or.inr ⟨rfl, List.Sublist.refl _, rfl⟩
    | ok result =>
      obtain ⟨handle, p'⟩ := result
      obtain ⟨rfl, hadded⟩ := add_eq_ok hadd
      obtain ⟨hregistered, hnext⟩ := registered_of_added hp hadded
      exact Or.inl ⟨_, rfl, rfl, hregistered, hnext⟩
  | remove handle =>
    right
    simp only [addition?, perform]
    cases hremove : p.remove handle with
    | error misuse => exact ⟨trivial, List.Sublist.refl _, rfl⟩
    | ok result =>
      obtain ⟨hregistered, hnext⟩ := registered_of_removed (remove_eq_ok hremove)
      exact ⟨trivial, hregistered ▸ List.filter_sublist, hnext⟩
  | setConstant id input =>
    have hsame := SameRegistry.of_setConstant p id input
    exact Or.inr ⟨rfl, hsame.registered_eq ▸ List.Sublist.refl _, hsame.nextHandle_eq⟩

/-- What a run adds is numbered from the next handle on, and what is registered after it is
left of what was registered before and of what was added, in this order. -/
theorem registered_run (hp : p.InStep) (steps : List (PropagatorStep σ)) :
    (p.additions steps).map Addition.handle =
        (List.range (p.additions steps).length).map (fun i : Nat => p.nextHandle + (i : Int)) ∧
      (p.run steps).nextHandle = p.nextHandle + ((p.additions steps).length : Int) ∧
      (p.run steps).registered.Sublist (p.registered ++ p.additions steps) := by
  have hsucc (n : Int) (i : Nat) : n + 1 + (i : Int) = n + ((i + 1 : Nat) : Int) := by omega
  induction steps generalizing p with
  | nil => simp [additions, run]
  | cons s steps ih =>
    have hstep : (p.step s).InStep := (hp.facing s.answers).perform s.call
    obtain ⟨hnumbered, hnext, hsublist⟩ := ih hstep
    have hrun : p.run (s :: steps) = (p.step s).run steps := rfl
    rw [hrun, additions]
    rcases perform_registered (hp.facing s.answers).indexed s.call with
      ⟨a, hsome, hhandle, hregistered, hnext'⟩ | ⟨hnone, hregistered, hnext'⟩
    · have hnext' : (p.step s).nextHandle = p.nextHandle + 1 := hnext'
      have hregistered : (p.step s).registered = p.registered ++ [a] := hregistered
      have hhandle : a.handle = p.nextHandle := hhandle
      rw [hsome, Option.toList_some, List.singleton_append]
      refine ⟨?_, ?_, ?_⟩
      · rw [List.map_cons, hnumbered, List.length_cons, List.range_succ_eq_map, List.map_cons,
          List.map_map, hhandle, hnext']
        congr 1
        · simp
        · exact List.map_congr_left fun i _ => hsucc p.nextHandle i
      · rw [hnext, hnext', List.length_cons]
        exact hsucc p.nextHandle _
      · rw [hregistered, List.append_assoc, List.singleton_append] at hsublist
        exact hsublist
    · have hnext' : (p.step s).nextHandle = p.nextHandle := hnext'
      have hregistered : (p.step s).registered.Sublist p.registered := hregistered
      rw [hnone, Option.toList_none, List.nil_append]
      rw [hnext'] at hnumbered hnext
      exact ⟨hnumbered, hnext, hsublist.trans (hregistered.append (List.Sublist.refl _))⟩

/-- A handle that was given out and is no longer tracked is never tracked again. -/
theorem InStep.not_contains_run (hp : p.InStep) {handle : Handle} (hlt : handle < p.nextHandle)
    (hnot : p.contains handle = false) (later : List (PropagatorStep σ)) :
    (p.run later).contains handle = false := by
  obtain ⟨hnumbered, -, hsublist⟩ := registered_run hp later
  by_contra hcontains
  rw [Bool.not_eq_false] at hcontains
  have hmem := (hsublist.map Addition.handle).subset (mem_map_handle_registered.2 hcontains)
  rw [List.map_append, List.mem_append, mem_map_handle_registered, hnumbered, List.mem_map] at hmem
  rcases hmem with htracked | ⟨i, -, hi⟩
  · rw [hnot] at htracked
    cases htracked
  · have hle : p.nextHandle ≤ p.nextHandle + (i : Int) :=
      Int.le_add_of_nonneg_right (Int.natCast_nonneg i)
    rw [hi] at hle
    exact Int.not_lt.2 hle hlt

theorem Indexed.lt_of_contains (hp : p.Indexed) {handle : Handle}
    (h : p.contains handle = true) : handle < p.nextHandle := by
  by_contra hle
  rw [contains, InsertionMap.contains, hp.fresh handle (Int.not_lt.1 hle)] at h
  cases h

/-- A removal always succeeds, and leaves all other constraints registered. -/
theorem InStep.registered_remove (hp : p.InStep) (handle : Handle) :
    (p.perform (.remove handle)).registered =
        p.registered.filter (fun a => a.handle ≠ handle) ∧
      (p.perform (.remove handle)).nextHandle = p.nextHandle := by
  simp only [Propagator.perform]
  cases hremove : p.remove handle with
  | error misuse => exact absurd hremove (hp.remove_ne_error handle misuse)
  | ok result => exact registered_of_removed (remove_eq_ok hremove)

/-- A registered constraint stays registered through every call but its removal. -/
theorem InStep.mem_registered_perform (hp : p.InStep) {a : Addition σ} (ha : a ∈ p.registered)
    {call : PropagatorCall σ} (hcall : call ≠ .remove a.handle) :
    a ∈ (p.perform call).registered := by
  cases call with
  | table call => exact ha
  | add definition strength =>
    simp only [Propagator.perform]
    cases hadd : p.add definition strength with
    | error failure => exact ha
    | ok result =>
      rw [(registered_of_added hp.indexed (add_eq_ok hadd).2).1]
      exact List.mem_append_left _ ha
  | remove handle =>
    rw [(hp.registered_remove handle).1, List.mem_filter]
    refine ⟨ha, decide_eq_true fun heq => ?_⟩
    rw [heq] at hcall
    exact hcall rfl
  | setConstant id input =>
    rw [Propagator.perform, (SameRegistry.of_setConstant p id input).registered_eq]
    exact ha

/-- What is registered is still so after a run exactly if the run does not remove it. -/
theorem InStep.mem_registered_run (hp : p.InStep) {a : Addition σ} (ha : a ∈ p.registered)
    (steps : List (PropagatorStep σ)) :
    a ∈ (p.run steps).registered ↔ ∀ s ∈ steps, s.call ≠ .remove a.handle := by
  induction steps generalizing p with
  | nil => simpa [run] using ha
  | cons s steps ih =>
    have hfacing : (p.facing s.answers).InStep := hp.facing s.answers
    have hstep : (p.step s).InStep := hfacing.perform s.call
    have hrun : p.run (s :: steps) = (p.step s).run steps := rfl
    rw [hrun, List.forall_mem_cons]
    by_cases hremoved : s.call = .remove a.handle
    -- A handle that is gone does not come back.
    · have hremove : (p.step s).registered = p.registered.filter (fun b => b.handle ≠ a.handle) ∧
          (p.step s).nextHandle = p.nextHandle := by
        rw [step, hremoved]
        exact hfacing.registered_remove a.handle
      have hgone : (p.step s).contains a.handle = false := by
        rw [Bool.eq_false_iff, ne_eq, ← mem_map_handle_registered, hremove.1]
        simp
      have hlt : a.handle < (p.step s).nextHandle := by
        rw [hremove.2]
        exact hp.indexed.lt_of_contains (mem_map_handle_registered.1 (List.mem_map_of_mem ha))
      have hnever := hstep.not_contains_run hlt hgone steps
      refine iff_of_false (fun hmem => ?_) fun h => h.1 hremoved
      rw [mem_map_handle_registered.1 (List.mem_map_of_mem hmem)] at hnever
      cases hnever
    · rw [ih hstep (hfacing.mem_registered_perform ha hremoved)]
      exact (and_iff_right hremoved).symm

/-- A constraint that a step of a run adds is registered after the run exactly if no later
step removes it. -/
theorem InStep.mem_registered_of_addition (hp : p.InStep) {earlier later : List (PropagatorStep σ)}
    {s : PropagatorStep σ} {a : Addition σ}
    (hadded : ((p.run earlier).facing s.answers).addition? s.call = some a) :
    a ∈ (p.run (earlier ++ s :: later)).registered ↔
      ∀ s' ∈ later, s'.call ≠ .remove a.handle := by
  have hbefore : ((p.run earlier).facing s.answers).InStep :=
    (inStep_run hp earlier).facing s.answers
  have hafter : ((p.run earlier).step s).InStep := hbefore.perform s.call
  have hregistered : a ∈ ((p.run earlier).step s).registered := by
    rcases perform_registered hbefore.indexed s.call with
      ⟨b, hb, -, hregistered, -⟩ | ⟨hnone, -⟩
    · rw [hadded, Option.some.injEq] at hb
      rw [step, hregistered, hb]
      exact List.mem_append_right _ (List.mem_singleton_self b)
    · rw [hadded] at hnone
      cases hnone
  rw [run_append_cons]
  exact hafter.mem_registered_run hregistered later

/-- After any run the index leads from a constant to exactly the tracked constraints that
mention it on either side, whatever their slots. The successful additions have been given
the numbers from 1 on, and what the snapshot lists in ascending order is left of them: an
addition is listed exactly if its handle has not been removed since, and a removed handle
never comes back. A failed addition or setting changes none of this. -/
theorem handles_given_out_once (table : ConstantTable Float) (log : Log WarningKey)
    (policy : ConstantOnlyPolicy) (tolerance : Float) (steps : List (PropagatorStep σ)) :
    let first : Propagator σ := start table log policy tolerance
    let p : Propagator σ := first.run steps
    (∀ handle id, handle ∈ p.handlesFor id ↔ ∃ entry, p.tracked.get? handle = some entry ∧
      (id ∈ entry.definition.lhs.constantLeaves ∨ id ∈ entry.definition.rhs.constantLeaves)) ∧
    (p.snapshot.map ConstraintAccount.handle).Pairwise (· < ·) ∧
    (∀ handle entry, (∃ account ∈ p.snapshot, account.handle = handle ∧ account.entry = entry) ↔
      p.tracked.get? handle = some entry) ∧
    ((first.additions steps).map Addition.handle =
        (List.range (first.additions steps).length).map (fun i : Nat => 1 + (i : Int)) ∧
      p.nextHandle = 1 + ((first.additions steps).length : Int) ∧
      p.registered.Sublist (first.additions steps)) ∧
    (∀ earlier s later a, steps = earlier ++ s :: later →
      ((first.run earlier).facing s.answers).addition? s.call = some a →
        (a ∈ p.registered ↔ ∀ s' ∈ later, s'.call ≠ .remove a.handle)) ∧
    (∀ a ∈ first.additions steps, p.contains a.handle = false →
      ∀ later, (p.run later).contains a.handle = false) ∧
    ∀ answers call, (p.facing answers).Fails call →
      let after : Propagator σ := (p.facing answers).perform call
      (∀ id, after.handlesFor id = p.handlesFor id) ∧ after.registered = p.registered ∧
        after.nextHandle = p.nextHandle := by
  intro first p
  have hfirst : first.InStep := inStep_start table log policy tolerance
  have hp : p.InStep := inStep_run hfirst steps
  obtain ⟨hnumbered, hnext, hsublist⟩ := registered_run hfirst steps
  have hascending : ((first.additions steps).map Addition.handle).Pairwise (· < ·) := by
    rw [hnumbered, List.pairwise_map]
    exact List.pairwise_lt_range.imp fun hlt => Int.add_lt_add_left (Int.ofNat_lt.2 hlt) _
  refine ⟨fun handle id => ?_, ?_, fun handle entry => mem_snapshot_iff,
    ⟨hnumbered, hnext, hsublist⟩, fun earlier s later a hsteps hadded => ?_,
    fun a ha hnot later => ?_, fun answers call hfails => ?_⟩
  · rw [hp.indexed.mem_handlesFor_iff]
    simp only [Constraint.mem_constants]
  · rw [handles_snapshot]
    exact hascending.sublist (hsublist.map _)
  · subst hsteps
    exact hfirst.mem_registered_of_addition hadded
  · have hlt : a.handle < p.nextHandle := by
      have hmem : a.handle ∈ (first.additions steps).map Addition.handle := List.mem_map_of_mem ha
      rw [hnumbered, List.mem_map] at hmem
      obtain ⟨i, hi, heq⟩ := hmem
      rw [List.mem_range] at hi
      rw [← heq, hnext]
      exact Int.add_lt_add_left (Int.ofNat_lt.2 hi) _
    exact hp.not_contains_run hlt hnot later
  · have hfacing : p.SameRegistry (p.facing answers) := .of_eq rfl rfl rfl
    have hsame := hfacing.trans (.of_fails hfails)
    refine ⟨fun id => ?_, hsame.registered_eq, hsame.nextHandle_eq⟩
    rw [handlesFor, handlesFor, hsame.mentions_eq]

end NamedConstants.Propagator
