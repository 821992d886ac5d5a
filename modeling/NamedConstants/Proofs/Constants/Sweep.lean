import NamedConstants.Constants.Sweep
import NamedConstants.Proofs.Constants.Closure
import NamedConstants.Proofs.Constants.Evaluation
import NamedConstants.Proofs.Constants.Order
import NamedConstants.Proofs.InsertionMap

/-!
A sweep decides each dependent once, and one pass is enough: what it stages for a
dependent is what the definition gives under the values staged at the end. When a
dependent is reached everything that it mentions is decided already, and a sweep
never decides anything twice.
-/
namespace NamedConstants.ConstantGraph

variable {α : Type}

theorem valueOf?_setValue (g : ConstantGraph α) (id j : ConstantId) (value : Option α) :
    (g.setValue id value).valueOf? j = if j = id then value else g.valueOf? j := by
  cases value with
  | none => exact g.values.get?_erase id j
  | some v => exact g.values.get?_insert id j v

theorem exists_setValues_eq (g : ConstantGraph α) (values : InsertionMap ConstantId (Option α)) :
    ∃ written, g.setValues values = { g with values := written } := by
  unfold setValues
  generalize values.entries = entries
  induction entries generalizing g with
  | nil => exact ⟨g.values, rfl⟩
  | cons entry entries ih =>
    obtain ⟨written, hwritten⟩ := ih (g.setValue entry.1 entry.2)
    refine ⟨written, ?_⟩
    rw [List.foldl_cons, hwritten]
    cases entry.2 <;> rfl

@[simp] theorem definitionOf_setValues (g : ConstantGraph α)
    (values : InsertionMap ConstantId (Option α)) (id : ConstantId) :
    (g.setValues values).definitionOf id = g.definitionOf id := by
  obtain ⟨written, hwritten⟩ := g.exists_setValues_eq values
  rw [hwritten]
  rfl

@[simp] theorem referencesOf_setValues (g : ConstantGraph α)
    (values : InsertionMap ConstantId (Option α)) (id : ConstantId) :
    (g.setValues values).referencesOf id = g.referencesOf id := by
  obtain ⟨written, hwritten⟩ := g.exists_setValues_eq values
  rw [hwritten]
  rfl

@[simp] theorem dependentsOf_setValues (g : ConstantGraph α)
    (values : InsertionMap ConstantId (Option α)) (id : ConstantId) :
    (g.setValues values).dependentsOf id = g.dependentsOf id := by
  obtain ⟨written, hwritten⟩ := g.exists_setValues_eq values
  rw [hwritten]
  rfl

theorem stagedLookup_eq (g : ConstantGraph α) (staged : InsertionMap ConstantId (Option α))
    (id : ConstantId) : g.stagedLookup staged id = (staged.get? id).getD (g.valueOf? id) := by
  unfold stagedLookup
  cases staged.get? id <;> rfl

/-- Written values stand in front of the ones that were there. -/
theorem valueOf?_setValues (g : ConstantGraph α) (values : InsertionMap ConstantId (Option α))
    (j : ConstantId) : (g.setValues values).valueOf? j = g.stagedLookup values j := by
  obtain ⟨entries, hnodup⟩ := values
  rw [stagedLookup_eq]
  simp only [setValues, InsertionMap.get?]
  induction entries generalizing g with
  | nil => rfl
  | cons entry entries ih =>
    obtain ⟨id, value⟩ := entry
    rw [List.foldl_cons, ih _ (List.nodup_cons.1 hnodup).2, valueOf?_setValue, List.lookup_cons]
    by_cases hj : j = id
    · subst hj
      rw [InsertionMap.lookup_cons_of_nodup hnodup]
      simp
    · have hne : (j == id) = false := beq_eq_false_iff_ne.2 hj
      rw [if_neg hj, hne]

variable [Arithmetic α]

def outcome (g : ConstantGraph α) (lookup : ConstantId → Option α) (id : ConstantId) : Option α :=
  (g.resolveWith id lookup).toOption

theorem staged_sweepStep (g : ConstantGraph α) (s : Sweep α) (id : ConstantId) :
    (g.sweepStep s id).staged =
      s.staged.insert id (g.outcome (g.stagedLookup s.staged) id) := by
  unfold sweepStep outcome
  cases g.resolveWith id (g.stagedLookup s.staged) <;> rfl

theorem values_sweepStep (g : ConstantGraph α) (s : Sweep α) (id : ConstantId) :
    (g.sweepStep s id).values =
      s.values.insert id (g.outcome (g.stagedLookup s.staged) id) := by
  unfold sweepStep outcome
  cases g.resolveWith id (g.stagedLookup s.staged) <;> rfl

/-- A pass over some constants decides nothing else. -/
theorem get?_foldl_sweepStep_of_not_mem (g : ConstantGraph α) (ids : List ConstantId)
    (s : Sweep α) {j : ConstantId} (hj : j ∉ ids) :
    (ids.foldl g.sweepStep s).staged.get? j = s.staged.get? j ∧
      (ids.foldl g.sweepStep s).values.get? j = s.values.get? j := by
  induction ids generalizing s with
  | nil => exact ⟨rfl, rfl⟩
  | cons id ids ih =>
    rw [List.mem_cons, not_or] at hj
    obtain ⟨hstaged, hvalues⟩ := ih (g.sweepStep s id) hj.2
    rw [List.foldl_cons, hstaged, hvalues, staged_sweepStep, values_sweepStep,
      InsertionMap.get?_insert_of_ne _ _ hj.1, InsertionMap.get?_insert_of_ne _ _ hj.1]
    exact ⟨rfl, rfl⟩

/-- What a pass has decided is recorded as it is staged. -/
theorem get?_staged_eq_values (g : ConstantGraph α) (ids : List ConstantId) (s : Sweep α)
    {j : ConstantId} (hj : j ∈ ids) :
    (ids.foldl g.sweepStep s).staged.get? j = (ids.foldl g.sweepStep s).values.get? j := by
  induction ids generalizing s with
  | nil => cases hj
  | cons id ids ih =>
    rw [List.foldl_cons]
    by_cases hlater : j ∈ ids
    · exact ih (g.sweepStep s id) hlater
    · have hid : j = id := (List.mem_cons.1 hj).resolve_right hlater
      obtain ⟨hstaged, hvalues⟩ := g.get?_foldl_sweepStep_of_not_mem ids (g.sweepStep s id) hlater
      rw [hstaged, hvalues, staged_sweepStep, values_sweepStep, hid,
        InsertionMap.get?_insert_self, InsertionMap.get?_insert_self]

/-- No constant of the list mentions itself or one that comes later. -/
structure Sequential (g : ConstantGraph α) (ids : List ConstantId) : Prop where
  nodup : ids.Nodup
  sorted : ids.Pairwise fun d r => ¬ (g.definitionOf d).Mentions r
  irreflexive : ∀ d ∈ ids, ¬ (g.definitionOf d).Mentions d

namespace Sequential

variable {g : ConstantGraph α} {d : ConstantId} {ids : List ConstantId}

omit [Arithmetic α] in
theorem not_mem_of_mentions (h : g.Sequential (d :: ids)) {r : ConstantId}
    (hr : (g.definitionOf d).Mentions r) : r ∉ d :: ids := by
  rw [List.mem_cons, not_or]
  constructor
  · rintro rfl
    exact h.irreflexive r List.mem_cons_self hr
  · intro hlater
    exact (List.pairwise_cons.1 h.sorted).1 r hlater hr

omit [Arithmetic α] in
theorem tail (h : g.Sequential (d :: ids)) : g.Sequential ids where
  nodup := (List.nodup_cons.1 h.nodup).2
  sorted := (List.pairwise_cons.1 h.sorted).2
  irreflexive d hd := h.irreflexive d (List.mem_cons_of_mem _ hd)

end Sequential

/-- A constant would be resolved at the end of a pass as it was when the pass came to it. -/
theorem Sequential.resolveWith_eq {g : ConstantGraph α} {d : ConstantId} {ids : List ConstantId}
    (h : g.Sequential (d :: ids)) (s : Sweep α) :
    g.resolveWith d (g.stagedLookup s.staged) =
      g.resolveWith d (g.stagedLookup (ids.foldl g.sweepStep (g.sweepStep s d)).staged) := by
  refine Definition.resolve_congr d fun r hr => ?_
  have hstable := g.get?_foldl_sweepStep_of_not_mem (d :: ids) s (h.not_mem_of_mentions hr)
  rw [List.foldl_cons] at hstable
  rw [stagedLookup_eq, stagedLookup_eq, hstable.1]

/-- One pass in an order that respects the references reaches a fixpoint. -/
theorem get?_staged_foldl_sweepStep {g : ConstantGraph α} {ids : List ConstantId} (s : Sweep α)
    (h : g.Sequential ids) {d : ConstantId} (hd : d ∈ ids) :
    (ids.foldl g.sweepStep s).staged.get? d =
      some (g.outcome (g.stagedLookup (ids.foldl g.sweepStep s).staged) d) := by
  induction ids generalizing s with
  | nil => cases hd
  | cons id ids ih =>
    rw [List.foldl_cons]
    rcases List.mem_cons.1 hd with rfl | hd
    · have hnew : d ∉ ids := (List.nodup_cons.1 h.nodup).1
      rw [(g.get?_foldl_sweepStep_of_not_mem ids (g.sweepStep s d) hnew).1, staged_sweepStep,
        InsertionMap.get?_insert_self, outcome, outcome, ← h.resolveWith_eq s]
    · exact ih (g.sweepStep s id) h.tail hd

/-- A pass over finite values stages finite values only. -/
theorem isFinite_foldl_sweepStep {g : ConstantGraph α} (ids : List ConstantId) (s : Sweep α)
    (h : ∀ j v, g.stagedLookup s.staged j = some v → Arithmetic.isFinite v = true) :
    ∀ j v, g.stagedLookup (ids.foldl g.sweepStep s).staged j = some v →
      Arithmetic.isFinite v = true := by
  induction ids generalizing s with
  | nil => exact h
  | cons id ids ih =>
    refine ih (g.sweepStep s id) fun j v hj => ?_
    rw [stagedLookup_eq, staged_sweepStep, InsertionMap.get?_insert] at hj
    by_cases hid : j = id
    · rw [if_pos hid] at hj
      have houtcome : g.outcome (g.stagedLookup s.staged) id = some v := hj
      unfold outcome at houtcome
      cases hresolve : g.resolveWith id (g.stagedLookup s.staged) with
      | error fault => rw [hresolve] at houtcome; cases houtcome
      | ok w =>
        rw [hresolve] at houtcome
        cases houtcome
        exact Definition.isFinite_of_resolve h hresolve
    · rw [if_neg hid, ← stagedLookup_eq] at hj
      exact h j v hj

def swept (g : ConstantGraph α) (root : ConstantId) (value : α) : ConstantGraph α :=
  g.setValues (g.sweep root (.singleton root (some value))).values

omit [Arithmetic α] in
theorem sweepOrder_perm (g : ConstantGraph α) (root : ConstantId) :
    (g.sweepOrder root).Perm (g.closure root) :=
  g.order_perm (g.nodup_closure root)

omit [Arithmetic α] in
/-- A sweep takes the dependents in an order that respects the references. -/
theorem Orderable.sequential_sweepOrder {g : ConstantGraph α} {root : ConstantId}
    (h : g.Orderable (g.closure root))
    (hcover : ∀ d ∈ g.closure root, ∀ r, (g.definitionOf d).Mentions r → r ∈ g.referencesOf d) :
    g.Sequential (g.sweepOrder root) where
  nodup := (g.sweepOrder_perm root).nodup_iff.2 (g.nodup_closure root)
  sorted := by
    refine (order_sorted (g.nodup_closure root) h).imp_of_mem fun hd _ hnot hmentions => ?_
    exact hnot (hcover _ ((g.sweepOrder_perm root).mem_iff.1 hd) _ hmentions)
  irreflexive d hd hmentions := by
    have hmember := (g.sweepOrder_perm root).mem_iff.1 hd
    exact h.not_self_reference hmember (hcover d hmember d hmentions)

theorem valueOf?_swept_of_not_mem (g : ConstantGraph α) {root j : ConstantId} (value : α)
    (hj : j ∉ g.closure root) : (g.swept root value).valueOf? j = g.valueOf? j := by
  have horder : j ∉ g.sweepOrder root := fun h => hj ((g.sweepOrder_perm root).mem_iff.1 h)
  unfold swept sweep
  rw [valueOf?_setValues, stagedLookup_eq,
    (g.get?_foldl_sweepStep_of_not_mem _ { staged := .singleton root (some value) } horder).2]
  rfl

/-- What a sweep looks up at its end are the values that it leaves behind. -/
theorem stagedLookup_sweep {g : ConstantGraph α} {root : ConstantId} {value : α}
    (hroot : g.valueOf? root = some value) (j : ConstantId) :
    g.stagedLookup (g.sweep root (.singleton root (some value))).staged j =
      (g.swept root value).valueOf? j := by
  unfold swept sweep
  rw [valueOf?_setValues, stagedLookup_eq, stagedLookup_eq]
  by_cases hj : j ∈ g.sweepOrder root
  · rw [g.get?_staged_eq_values _ _ hj]
  · obtain ⟨hstaged, hvalues⟩ :=
      g.get?_foldl_sweepStep_of_not_mem _ { staged := .singleton root (some value) } hj
    rw [hstaged, hvalues]
    simp only [InsertionMap.get?_singleton, InsertionMap.get?_empty]
    by_cases hjroot : j = root
    · simp [hjroot, hroot]
    · simp [hjroot]

theorem isFinite_swept {g : ConstantGraph α} {root : ConstantId} {value : α}
    (hroot : g.valueOf? root = some value)
    (hfinite : ∀ j v, g.valueOf? j = some v → Arithmetic.isFinite v = true) :
    ∀ j v, (g.swept root value).valueOf? j = some v → Arithmetic.isFinite v = true := by
  intro j v hj
  rw [← stagedLookup_sweep hroot] at hj
  refine isFinite_foldl_sweepStep _ { staged := .singleton root (some value) } ?_ j v hj
  intro k w hk
  rw [stagedLookup_eq, InsertionMap.get?_singleton] at hk
  by_cases hkroot : k = root
  · rw [if_pos hkroot] at hk
    exact hfinite k w (by rw [hkroot, hroot]; exact hk)
  · rw [if_neg hkroot] at hk
    exact hfinite k w hk

/-- After a sweep every dependent has the value that its definition gives. -/
theorem valueOf?_swept {g : ConstantGraph α} {root d : ConstantId} {value : α}
    (hroot : g.valueOf? root = some value) (horderable : g.Orderable (g.closure root))
    (hcover : ∀ d ∈ g.closure root, ∀ r, (g.definitionOf d).Mentions r → r ∈ g.referencesOf d)
    (hd : d ∈ g.closure root) :
    (g.swept root value).valueOf? d = ((g.swept root value).resolve d).toOption := by
  have hfix := get?_staged_foldl_sweepStep { staged := .singleton root (some value) }
    (horderable.sequential_sweepOrder hcover) ((g.sweepOrder_perm root).mem_iff.2 hd)
  have hvalue : (g.swept root value).valueOf? d = g.outcome (g.swept root value).valueOf? d := by
    rw [← stagedLookup_sweep hroot, ← funext fun j => stagedLookup_sweep hroot j, stagedLookup_eq]
    unfold sweep
    rw [hfix]
    rfl
  rw [hvalue]
  unfold outcome resolve resolveWith
  rw [swept, definitionOf_setValues]

end NamedConstants.ConstantGraph
