import NamedConstants.Constants.Graph

/-!
The transitive dependents of a constant, found breadth first. Every constant met is
put at the end of a queue once; the queue is both the list of those still to be
expanded and, read as a whole, the answer. The search ends because each round either
finds a new dependent or shortens the queue.
-/
namespace NamedConstants.ConstantGraph

variable {α : Type}

def allDependents (g : ConstantGraph α) : List ConstantId :=
  g.dependents.entries.flatMap fun entry => entry.2.toList

private theorem mem_of_lookup_eq_some {ν : Type} {l : List (ConstantId × ν)} {id : ConstantId}
    {v : ν} (h : l.lookup id = some v) : (id, v) ∈ l := by
  induction l with
  | nil => simp at h
  | cons entry l ih =>
    rw [List.lookup_cons] at h
    by_cases hid : id = entry.1
    · have hv : entry.2 = v := by simpa [hid] using h
      simp [hid, ← hv]
    · have hne : (id == entry.1) = false := beq_eq_false_iff_ne.2 hid
      rw [hne] at h
      exact List.mem_cons_of_mem _ (ih h)

theorem mem_allDependents {g : ConstantGraph α} {id d : ConstantId}
    (h : d ∈ g.dependentsOf id) : d ∈ g.allDependents := by
  unfold dependentsOf InsertionMap.getD InsertionMap.get? at h
  cases hlookup : g.dependents.entries.lookup id with
  | none =>
    rw [hlookup] at h
    exact absurd h (InsertionSet.not_mem_empty d)
  | some members =>
    rw [hlookup] at h
    exact List.mem_flatMap.2 ⟨(id, members), mem_of_lookup_eq_some hlookup, h⟩

def freshDependents (g : ConstantGraph α) (root : ConstantId) (found : List ConstantId)
    (id : ConstantId) : List ConstantId :=
  (g.dependentsOf id).toList.filter fun d => d ≠ root ∧ d ∉ found

def unfound (g : ConstantGraph α) (found : List ConstantId) : List ConstantId :=
  g.allDependents.filter fun d => d ∉ found

theorem length_unfound_append_lt (g : ConstantGraph α) (root id : ConstantId)
    (found : List ConstantId) (h : g.freshDependents root found id ≠ []) :
    (g.unfound (found ++ g.freshDependents root found id)).length < (g.unfound found).length := by
  obtain ⟨d, hd⟩ := List.exists_mem_of_ne_nil _ h
  have hdep : d ∈ (g.dependentsOf id).toList := (List.mem_filter.1 hd).1
  have hnew : d ∉ found := by
    have hcond := (List.mem_filter.1 hd).2
    simp only [decide_eq_true_eq] at hcond
    exact hcond.2
  have hsplit : g.unfound (found ++ g.freshDependents root found id)
      = (g.unfound found).filter fun d => d ∉ g.freshDependents root found id := by
    simp only [unfound, List.filter_filter]
    refine List.filter_congr fun x _ => ?_
    simp [List.mem_append, not_or, Bool.and_comm]
  rw [hsplit]
  refine List.length_filter_lt_length_iff_exists.2 ⟨d, ?_, by simpa using hd⟩
  exact List.mem_filter.2 ⟨mem_allDependents hdep, by simpa using hnew⟩

/-- Expands the constants in `pending`, which are the last ones of `found`. -/
def explore (g : ConstantGraph α) (root : ConstantId) (pending found : List ConstantId) :
    List ConstantId :=
  match pending with
  | [] => found
  | id :: rest =>
    let fresh := g.freshDependents root found id
    g.explore root (rest ++ fresh) (found ++ fresh)
termination_by ((g.unfound found).length, pending.length)
decreasing_by
  by_cases h : g.freshDependents root found id = []
  · simp only [h, List.append_nil]
    exact Prod.Lex.right _ (by simp)
  · exact Prod.Lex.left _ _ (length_unfound_append_lt g root id found h)

/-- The direct and transitive dependents of a constant, nearest first. -/
def closure (g : ConstantGraph α) (root : ConstantId) : List ConstantId :=
  g.explore root (g.dependentsOf root).toList (g.dependentsOf root).toList

end NamedConstants.ConstantGraph
