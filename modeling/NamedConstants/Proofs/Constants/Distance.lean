import Mathlib
import NamedConstants.Proofs.Constants.Closure

/-!
The closure of a constant comes in order of distance. The search keeps what it has found
sorted by the distance from the root, with the pending constants at the end, and finds nothing
that is more than one step further away than a pending constant. Whatever is no further away
than the first of these is found already, since the way to it leads through constants that were
expanded before. So what is found newly is one step further away than the constant that it
depends on directly, and its place is at the end.
-/
open Relation

namespace NamedConstants.ConstantGraph

variable {α : Type} {g : ConstantGraph α} {root id : ConstantId}
  {rest pending found : List ConstantId}

/-- A constant is reached from the root in this many steps, each of them from a constant to
one of its dependents. -/
inductive ReachedIn (g : ConstantGraph α) (root : ConstantId) : Nat → ConstantId → Prop where
  | start : ReachedIn g root 0 root
  | step (n : Nat) (c d : ConstantId) (hreached : ReachedIn g root n c) (hdep : g.DependsOn c d) :
      ReachedIn g root (n + 1) d

noncomputable def distance (g : ConstantGraph α) (root d : ConstantId) : Nat :=
  sInf {n | g.ReachedIn root n d}

theorem distance_le {n : Nat} {d : ConstantId} (h : g.ReachedIn root n d) :
    g.distance root d ≤ n :=
  Nat.sInf_le h

theorem exists_reachedIn {d : ConstantId} (h : TransGen g.DependsOn root d) :
    ∃ n, g.ReachedIn root n d := by
  induction h with
  | single hdep => exact ⟨1, .step 0 _ _ .start hdep⟩
  | tail _ hdep ih =>
    obtain ⟨n, hn⟩ := ih
    exact ⟨n + 1, .step n _ _ hn hdep⟩

theorem reachedIn_distance {d : ConstantId} (h : TransGen g.DependsOn root d) :
    g.ReachedIn root (g.distance root d) d :=
  Nat.sInf_mem (exists_reachedIn h)

/-- The direct dependents are one step away. -/
theorem distance_eq_one {d : ConstantId} (hdep : g.DependsOn root d) (hne : d ≠ root) :
    g.distance root d = 1 := by
  have hle : g.distance root d ≤ 1 := distance_le (.step 0 _ _ .start hdep)
  have hreached := reachedIn_distance (TransGen.single hdep)
  have hpos : g.distance root d ≠ 0 := by
    intro hzero
    rw [hzero] at hreached
    cases hreached
    exact hne rfl
  omega

structure Frontier (g : ConstantGraph α) (root : ConstantId)
    (pending found : List ConstantId) : Prop where
  suffix : pending <:+ found
  reachable : ∀ d ∈ found, d ≠ root ∧ TransGen g.DependsOn root d
  expanded_root : g.Expanded root found root
  expanded : ∀ d ∈ found, d ∈ pending ∨ g.Expanded root found d
  sorted : found.Pairwise fun a b => g.distance root a ≤ g.distance root b
  span : ∀ a ∈ pending, ∀ b ∈ found, g.distance root b ≤ g.distance root a + 1

namespace Frontier

theorem distance_le_of_mem (h : g.Frontier root (id :: rest) found) {d : ConstantId}
    (hd : d ∈ id :: rest) : g.distance root id ≤ g.distance root d := by
  have hsorted := h.sorted.sublist h.suffix.sublist
  rcases List.mem_cons.1 hd with rfl | hrest
  · exact Nat.le_refl _
  · exact List.rel_of_pairwise_cons hsorted hrest

/-- Everything that is no further away than the first pending constant has been found. -/
theorem mem_found_of_reachedIn (h : g.Frontier root (id :: rest) found) {n : Nat}
    {d : ConstantId} (hreached : g.ReachedIn root n d) (hle : n ≤ g.distance root id) :
    d = root ∨ d ∈ found := by
  induction hreached with
  | start => exact Or.inl rfl
  | step n c d hc hdep ih =>
    rcases ih (Nat.le_of_succ_le hle) with rfl | hfound
    · exact h.expanded_root d hdep
    · rcases h.expanded c hfound with hpending | hexpanded
      · -- what is pending is further away than `c`
        have hnear : g.distance root c ≤ n := distance_le hc
        have hfar := h.distance_le_of_mem hpending
        omega
      · exact hexpanded d hdep

theorem distance_fresh (h : g.Frontier root (id :: rest) found) {d : ConstantId}
    (hd : d ∈ g.freshDependents root found id) :
    g.distance root d = g.distance root id + 1 := by
  obtain ⟨hdep, hne, hnew⟩ := mem_freshDependents.1 hd
  have hid : TransGen g.DependsOn root id := (h.reachable id (h.suffix.mem (by simp))).2
  have hle : g.distance root d ≤ g.distance root id + 1 :=
    distance_le (.step _ _ _ (reachedIn_distance hid) hdep)
  have hgt : ¬ g.distance root d ≤ g.distance root id := by
    intro hnear
    rcases h.mem_found_of_reachedIn (reachedIn_distance (hid.tail hdep)) hnear with hroot | hfound
    · exact hne hroot
    · exact hnew hfound
  omega

/-- Expanding the first pending constant keeps the search in order. -/
theorem expand (h : g.Frontier root (id :: rest) found) :
    g.Frontier root (rest ++ g.freshDependents root found id)
      (found ++ g.freshDependents root found id) where
  suffix := List.suffix_append_self_iff.2 ((List.suffix_cons id rest).trans h.suffix)
  reachable := reachable_append (h.suffix.mem (List.mem_cons_self ..)) h.reachable
  expanded_root := h.expanded_root.append _
  expanded := expanded_append h.expanded
  sorted := by
    refine List.pairwise_append.2 ⟨h.sorted, ?_, fun a ha b hb => ?_⟩
    · refine List.pairwise_of_forall_mem_list fun a ha b hb => ?_
      rw [h.distance_fresh ha, h.distance_fresh hb]
    · rw [h.distance_fresh hb]
      exact h.span id (List.mem_cons_self ..) a ha
  span := by
    intro a ha b hb
    have hfirst : g.distance root id ≤ g.distance root a := by
      rcases List.mem_append.1 ha with hrest | hfresh
      · exact h.distance_le_of_mem (List.mem_cons_of_mem _ hrest)
      · have heq := h.distance_fresh hfresh
        omega
    have hlast : g.distance root b ≤ g.distance root id + 1 := by
      rcases List.mem_append.1 hb with hfound | hfresh
      · exact h.span id (List.mem_cons_self ..) b hfound
      · exact Nat.le_of_eq (h.distance_fresh hfresh)
    omega

theorem sorted_explore (h : g.Frontier root pending found) :
    (g.explore root pending found).Pairwise fun a b =>
      g.distance root a ≤ g.distance root b := by
  induction pending, found using explore.induct g root with
  | case1 found =>
    rw [explore]
    exact h.sorted
  | case2 found id rest fresh ih =>
    rw [explore]
    exact ih h.expand

end Frontier

/-- The search starts from the direct dependents, which are all at the same distance. -/
theorem frontier_dependentsOf (hroot : ¬ g.DependsOn root root) :
    g.Frontier root (g.dependentsOf root).toList (g.dependentsOf root).toList := by
  have hne : ∀ d ∈ (g.dependentsOf root).toList, d ≠ root := fun d hd h => hroot (h ▸ hd)
  have hone : ∀ d ∈ (g.dependentsOf root).toList, g.distance root d = 1 :=
    fun d hd => distance_eq_one hd (hne d hd)
  exact
    { suffix := List.suffix_refl _
      reachable := fun d hd => ⟨hne d hd, TransGen.single hd⟩
      expanded_root := fun d hd => Or.inr hd
      expanded := fun d hd => Or.inl hd
      sorted := List.pairwise_of_forall_mem_list fun a ha b hb => by rw [hone a ha, hone b hb]
      span := fun a ha b hb => by rw [hone a ha, hone b hb]; omega }

/-- Whatever cycles there are, the closure of a constant that is not its own direct dependent
lists every constant that can be reached from it in one or more steps, the constant itself
apart, once, and those that are nearer come first. -/
theorem dependents_nearest_first (g : ConstantGraph α) (root : ConstantId)
    (hroot : ¬ g.DependsOn root root) :
    (g.closure root).Nodup ∧
      (∀ d, d ∈ g.closure root ↔ d ≠ root ∧ TransGen g.DependsOn root d) ∧
      (g.closure root).Pairwise fun a b => g.distance root a ≤ g.distance root b :=
  ⟨g.nodup_closure root, fun _ => mem_closure hroot, (frontier_dependentsOf hroot).sorted_explore⟩

/-- The first constant is reached again from a direct dependent and from a distant one. Of its
dependents, 3 depends on itself, and 5 and 6 can be reached in two steps and in three. -/
def looped : ConstantGraph Rat where
  dependents := .ofList
    [(1, .ofList [4, 2]), (2, .ofList [3, 1, 5]), (3, .ofList [3, 2, 6]), (4, .ofList [6]),
      (5, .ofList [7]), (6, .ofList [5, 1])]

theorem dependents_nearest_first_looped :
    ¬ looped.DependsOn 1 1 ∧ looped.closure 1 = [4, 2, 6, 3, 5, 7] ∧
      (looped.closure 1).Nodup ∧
      (∀ d, d ∈ looped.closure 1 ↔ d ≠ 1 ∧ TransGen looped.DependsOn 1 d) ∧
      (looped.closure 1).Pairwise fun a b => looped.distance 1 a ≤ looped.distance 1 b := by
  have hroot : ¬ looped.DependsOn 1 1 := by
    unfold DependsOn
    decide
  exact ⟨hroot, by cbv, dependents_nearest_first looped 1 hroot⟩

end NamedConstants.ConstantGraph
