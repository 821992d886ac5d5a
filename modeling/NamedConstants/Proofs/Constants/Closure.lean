import NamedConstants.Constants.Closure
import Mathlib.Logic.Relation

/-!
The closure of a constant is what can be reached from it. The search keeps every
constant in `found` reachable, and every found constant that is no longer pending
expanded: its dependents are found, the root apart. When nothing is pending, what
was found is therefore closed under dependents.
-/
open Relation

namespace NamedConstants.ConstantGraph

variable {α : Type}

/-- `d` depends directly on `id`. -/
def DependsOn (g : ConstantGraph α) (id d : ConstantId) : Prop := d ∈ g.dependentsOf id

def Expanded (g : ConstantGraph α) (root : ConstantId) (found : List ConstantId)
    (id : ConstantId) : Prop :=
  ∀ d, g.DependsOn id d → d = root ∨ d ∈ found

theorem mem_freshDependents {g : ConstantGraph α} {root id d : ConstantId}
    {found : List ConstantId} :
    d ∈ g.freshDependents root found id ↔ g.DependsOn id d ∧ d ≠ root ∧ d ∉ found := by
  simp [freshDependents, DependsOn, InsertionSet.mem_iff]

theorem expanded_append_fresh (g : ConstantGraph α) (root id : ConstantId)
    (found : List ConstantId) :
    g.Expanded root (found ++ g.freshDependents root found id) id := by
  intro d hd
  by_cases hroot : d = root
  · exact Or.inl hroot
  · refine Or.inr (List.mem_append.2 ?_)
    by_cases hfound : d ∈ found
    · exact Or.inl hfound
    · exact Or.inr (mem_freshDependents.2 ⟨hd, hroot, hfound⟩)

theorem Expanded.append {g : ConstantGraph α} {root id : ConstantId} {found : List ConstantId}
    (h : g.Expanded root found id) (more : List ConstantId) :
    g.Expanded root (found ++ more) id := by
  intro d hd
  rcases h d hd with hroot | hfound
  · exact Or.inl hroot
  · exact Or.inr (List.mem_append_left _ hfound)

theorem mem_explore_of_mem (g : ConstantGraph α) (root : ConstantId)
    (pending found : List ConstantId) : ∀ d ∈ found, d ∈ g.explore root pending found := by
  induction pending, found using explore.induct g root with
  | case1 found =>
    rw [explore]
    exact fun _ h => h
  | case2 found id rest fresh ih =>
    rw [explore]
    exact fun d hd => ih d (List.mem_append_left _ hd)

/-- When the first pending constant is expanded, what was found is expanded or pending again. -/
theorem expanded_append {g : ConstantGraph α} {root id : ConstantId}
    {rest found : List ConstantId} (h : ∀ d ∈ found, d ∈ id :: rest ∨ g.Expanded root found d) :
    ∀ d ∈ found ++ g.freshDependents root found id,
      d ∈ rest ++ g.freshDependents root found id ∨
        g.Expanded root (found ++ g.freshDependents root found id) d := by
  intro d hd
  rcases List.mem_append.1 hd with hfound | hfresh
  · rcases h d hfound with hpending | hexpanded
    · rcases List.mem_cons.1 hpending with rfl | hrest
      · exact Or.inr (g.expanded_append_fresh root d found)
      · exact Or.inl (List.mem_append_left _ hrest)
    · exact Or.inr (hexpanded.append _)
  · exact Or.inl (List.mem_append_right _ hfresh)

/-- What the search returns is expanded, if everything found before is expanded or pending. -/
theorem expanded_explore {g : ConstantGraph α} {root : ConstantId}
    {pending found : List ConstantId}
    (h : ∀ id ∈ found, id ∈ pending ∨ g.Expanded root found id) :
    ∀ id ∈ g.explore root pending found, g.Expanded root (g.explore root pending found) id := by
  induction pending, found using explore.induct g root with
  | case1 found =>
    rw [explore]
    intro id hid
    rcases h id hid with hpending | hexpanded
    · cases hpending
    · exact hexpanded
  | case2 found id rest fresh ih =>
    rw [explore]
    exact ih (expanded_append h)

/-- The dependents of a reachable constant are reachable. -/
theorem reachable_append {g : ConstantGraph α} {root start id : ConstantId}
    {found : List ConstantId} (hid : id ∈ found)
    (h : ∀ d ∈ found, d ≠ root ∧ TransGen g.DependsOn start d) :
    ∀ d ∈ found ++ g.freshDependents root found id, d ≠ root ∧ TransGen g.DependsOn start d := by
  intro d hd
  rcases List.mem_append.1 hd with hfound | hfresh
  · exact h d hfound
  · obtain ⟨hdep, hroot, -⟩ := mem_freshDependents.1 hfresh
    exact ⟨hroot, (h id hid).2.tail hdep⟩

theorem reachable_explore {g : ConstantGraph α} {root start : ConstantId}
    {pending found : List ConstantId} (hsub : pending ⊆ found)
    (h : ∀ id ∈ found, id ≠ root ∧ TransGen g.DependsOn start id) :
    ∀ id ∈ g.explore root pending found, id ≠ root ∧ TransGen g.DependsOn start id := by
  induction pending, found using explore.induct g root with
  | case1 found =>
    rw [explore]
    exact h
  | case2 found id rest fresh ih =>
    rw [explore]
    refine ih ?_ (reachable_append (hsub (List.mem_cons_self ..)) h)
    intro d hd
    rcases List.mem_append.1 hd with hrest | hfresh
    · exact List.mem_append_left _ (hsub (List.mem_cons_of_mem _ hrest))
    · exact List.mem_append_right _ hfresh

theorem nodup_explore {g : ConstantGraph α} {root : ConstantId}
    {pending found : List ConstantId} (h : found.Nodup) :
    (g.explore root pending found).Nodup := by
  induction pending, found using explore.induct g root with
  | case1 found =>
    rw [explore]
    exact h
  | case2 found id rest fresh ih =>
    rw [explore]
    refine ih (List.nodup_append.2 ⟨h, (g.dependentsOf id).nodup.filter _, ?_⟩)
    intro a ha b hb hab
    exact (mem_freshDependents.1 hb).2.2 (hab ▸ ha)

theorem nodup_closure (g : ConstantGraph α) (root : ConstantId) : (g.closure root).Nodup :=
  nodup_explore (g.dependentsOf root).nodup

/-- The closure lists what can be reached from the root, and never the root itself. -/
theorem mem_closure {g : ConstantGraph α} {root d : ConstantId} (hroot : ¬ g.DependsOn root root) :
    d ∈ g.closure root ↔ d ≠ root ∧ TransGen g.DependsOn root d := by
  constructor
  · refine reachable_explore (List.Subset.refl _) (fun id hid => ?_) d
    exact ⟨fun h => hroot (h ▸ hid), TransGen.single hid⟩
  · rintro ⟨hne, hpath⟩
    have hexpanded : ∀ id ∈ g.closure root, g.Expanded root (g.closure root) id :=
      expanded_explore fun id hid => Or.inl hid
    have hdirect : ∀ c, g.DependsOn root c → c ∈ g.closure root :=
      fun c hc => g.mem_explore_of_mem root _ _ c hc
    have hmem : ∀ c, TransGen g.DependsOn root c → c = root ∨ c ∈ g.closure root := by
      intro c hc
      induction hc with
      | single hdep => exact Or.inr (hdirect _ hdep)
      | tail _ hdep ih =>
        rcases ih with rfl | hfound
        · exact Or.inr (hdirect _ hdep)
        · exact hexpanded _ hfound _ hdep
    exact (hmem d hpath).resolve_left hne

end NamedConstants.ConstantGraph
