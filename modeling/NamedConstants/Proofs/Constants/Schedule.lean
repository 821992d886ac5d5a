import Mathlib
import NamedConstants.Proofs.Constants.Order

/-!
Which of all possible orders is taken. An order is possible if it puts each constant after
the others that it references. Placement always takes the lowest of the constants that could
come next, so at the first place where another possible order differs it has a lower number:
the order taken is the least of them, with lists of numbers compared lexicographically.
-/
namespace NamedConstants

namespace Waiting

theorem le_of_lowestReady? {waiting : List Waiting} {id : ConstantId}
    (h : lowestReady? waiting = some id) {w : Waiting} (hw : w ∈ waiting) (hready : w.IsReady) :
    id ≤ w.id := by
  refine (List.min?_eq_some_iff.1 h).2 w.id (List.mem_map.2 ⟨w, ?_, rfl⟩)
  exact List.mem_filter.2 ⟨hw, by simpa using hready⟩

end Waiting

namespace ConstantGraph

open Waiting (ids lowestReady? mem_ids_of_lowestReady? ids_afterPlacing)

variable {α : Type} {g : ConstantGraph α} {members : List ConstantId}

/-- The members in an order that puts each of them after every member that it references. -/
structure IsSchedule (g : ConstantGraph α) (members schedule : List ConstantId) : Prop where
  perm : schedule.Perm members
  mem_before : ∀ before d rest, schedule = before ++ d :: rest →
    ∀ r ∈ members, r ∈ g.referencesOf d → r ∈ before

namespace IsSchedule

variable {d : ConstantId} {schedule : List ConstantId}

/-- The first constant of a schedule references no member. -/
theorem not_mem_referencesOf_head (h : g.IsSchedule members (d :: schedule)) :
    ∀ r ∈ members, r ∉ g.referencesOf d := by
  intro r hr href
  have hbefore : r ∈ [] := h.mem_before [] d schedule rfl r hr href
  cases hbefore

/-- What follows the first constant is a schedule of the other members. -/
theorem tail (h : g.IsSchedule members (d :: schedule)) (hnodup : members.Nodup) :
    g.IsSchedule (members.erase d) schedule where
  perm := (List.cons_perm_iff_perm_erase.1 h.perm).2
  mem_before before e rest hsplit r hr href := by
    obtain ⟨hne, hmember⟩ := (hnodup.mem_erase_iff).1 hr
    have hbefore := h.mem_before (d :: before) e rest (by rw [hsplit, List.cons_append]) r hmember
      href
    exact (List.mem_cons.1 hbefore).resolve_left hne

end IsSchedule

/-- Without cycles the order taken is a schedule. -/
theorem Orderable.isSchedule_order (h : g.Orderable members) (hnodup : members.Nodup) :
    g.IsSchedule members (g.order members) where
  perm := g.order_perm hnodup
  mem_before before d rest hsplit r hr href := by
    have hperm := g.order_perm hnodup
    have hsorted := order_sorted hnodup h
    rw [hsplit] at hperm hsorted
    rcases List.mem_append.1 (hperm.mem_iff.2 hr) with hbefore | hlater
    · exact hbefore
    · exfalso
      have hd : d ∈ members := hperm.mem_iff.1 (by simp)
      rcases List.mem_cons.1 hlater with rfl | hrest
      · exact h.not_self_reference hd href
      · have hcons := (List.pairwise_append.1 hsorted).2.1
        exact (List.pairwise_cons.1 hcons).1 r hrest href

/-- Placement goes through the waiting constants in the least of their schedules. -/
theorem Placeable.placeReady_le {waiting : List Waiting} (placed : List ConstantId)
    (h : g.Placeable waiting) :
    ∃ sorted, g.placeReady waiting placed = placed ++ sorted ∧
      ∀ schedule, g.IsSchedule (ids waiting) schedule → sorted ≤ schedule := by
  induction waiting, placed using placeReady.induct g with
  | case1 waiting placed hlowest =>
    rw [placeReady_eq, hlowest]
    exact ⟨[], (List.append_nil placed).symm, fun schedule _ => not_lt.1 (List.not_lt_nil schedule)⟩
  | case2 waiting placed id hlowest dependents ih =>
    have hid := mem_ids_of_lowestReady? hlowest
    have hids : ids (Waiting.afterPlacing dependents id waiting) = (ids waiting).erase id :=
      ids_afterPlacing dependents id waiting
    obtain ⟨sorted, hplace, hleast⟩ := ih (h.afterPlacing hid)
    rw [placeReady_eq, hlowest]
    refine ⟨id :: sorted, hplace.trans (by rw [List.append_assoc, List.singleton_append]), ?_⟩
    intro schedule hschedule
    cases schedule with
    | nil => cases hschedule.perm.mem_iff.2 hid
    | cons d schedule =>
      -- a constant that can come first in a schedule is ready, and so not below the one placed
      obtain ⟨w, hw, rfl⟩ := List.mem_map.1 (hschedule.perm.mem_iff.1 List.mem_cons_self)
      have hready := h.counts.isReady hw hschedule.not_mem_referencesOf_head
      rcases lt_or_eq_of_le (Waiting.le_of_lowestReady? hlowest hw hready) with hlt | rfl
      · exact le_of_lt (List.cons_lt_cons_iff.2 (Or.inl hlt))
      · have hrest := hschedule.tail h.nodup
        rw [← hids] at hrest
        exact List.cons_le_cons _ (hleast schedule hrest)

/-- Ordering distinct constants permutes them, whatever edges a graph has. If the edges among
them agree in both directions and form no cycle, then of all orders in which each constant
comes after the listed ones that it references the lexicographically least is taken. -/
theorem order_isLeast (g : ConstantGraph α) (hnodup : members.Nodup) :
    (g.order members).Perm members ∧
      (g.Orderable members →
        IsLeast {schedule | g.IsSchedule members schedule} (g.order members)) := by
  refine ⟨g.order_perm hnodup, fun h => ⟨h.isSchedule_order hnodup, fun schedule hschedule => ?_⟩⟩
  obtain ⟨sorted, hplace, hleast⟩ := (Placeable.of_members hnodup h).placeReady_le []
  rw [order_eq_placeReady hnodup h, hplace, List.nil_append]
  have hids := g.ids_waitingList_perm hnodup
  refine hleast schedule ⟨hschedule.perm.trans hids.symm, fun before d rest hsplit r hr => ?_⟩
  exact hschedule.mem_before before d rest hsplit r (hids.mem_iff.1 hr)

def chains : ConstantGraph Rat where
  references := .ofList [(1, .ofList [4, 6]), (2, .ofList [3]), (4, .ofList [3]), (5, .ofList [9])]
  dependents := .ofList
    [(3, .ofList [4, 2]), (4, .ofList [1]), (6, .ofList [7, 1]), (7, .ofList [2])]

/-- The constants 6, 7 and 9 are not listed; only 3 and 5 can come first. -/
theorem order_isLeast_chains :
    ([1, 2, 3, 4, 5] : List ConstantId).Nodup ∧ chains.Orderable [1, 2, 3, 4, 5] ∧
      chains.order [1, 2, 3, 4, 5] = [3, 2, 4, 1, 5] ∧
      IsLeast {schedule | chains.IsSchedule [1, 2, 3, 4, 5] schedule} [3, 2, 4, 1, 5] := by
  have hnodup : ([1, 2, 3, 4, 5] : List ConstantId).Nodup := by decide
  have horderable : chains.Orderable [1, 2, 3, 4, 5] :=
    .of_rank (fun d => if d = 1 then 6 else if d = 2 then 4 else d) (by decide) (by decide)
  have horder : chains.order [1, 2, 3, 4, 5] = [3, 2, 4, 1, 5] := by cbv
  have hleast := (order_isLeast chains hnodup).2 horderable
  rw [horder] at hleast
  exact ⟨hnodup, horderable, horder, hleast⟩

end ConstantGraph

end NamedConstants
