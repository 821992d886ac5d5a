import NamedConstants.Proofs.Constants.Linked

/-!
What the order of a sweep depends on. The sets of dependents list their members in the
order in which the edges were made, and a search meets the members of a closure in an
order that follows from it. The order of evaluation sees nothing of this: it is settled by
which constants are to be ordered and which of them depend on which.
-/
namespace NamedConstants

namespace Waiting

/-- The constant to be placed next is the same in whichever order the others wait. -/
theorem lowestReady?_of_perm {waiting waiting' : List Waiting} (h : waiting.Perm waiting') :
    lowestReady? waiting = lowestReady? waiting' := by
  have hready : ((waiting.filter fun w => w.IsReady).map Waiting.id).Perm
      ((waiting'.filter fun w => w.IsReady).map Waiting.id) := (h.filter _).map _
  unfold lowestReady?
  cases hlowest : ((waiting.filter fun w => w.IsReady).map Waiting.id).min? with
  | none =>
    rw [List.min?_eq_none_iff] at hlowest
    rw [hlowest] at hready
    exact (List.min?_eq_none_iff.2 hready.nil_eq.symm).symm
  | some id =>
    obtain ⟨hmem, hle⟩ := List.min?_eq_some_iff.1 hlowest
    refine (List.min?_eq_some_iff.2 ⟨hready.mem_iff.1 hmem, ?_⟩).symm
    intro b hb
    exact hle b (hready.mem_iff.2 hb)

theorem settle_congr {dependents dependents' : InsertionSet ConstantId}
    (h : ∀ d, d ∈ dependents ↔ d ∈ dependents') : settle dependents = settle dependents' := by
  funext w
  unfold settle
  simp only [h w.id]

theorem afterPlacing_perm {dependents dependents' : InsertionSet ConstantId}
    (hdependents : ∀ d, d ∈ dependents ↔ d ∈ dependents') (id : ConstantId)
    {waiting waiting' : List Waiting} (hnodup : (ids waiting).Nodup)
    (h : waiting.Perm waiting') :
    (afterPlacing dependents id waiting).Perm (afterPlacing dependents' id waiting') := by
  have hdistinct : waiting.Pairwise fun a b =>
      decide (a.id = id) = true → decide (b.id = id) = true → False := by
    refine (List.pairwise_map.1 hnodup).imp ?_
    intro a b hne ha hb
    exact hne ((of_decide_eq_true ha).trans (of_decide_eq_true hb).symm)
  unfold afterPlacing
  rw [settle_congr hdependents]
  exact (h.eraseP _ hdistinct).map _

end Waiting

namespace ConstantGraph

open Waiting (ids ids_afterPlacing)

variable {α β : Type} {g : ConstantGraph α} {g' : ConstantGraph β}

/-- The same constants depend on the same constants, and each definition lists the same
references. -/
structure SameEdges (g : ConstantGraph α) (g' : ConstantGraph β) : Prop where
  mem_dependentsOf : ∀ r d, d ∈ g.dependentsOf r ↔ d ∈ g'.dependentsOf r
  referencesOf : ∀ d, g.referencesOf d = g'.referencesOf d

namespace SameEdges

theorem placeReady_eq (h : g.SameEdges g') {waiting : List Waiting} (placed : List ConstantId)
    (hnodup : (ids waiting).Nodup) : ∀ {waiting' : List Waiting}, waiting.Perm waiting' →
      g.placeReady waiting placed = g'.placeReady waiting' placed := by
  induction waiting, placed using placeReady.induct g with
  | case1 waiting placed hlowest =>
    intro waiting' hperm
    have hlowest' := hlowest
    rw [Waiting.lowestReady?_of_perm hperm] at hlowest'
    rw [ConstantGraph.placeReady_eq, ConstantGraph.placeReady_eq, hlowest, hlowest']
  | case2 waiting placed id hlowest dependents ih =>
    intro waiting' hperm
    have hlowest' := hlowest
    rw [Waiting.lowestReady?_of_perm hperm] at hlowest'
    rw [ConstantGraph.placeReady_eq, ConstantGraph.placeReady_eq, hlowest, hlowest']
    have hids := ids_afterPlacing dependents id waiting
    rw [Waiting.afterPlacing] at hids
    refine ih ?_ (Waiting.afterPlacing_perm (h.mem_dependentsOf id) id hnodup hperm)
    rw [hids]
    exact hnodup.erase id

theorem waitingList_perm (h : g.SameEdges g') {members members' : List ConstantId}
    (hnodup : members.Nodup) (hperm : members.Perm members') :
    (g.waitingList members).Perm (g'.waitingList members') := by
  have hwaiting : g.waitingFor members = g'.waitingFor members' := by
    funext id
    simp only [waitingFor, h.referencesOf id, hperm.mem_iff]
  refine (g.waitingList_perm hnodup).trans ?_
  refine List.Perm.trans ?_ (g'.waitingList_perm (hperm.nodup_iff.1 hnodup)).symm
  rw [hwaiting]
  exact hperm.map _

/-- Sorting forgets in which order the numbers came. -/
private theorem mergeSort_eq_of_perm {l l' : List ConstantId} (h : l.Perm l') :
    l.mergeSort = l'.mergeSort := by
  have hsorted (l : List ConstantId) : l.mergeSort.Pairwise (· ≤ ·) := by
    have hpairwise := @List.pairwise_mergeSort ConstantId (fun a b => decide (a ≤ b))
      (by simpa only [decide_eq_true_eq] using fun a b c => Int.le_trans)
      (by simpa only [Bool.or_eq_true, decide_eq_true_eq] using Int.le_total) l
    simpa only [decide_eq_true_eq] using hpairwise
  refine List.Perm.eq_of_pairwise (fun a b _ _ hab hba => Int.le_antisymm hab hba)
    (hsorted l) (hsorted l') ?_
  exact (List.mergeSort_perm l _).trans (h.trans (List.mergeSort_perm l' _).symm)

/-- The same constants are put into the same order, in whichever order they come. -/
theorem order_eq (h : g.SameEdges g') {members members' : List ConstantId}
    (hnodup : members.Nodup) (hperm : members.Perm members') :
    g.order members = g'.order members' := by
  have hids : (ids (g.waitingList members)).Nodup :=
    (g.ids_waitingList_perm hnodup).nodup_iff.2 hnodup
  have hplaced := h.placeReady_eq [] hids (h.waitingList_perm hnodup hperm)
  unfold order
  rw [hplaced]
  exact congrArg _ (mergeSort_eq_of_perm (hperm.filter _))

end SameEdges

/-- Linked graphs with the same definitions have the same edges. -/
theorem Linked.sameEdges {g g' : ConstantGraph α} (hg : g.Linked) (hg' : g'.Linked)
    (hdef : ∀ id, g.definitionOf id = g'.definitionOf id) : g.SameEdges g' where
  referencesOf d := by rw [hg.references_eq, hg'.references_eq, hdef]
  mem_dependentsOf r d := by
    rw [hg.mem_dependentsOf_iff, hg'.mem_dependentsOf_iff, hg.references_eq, hg'.references_eq,
      hdef]

theorem mentions_eq {g g' : ConstantGraph α}
    (hdef : ∀ id, g.definitionOf id = g'.definitionOf id) : g.Mentions = g'.Mentions := by
  funext a b
  unfold Mentions
  rw [hdef]

theorem Linked.mem_closure_congr {g g' : ConstantGraph α} (hg : g.Linked) (hg' : g'.Linked)
    (hdef : ∀ id, g.definitionOf id = g'.definitionOf id) (root d : ConstantId) :
    d ∈ g.closure root ↔ d ∈ g'.closure root := by
  rw [hg.mem_closure, hg'.mem_closure, mentions_eq hdef]

/-- Linked graphs with the same definitions take the dependents in the same order. -/
theorem Linked.sweepOrder_eq {g g' : ConstantGraph α} (hg : g.Linked) (hg' : g'.Linked)
    (hdef : ∀ id, g.definitionOf id = g'.definitionOf id) (root : ConstantId) :
    g.sweepOrder root = g'.sweepOrder root := by
  refine (hg.sameEdges hg' hdef).order_eq (g.nodup_closure root) ?_
  exact (List.perm_ext_iff_of_nodup (g.nodup_closure root) (g'.nodup_closure root)).2
    (hg.mem_closure_congr hg' hdef root)

end ConstantGraph

end NamedConstants
