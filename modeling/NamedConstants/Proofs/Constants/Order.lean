import NamedConstants.Constants.Order
import Mathlib.Logic.Relation
import Mathlib.Order.WellFoundedSet

/-!
The order in which constants are resolved again. Whatever the edges are, ordering
distinct constants only permutes them. When the edges among them agree in both
directions and form no cycle, no constant comes before one that it references.
The invariant of the placement is that each constant still waiting knows how many
of the constants still waiting it references.
-/
open Relation

namespace NamedConstants

namespace Waiting

@[simp] theorem id_settle (dependents : InsertionSet ConstantId) (w : Waiting) :
    (w.settle dependents).id = w.id := by
  unfold settle
  split <;> rfl

def ids (waiting : List Waiting) : List ConstantId := waiting.map Waiting.id

def afterPlacing (dependents : InsertionSet ConstantId) (id : ConstantId)
    (waiting : List Waiting) : List Waiting :=
  (waiting.eraseP fun w => w.id = id).map (settle dependents)

theorem ids_afterPlacing (dependents : InsertionSet ConstantId) (id : ConstantId)
    (waiting : List Waiting) :
    ids (afterPlacing dependents id waiting) = (ids waiting).erase id := by
  have hids : Waiting.id ∘ settle dependents = Waiting.id := funext fun w => id_settle dependents w
  rw [afterPlacing, ids, List.map_map, hids, ids, List.erase_eq_eraseP', List.eraseP_map]
  rfl

theorem exists_isReady_of_lowestReady? {waiting : List Waiting} {id : ConstantId}
    (h : lowestReady? waiting = some id) : ∃ w ∈ waiting, w.id = id ∧ w.IsReady := by
  have hmem : id ∈ (waiting.filter fun w => w.IsReady).map Waiting.id := List.min?_mem h
  obtain ⟨w, hw, hid⟩ := List.mem_map.1 hmem
  obtain ⟨hwaiting, hready⟩ := List.mem_filter.1 hw
  exact ⟨w, hwaiting, hid, by simpa using hready⟩

theorem mem_ids_of_lowestReady? {waiting : List Waiting} {id : ConstantId}
    (h : lowestReady? waiting = some id) : id ∈ ids waiting := by
  obtain ⟨w, hw, hid, -⟩ := exists_isReady_of_lowestReady? h
  exact List.mem_map.2 ⟨w, hw, hid⟩

theorem not_isReady_of_lowestReady? {waiting : List Waiting}
    (h : lowestReady? waiting = none) : ∀ w ∈ waiting, ¬ w.IsReady := by
  intro w hw hready
  have hnil : (waiting.filter fun w => w.IsReady).map Waiting.id = [] := List.min?_eq_none_iff.1 h
  have hmem : w ∈ waiting.filter fun w => w.IsReady := List.mem_filter.2 ⟨hw, by simpa using hready⟩
  rw [List.map_eq_nil_iff.1 hnil] at hmem
  cases hmem

end Waiting

namespace ConstantGraph

open Waiting (ids lowestReady? mem_ids_of_lowestReady? ids_afterPlacing)

variable {α : Type}

theorem placeReady_eq (g : ConstantGraph α) (waiting : List Waiting) (placed : List ConstantId) :
    g.placeReady waiting placed =
      match lowestReady? waiting with
      | none => placed
      | some id =>
        g.placeReady (Waiting.afterPlacing (g.dependentsOf id) id waiting) (placed ++ [id]) := by
  rw [placeReady]
  split <;> rename_i h <;> rw [h]
  rfl

/-- Placing moves constants from the waiting ones to the end of the placed ones. -/
theorem exists_placeReady_perm (g : ConstantGraph α) (waiting : List Waiting)
    (placed : List ConstantId) :
    ∃ stuck, (g.placeReady waiting placed ++ stuck).Perm (placed ++ ids waiting) := by
  induction waiting, placed using placeReady.induct g with
  | case1 waiting placed h =>
    rw [placeReady_eq, h]
    exact ⟨ids waiting, List.Perm.refl _⟩
  | case2 waiting placed id h dependents ih =>
    obtain ⟨stuck, hstuck⟩ := ih
    rw [placeReady_eq, h]
    refine ⟨stuck, hstuck.trans ?_⟩
    have hids := ids_afterPlacing dependents id waiting
    rw [Waiting.afterPlacing] at hids
    rw [hids, List.append_assoc]
    exact (List.perm_cons_erase (mem_ids_of_lowestReady? h)).symm.append_left placed

private theorem eraseDups_eq_self {l : List Waiting} (h : l.Nodup) : l.eraseDups = l := by
  induction l with
  | nil => rfl
  | cons w l ih =>
    obtain ⟨hw, hl⟩ := List.nodup_cons.1 h
    have hfilter : l.filter (fun v => !v == w) = l := by
      refine List.filter_eq_self.2 fun v hv => ?_
      have hne : v ≠ w := fun he => hw (he ▸ hv)
      simpa using hne
    rw [List.eraseDups_cons, hfilter, ih hl]

def waitingFor (g : ConstantGraph α) (members : List ConstantId) (id : ConstantId) : Waiting :=
  { id, outstanding := ((g.referencesOf id).toList.filter (· ∈ members)).length }

/-- Distinct members wait once each, the ready ones first. -/
theorem waitingList_perm (g : ConstantGraph α) {members : List ConstantId}
    (h : members.Nodup) : (g.waitingList members).Perm (members.map (g.waitingFor members)) := by
  have hnodup : (members.map (g.waitingFor members)).Nodup := by
    refine List.Nodup.of_map Waiting.id ?_
    rw [List.map_map]
    simpa [Function.comp_def, waitingFor] using h
  have hblocked := eraseDups_eq_self (hnodup.filter fun w => !decide w.IsReady)
  have hlist : g.waitingList members =
      ((members.map (g.waitingFor members)).filter fun w => decide w.IsReady) ++
        ((members.map (g.waitingFor members)).filter fun w => !decide w.IsReady).eraseDups := by
    simp only [waitingList, List.partition_eq_filter_filter]
    rfl
  rw [hlist, hblocked]
  exact List.filter_append_perm _ _

theorem ids_waitingList_perm (g : ConstantGraph α) {members : List ConstantId}
    (h : members.Nodup) : (ids (g.waitingList members)).Perm members := by
  have hperm := (g.waitingList_perm h).map Waiting.id
  rw [List.map_map] at hperm
  have hid : members.map (Waiting.id ∘ g.waitingFor members) = members := List.map_id members
  rwa [hid] at hperm

/-- Ordering distinct constants permutes them, whatever the graph. -/
theorem order_perm (g : ConstantGraph α) {members : List ConstantId} (h : members.Nodup) :
    (g.order members).Perm members := by
  obtain ⟨stuck, hstuck⟩ := g.exists_placeReady_perm (g.waitingList members) []
  rw [List.nil_append] at hstuck
  have hmembers := hstuck.trans (g.ids_waitingList_perm h)
  have hnodup : (g.placeReady (g.waitingList members) [] ++ stuck).Nodup :=
    hmembers.nodup_iff.2 h
  obtain ⟨-, hstuckNodup, hdisjoint⟩ := List.nodup_append.1 hnodup
  have hrest : (members.filter (· ∉ g.placeReady (g.waitingList members) [])).Perm stuck := by
    refine (List.perm_ext_iff_of_nodup (h.filter _) hstuckNodup).2 fun id => ?_
    rw [List.mem_filter, ← hmembers.mem_iff, List.mem_append]
    simp only [decide_eq_true_eq]
    constructor
    · rintro ⟨hid | hid, hnot⟩
      · exact absurd hid hnot
      · exact hid
    · exact fun hid => ⟨Or.inr hid, fun hplaced => hdisjoint id hplaced id hid rfl⟩
  unfold order
  exact (((List.mergeSort_perm _ _).trans hrest).append_left _).trans hmembers

def MemberReference (g : ConstantGraph α) (members : List ConstantId) (d r : ConstantId) : Prop :=
  d ∈ members ∧ r ∈ members ∧ r ∈ g.referencesOf d

/-- Among the members, the edges agree in both directions and form no cycle. -/
structure Orderable (g : ConstantGraph α) (members : List ConstantId) : Prop where
  mem_dependentsOf : ∀ d ∈ members, ∀ r ∈ members,
    d ∈ g.dependentsOf r ↔ r ∈ g.referencesOf d
  acyclic : ∀ d, ¬ TransGen (g.MemberReference members) d d

namespace Orderable

variable {g : ConstantGraph α} {members : List ConstantId}

theorem not_self_reference (h : g.Orderable members) {d : ConstantId} (hd : d ∈ members) :
    d ∉ g.referencesOf d :=
  fun hself => h.acyclic d (TransGen.single ⟨hd, hd, hself⟩)

theorem mono (h : g.Orderable members) {fewer : List ConstantId} (hsub : fewer ⊆ members) :
    g.Orderable fewer where
  mem_dependentsOf d hd r hr := h.mem_dependentsOf d (hsub hd) r (hsub hr)
  acyclic d hd := h.acyclic d (TransGen.mono
    (fun a b (hab : g.MemberReference fewer a b) => ⟨hsub hab.1, hsub hab.2.1, hab.2.2⟩) d d hd)

/-- Constants that reference only constants of lower rank form no cycle. -/
theorem of_rank (rank : ConstantId → Int)
    (hedges : ∀ d ∈ members, ∀ r ∈ members, d ∈ g.dependentsOf r ↔ r ∈ g.referencesOf d)
    (hrank : ∀ d ∈ members, ∀ r ∈ members, r ∈ g.referencesOf d → rank r < rank d) :
    g.Orderable members where
  mem_dependentsOf := hedges
  acyclic d hcycle := by
    have hdescends : TransGen (fun a b => rank b < rank a) d d :=
      TransGen.mono (fun a b hab => hrank a hab.1 b hab.2.1 hab.2.2) d d hcycle
    have htransitive : IsTrans ConstantId fun a b => rank b < rank a :=
      ⟨fun _ _ _ hab hbc => Int.lt_trans hbc hab⟩
    rw [transGen_eq_self] at hdescends
    exact Int.lt_irrefl _ hdescends

/-- Among finitely many constants without a cycle, one references none of the others. -/
theorem exists_free (h : g.Orderable members) (hne : members ≠ []) :
    ∃ d ∈ members, ∀ r ∈ members, r ∉ g.referencesOf d := by
  obtain ⟨start, hstart⟩ := List.exists_mem_of_ne_nil _ hne
  let below (r d : ConstantId) : Prop := TransGen (g.MemberReference members) d r
  have : IsStrictOrder ConstantId below :=
    { irrefl := h.acyclic
      trans := fun a b c hab hbc => TransGen.trans hbc hab }
  have hwf : {d | d ∈ members}.WellFoundedOn below := members.finite_toSet.wellFoundedOn
  refine hwf.induction (P := fun _ => ∃ d ∈ members, ∀ r ∈ members, r ∉ g.referencesOf d)
    hstart fun d hd ih => ?_
  by_cases hfree : ∀ r ∈ members, r ∉ g.referencesOf d
  · exact ⟨d, hd, hfree⟩
  · push Not at hfree
    obtain ⟨r, hr, hdr⟩ := hfree
    exact ih r hr (TransGen.single ⟨hd, hr, hdr⟩)

end Orderable

def Counts (g : ConstantGraph α) (waiting : List Waiting) : Prop :=
  ∀ w ∈ waiting, w.outstanding = ((g.referencesOf w.id).toList.filter (· ∈ ids waiting)).length

theorem counts_waitingList (g : ConstantGraph α) {members : List ConstantId}
    (h : members.Nodup) : g.Counts (g.waitingList members) := by
  intro w hw
  obtain ⟨id, -, rfl⟩ := List.mem_map.1 ((g.waitingList_perm h).mem_iff.1 hw)
  simp only [waitingFor, (g.ids_waitingList_perm h).mem_iff]

/-- A ready constant references none of those that wait. -/
theorem Counts.not_mem_referencesOf {g : ConstantGraph α} {waiting : List Waiting}
    (h : g.Counts waiting) {w : Waiting} (hw : w ∈ waiting) (hready : w.IsReady) :
    ∀ r ∈ ids waiting, r ∉ g.referencesOf w.id := by
  intro r hr href
  have hzero : ((g.referencesOf w.id).toList.filter (· ∈ ids waiting)).length = 0 := by
    rw [← h w hw]
    exact hready
  have hmem : r ∈ (g.referencesOf w.id).toList.filter (· ∈ ids waiting) :=
    List.mem_filter.2 ⟨href, by simpa using hr⟩
  rw [List.length_eq_zero_iff.1 hzero] at hmem
  cases hmem

private theorem length_filter_mem_erase {l ids : List ConstantId} (hl : l.Nodup) (hids : ids.Nodup)
    {id : ConstantId} (hid : id ∈ ids) :
    (l.filter (· ∈ ids.erase id)).length =
      if id ∈ l then (l.filter (· ∈ ids)).length - 1 else (l.filter (· ∈ ids)).length := by
  have herase : l.filter (· ∈ ids.erase id) = (l.filter (· ∈ ids)).erase id := by
    rw [(hl.filter _).erase_eq_filter, List.filter_filter]
    refine List.filter_congr fun x _ => ?_
    by_cases hx : x = id <;> simp [hids.mem_erase_iff, hx]
  rw [herase, List.length_erase]
  simp [hid]

/-- Placing a constant keeps the counts right, because its dependents are told. -/
theorem Counts.afterPlacing {g : ConstantGraph α} {waiting : List Waiting}
    (hcounts : g.Counts waiting) (hnodup : (ids waiting).Nodup)
    (horderable : g.Orderable (ids waiting)) {id : ConstantId} (hid : id ∈ ids waiting) :
    g.Counts (Waiting.afterPlacing (g.dependentsOf id) id waiting) := by
  intro w' hw'
  obtain ⟨w, hw, rfl⟩ := List.mem_map.1 hw'
  have hwaiting : w ∈ waiting := List.mem_of_mem_eraseP hw
  have hmem : w.id ∈ ids waiting := List.mem_map.2 ⟨w, hwaiting, rfl⟩
  rw [ids_afterPlacing, Waiting.id_settle,
    length_filter_mem_erase (g.referencesOf w.id).nodup hnodup hid, ← hcounts w hwaiting]
  have hedge : w.id ∈ g.dependentsOf id ↔ id ∈ (g.referencesOf w.id).toList :=
    horderable.mem_dependentsOf w.id hmem id hid
  unfold Waiting.settle
  by_cases hdep : w.id ∈ g.dependentsOf id
  · rw [if_pos hdep, if_pos (hedge.1 hdep)]
  · rw [if_neg hdep, if_neg fun h => hdep (hedge.2 h)]

/-- A constant that references none of those that wait is ready. -/
theorem Counts.isReady {g : ConstantGraph α} {waiting : List Waiting} (h : g.Counts waiting)
    {w : Waiting} (hw : w ∈ waiting) (hfree : ∀ r ∈ ids waiting, r ∉ g.referencesOf w.id) :
    w.IsReady := by
  have hempty : (g.referencesOf w.id).toList.filter (· ∈ ids waiting) = [] :=
    List.filter_eq_nil_iff.2 fun r href hr => hfree r (by simpa using hr) href
  rw [Waiting.IsReady, h w hw, hempty, List.length_nil]

structure Placeable (g : ConstantGraph α) (waiting : List Waiting) : Prop where
  nodup : (ids waiting).Nodup
  counts : g.Counts waiting
  orderable : g.Orderable (ids waiting)

namespace Placeable

variable {g : ConstantGraph α} {waiting : List Waiting}

theorem of_members {members : List ConstantId} (hnodup : members.Nodup)
    (h : g.Orderable members) : g.Placeable (g.waitingList members) where
  nodup := (g.ids_waitingList_perm hnodup).nodup_iff.2 hnodup
  counts := g.counts_waitingList hnodup
  orderable := h.mono (g.ids_waitingList_perm hnodup).subset

theorem afterPlacing (h : g.Placeable waiting) {id : ConstantId} (hid : id ∈ ids waiting) :
    g.Placeable (Waiting.afterPlacing (g.dependentsOf id) id waiting) where
  nodup := by
    rw [ids_afterPlacing]
    exact h.nodup.erase id
  counts := h.counts.afterPlacing h.nodup h.orderable hid
  orderable := by
    rw [ids_afterPlacing]
    exact h.orderable.mono List.erase_subset

/-- As long as constants wait, one of them is ready. -/
theorem ids_eq_nil (h : g.Placeable waiting) (hnone : lowestReady? waiting = none) :
    ids waiting = [] := by
  by_contra hne
  obtain ⟨d, hd, hfree⟩ := h.orderable.exists_free hne
  obtain ⟨w, hw, rfl⟩ := List.mem_map.1 hd
  exact Waiting.not_isReady_of_lowestReady? hnone w hw (h.counts.isReady hw hfree)

end Placeable

/-- Placement takes every waiting constant, none of them before one that it references. -/
theorem placeReady_sorted {g : ConstantGraph α} {waiting : List Waiting}
    (placed : List ConstantId) (hplaceable : g.Placeable waiting) :
    ∃ sorted, g.placeReady waiting placed = placed ++ sorted ∧ sorted.Perm (ids waiting) ∧
      sorted.Pairwise fun d r => r ∉ g.referencesOf d := by
  induction waiting, placed using placeReady.induct g with
  | case1 waiting placed h =>
    rw [placeReady_eq, h]
    exact ⟨[], by simp, by rw [hplaceable.ids_eq_nil h], List.Pairwise.nil⟩
  | case2 waiting placed id h dependents ih =>
    have hid := mem_ids_of_lowestReady? h
    have hids := ids_afterPlacing dependents id waiting
    obtain ⟨sorted, hplace, hperm, hsorted⟩ := ih (hplaceable.afterPlacing hid)
    obtain ⟨w, hw, rfl, hready⟩ := Waiting.exists_isReady_of_lowestReady? h
    rw [placeReady_eq, h]
    refine ⟨w.id :: sorted, ?_, ?_, List.pairwise_cons.2 ⟨fun r hr => ?_, hsorted⟩⟩
    · exact hplace.trans (by rw [List.append_assoc, List.singleton_append])
    · have hrest : sorted.Perm ((ids waiting).erase w.id) := hids ▸ hperm
      exact (hrest.cons w.id).trans (List.perm_cons_erase hid).symm
    · have hmem : r ∈ (ids waiting).erase w.id := hids ▸ hperm.mem_iff.1 hr
      exact hplaceable.counts.not_mem_referencesOf hw hready r (List.mem_of_mem_erase hmem)

/-- Without cycles the order is what placement gives, since nothing is left waiting. -/
theorem order_eq_placeReady {g : ConstantGraph α} {members : List ConstantId}
    (hnodup : members.Nodup) (h : g.Orderable members) :
    g.order members = g.placeReady (g.waitingList members) [] := by
  obtain ⟨sorted, hplace, hperm, -⟩ := placeReady_sorted [] (Placeable.of_members hnodup h)
  rw [List.nil_append] at hplace
  have hrest : members.filter (· ∉ sorted) = [] := by
    refine List.filter_eq_nil_iff.2 fun d hd => ?_
    simpa using (hperm.trans (g.ids_waitingList_perm hnodup)).mem_iff.2 hd
  simp only [order, hplace, hrest, List.mergeSort_nil, List.append_nil]

/-- Without cycles, no constant comes before one that it references. -/
theorem order_sorted {g : ConstantGraph α} {members : List ConstantId} (hnodup : members.Nodup)
    (h : g.Orderable members) : (g.order members).Pairwise fun d r => r ∉ g.referencesOf d := by
  obtain ⟨sorted, hplace, -, hsorted⟩ := placeReady_sorted [] (Placeable.of_members hnodup h)
  rw [order_eq_placeReady hnodup h, hplace]
  exact hsorted

end ConstantGraph

end NamedConstants
