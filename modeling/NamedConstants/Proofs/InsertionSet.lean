import Mathlib.Data.List.Basic
import Mathlib.Data.List.Induction
import NamedConstants.InsertionMap
import NamedConstants.InsertionSet

/-!
The order of first appearance. Collecting a list lists its members by where they stand
first, and a list that has been collected before can be added in place of the list itself.
The keys of a map form such a set: writing a key adds it.
-/
namespace NamedConstants

namespace InsertionSet

variable {α : Type} [DecidableEq α]

theorem insertMany_append (s : InsertionSet α) (first second : List α) :
    s.insertMany (first ++ second) = (s.insertMany first).insertMany second :=
  List.foldl_append

theorem insertMany_singleton (s : InsertionSet α) (a : α) : s.insertMany [a] = s.insert a := rfl

theorem ofList_append_singleton (l : List α) (a : α) :
    ofList (l ++ [a]) = (ofList l).insert a := insertMany_append ∅ l [a]

/-- The members of a list are listed by where they stand first. -/
theorem pairwise_idxOf_ofList (l : List α) :
    (ofList l).toList.Pairwise fun a b => l.idxOf a < l.idxOf b := by
  induction l using List.reverseRecOn with
  | nil => exact List.Pairwise.nil
  | append_singleton l a ih =>
    have hkept {b c : α} (hb : b ∈ ofList l) (hc : c ∈ ofList l)
        (hbc : l.idxOf b < l.idxOf c) : (l ++ [a]).idxOf b < (l ++ [a]).idxOf c := by
      rwa [List.idxOf_append_of_mem (mem_ofList.1 hb), List.idxOf_append_of_mem (mem_ofList.1 hc)]
    have hold := ih.imp_of_mem fun hb hc hbc => hkept hb hc hbc
    rw [ofList_append_singleton]
    by_cases ha : a ∈ ofList l
    · rwa [insert_of_mem ha]
    · rw [toList_insert_of_not_mem ha, List.pairwise_append]
      refine ⟨hold, List.pairwise_singleton _ a, fun b hb c hc => ?_⟩
      rw [List.mem_singleton.1 hc]
      have hbl : b ∈ l := mem_ofList.1 hb
      rw [List.idxOf_append_of_mem hbl, List.idxOf_append_of_notMem (mt mem_ofList.2 ha)]
      exact Nat.lt_add_right _ (List.idxOf_lt_length_iff.2 hbl)

/-- Adding the collected members of a list is adding the list. -/
theorem insertMany_toList_ofList (s : InsertionSet α) (l : List α) :
    s.insertMany (ofList l).toList = s.insertMany l := by
  induction l using List.reverseRecOn with
  | nil => rfl
  | append_singleton l a ih =>
    rw [ofList_append_singleton, insertMany_append, insertMany_singleton, ← ih]
    by_cases ha : a ∈ ofList l
    · rw [insert_of_mem ha, insert_of_mem (mem_insertMany.2 (Or.inr ha))]
    · rw [toList_insert_of_not_mem ha, insertMany_append, insertMany_singleton]

/-- What is looked for in a list is found in the same place among its collected members. -/
theorem find?_toList_ofList (p : α → Bool) (l : List α) :
    (ofList l).toList.find? p = l.find? p := by
  induction l using List.reverseRecOn with
  | nil => rfl
  | append_singleton l a ih =>
    rw [ofList_append_singleton, List.find?_append, ← ih]
    by_cases ha : a ∈ ofList l
    · rw [insert_of_mem ha]
      cases hfind : (ofList l).toList.find? p with
      | some b => rfl
      | none =>
        have hnot : p a = false := by simpa using List.find?_eq_none.1 hfind a ha
        simp [hnot]
    · rw [toList_insert_of_not_mem ha, List.find?_append]

theorem ofList_append (first second : List α) :
    ofList (first ++ second) = (ofList first).insertMany (ofList second).toList := by
  rw [insertMany_toList_ofList]
  exact insertMany_append ∅ first second

end InsertionSet

namespace InsertionMap

variable {κ ν μ : Type}

def keySet (m : InsertionMap κ ν) : InsertionSet κ where
  toList := m.keys
  nodup := m.nodup

@[simp] theorem toList_keySet (m : InsertionMap κ ν) : m.keySet.toList = m.keys := rfl

theorem keySet_mapValues (m : InsertionMap κ ν) (f : ν → μ) :
    (m.mapValues f).keySet = m.keySet := by
  apply InsertionSet.ext
  simp [keys, mapValues, Function.comp_def]

variable [DecidableEq κ]

/-- Writing a key adds it to the keys. -/
theorem keySet_insert (m : InsertionMap κ ν) (k : κ) (v : ν) :
    (m.insert k v).keySet = m.keySet.insert k := by
  by_cases h : k ∈ m.keys
  · rw [InsertionSet.insert_of_mem h]
    have h' : k ∈ m.entries.map Prod.fst := h
    apply InsertionSet.ext
    simp only [toList_keySet, keys, insert, dif_pos h', List.map_map]
    refine List.map_congr_left fun entry _ => ?_
    simp only [Function.comp]
    split <;> rfl
  · apply InsertionSet.ext
    have h' : k ∉ m.entries.map Prod.fst := h
    rw [InsertionSet.toList_insert_of_not_mem h]
    simp only [toList_keySet, keys, insert, dif_neg h', List.map_append]
    rfl

end InsertionMap

end NamedConstants
