import Mathlib.Logic.Function.Basic
import NamedConstants.InsertionMap

/-!
Look-up in maps after one write, after one erasure, and after a list of writes. An
update of the values at several distinct keys acts on each of them once.
-/
namespace NamedConstants.InsertionMap

variable {κ ν : Type} [DecidableEq κ]

theorem get?_insert (m : InsertionMap κ ν) (k j : κ) (v : ν) :
    (m.insert k v).get? j = if j = k then some v else m.get? j := by
  by_cases h : j = k
  · rw [if_pos h, h, get?_insert_self]
  · rw [if_neg h, get?_insert_of_ne m v h]

theorem get?_erase (m : InsertionMap κ ν) (k j : κ) :
    (m.erase k).get? j = if j = k then none else m.get? j := by
  by_cases h : j = k
  · rw [if_pos h, h, get?_erase_self]
  · rw [if_neg h, get?_erase_of_ne m h]

theorem get?_insert_eq_update (m : InsertionMap κ ν) (k : κ) (v : ν) :
    (m.insert k v).get? = Function.update m.get? k (some v) := by
  funext j
  rw [get?_insert, Function.update_apply]

theorem get?_erase_eq_update (m : InsertionMap κ ν) (k : κ) :
    (m.erase k).get? = Function.update m.get? k none := by
  funext j
  rw [get?_erase, Function.update_apply]

theorem getD_insert (m : InsertionMap κ ν) (k j : κ) (v d : ν) :
    (m.insert k v).getD j d = if j = k then v else m.getD j d := by
  unfold getD
  rw [get?_insert]
  split <;> rfl

theorem get?_singleton (k j : κ) (v : ν) :
    (singleton k v).get? j = if j = k then some v else none := by
  unfold singleton get?
  rw [List.lookup_cons]
  by_cases h : j = k
  · rw [if_pos h, beq_iff_eq.2 h]
  · rw [if_neg h, beq_eq_false_iff_ne.2 h]
    rfl

theorem contains_of_get? {m : InsertionMap κ ν} {k : κ} {v : ν} (h : m.get? k = some v) :
    m.contains k = true := by
  rw [contains, h]
  rfl

theorem contains_insert (m : InsertionMap κ ν) (k j : κ) (v : ν) :
    (m.insert k v).contains j = (decide (j = k) || m.contains j) := by
  unfold contains
  rw [get?_insert]
  by_cases h : j = k <;> simp [h]

theorem contains_erase (m : InsertionMap κ ν) (k j : κ) :
    (m.erase k).contains j = (!decide (j = k) && m.contains j) := by
  unfold contains
  rw [get?_erase]
  by_cases h : j = k <;> simp [h]

/-- A fold over the entries of a map sees each key once. -/
theorem lookup_cons_of_nodup {k : κ} {v : ν} {rest : List (κ × ν)}
    (h : (((k, v) :: rest).map Prod.fst).Nodup) : rest.lookup k = none := by
  have hk : k ∉ rest.map Prod.fst := (List.nodup_cons.1 h).1
  refine List.lookup_eq_none_iff.2 fun entry hentry => ?_
  have hne : k ≠ entry.1 := fun he => hk (he ▸ List.mem_map.2 ⟨entry, hentry, rfl⟩)
  simpa using hne

theorem mem_entries_iff {m : InsertionMap κ ν} {k : κ} {v : ν} :
    (k, v) ∈ m.entries ↔ m.get? k = some v := by
  obtain ⟨entries, nodup⟩ := m
  unfold get?
  induction entries with
  | nil => simp
  | cons first rest ih =>
    have hrest : (rest.map Prod.fst).Nodup := (List.nodup_cons.1 nodup).2
    rw [List.mem_cons, List.lookup_cons, ih hrest]
    by_cases hk : k = first.1
    · subst hk
      have hnone : rest.lookup first.1 = none := lookup_cons_of_nodup (v := first.2) nodup
      rw [hnone]
      simp [Prod.ext_iff, eq_comm]
    · have hne : (k, v) ≠ first := fun h => hk (congrArg Prod.fst h)
      rw [beq_eq_false_iff_ne.2 hk]
      simp [hne]

/-- A write to a new key comes last. -/
theorem entries_insert_of_get?_eq_none {m : InsertionMap κ ν} {k : κ} (v : ν)
    (h : m.get? k = none) : (m.insert k v).entries = m.entries ++ [(k, v)] := by
  have hk : k ∉ m.entries.map Prod.fst := get?_eq_none_iff.1 h
  unfold insert
  rw [dif_neg hk]

/-- A write to a present key changes nothing that the old value and the new one share. -/
theorem map_entries_insert {μ : Type} {m : InsertionMap κ ν} {k : κ} {old v : ν}
    (h : m.get? k = some old) {g : κ × ν → μ} (hg : g (k, v) = g (k, old)) :
    (m.insert k v).entries.map g = m.entries.map g := by
  have hmem : (k, old) ∈ m.entries := mem_entries_iff.2 h
  have hk : k ∈ m.entries.map Prod.fst := List.mem_map_of_mem hmem
  unfold insert
  rw [dif_pos hk, List.map_map]
  refine List.map_congr_left fun entry hentry => ?_
  by_cases heq : entry.1 = k
  · have hold : entry.2 = old := by
      have hget := mem_entries_iff.1 (show (k, entry.2) ∈ m.entries from heq ▸ hentry)
      rw [h, Option.some.injEq] at hget
      exact hget.symm
    obtain ⟨first, second⟩ := entry
    dsimp only at heq hold
    subst heq hold
    simpa using hg
  · simp [heq]

/-- Updating the values at distinct keys, one key after the other. -/
theorem getD_foldl_insert (f : ν → ν) (d : ν) (keys : List κ) (h : keys.Nodup)
    (m : InsertionMap κ ν) (j : κ) :
    (keys.foldl (fun m k => m.insert k (f (m.getD k d))) m).getD j d =
      if j ∈ keys then f (m.getD j d) else m.getD j d := by
  induction keys generalizing m with
  | nil => rfl
  | cons k keys ih =>
    obtain ⟨hk, hkeys⟩ := List.nodup_cons.1 h
    rw [List.foldl_cons, ih hkeys, getD_insert]
    by_cases hj : j = k
    · subst hj
      simp [hk]
    · simp [hj]

end NamedConstants.InsertionMap
