/-!
Finite maps that list their entries in order of insertion. Writing to a present
key keeps its place; erasing a key and writing it again moves it to the end.
The entries carry the proof that no key occurs twice.
-/
namespace NamedConstants

/-- An association list with distinct keys. -/
structure InsertionMap (κ ν : Type) where
  entries : List (κ × ν)
  nodup : (entries.map Prod.fst).Nodup

namespace InsertionMap

variable {κ ν μ : Type}

@[ext] theorem ext {m n : InsertionMap κ ν} (h : m.entries = n.entries) : m = n := by
  cases m
  cases n
  cases h
  rfl

instance [DecidableEq κ] [DecidableEq ν] : DecidableEq (InsertionMap κ ν) :=
  fun _ _ => decidable_of_iff _ ⟨ext, fun h => h ▸ rfl⟩

instance : EmptyCollection (InsertionMap κ ν) where
  emptyCollection := { entries := [], nodup := by simp }

instance : Inhabited (InsertionMap κ ν) where
  default := ∅

def keys (m : InsertionMap κ ν) : List κ := m.entries.map Prod.fst

def values (m : InsertionMap κ ν) : List ν := m.entries.map Prod.snd

def size (m : InsertionMap κ ν) : Nat := m.entries.length

def mapValues (m : InsertionMap κ ν) (f : ν → μ) : InsertionMap κ μ where
  entries := m.entries.map fun entry => (entry.1, f entry.2)
  nodup := by simpa [Function.comp_def] using m.nodup

variable [DecidableEq κ]

def get? (m : InsertionMap κ ν) (k : κ) : Option ν := m.entries.lookup k

def getD (m : InsertionMap κ ν) (k : κ) (fallback : ν) : ν := (m.get? k).getD fallback

def contains (m : InsertionMap κ ν) (k : κ) : Bool := (m.get? k).isSome

/-- Writes `v` at `k`: in place when the key is present, at the end otherwise. -/
def insert (m : InsertionMap κ ν) (k : κ) (v : ν) : InsertionMap κ ν :=
  if h : k ∈ m.entries.map Prod.fst then
    { entries := m.entries.map fun entry => if entry.1 = k then (entry.1, v) else entry
      nodup := by
        have hkeys : (m.entries.map fun entry => if entry.1 = k then (entry.1, v) else entry).map
            Prod.fst = m.entries.map Prod.fst := by
          rw [List.map_map]
          refine List.map_congr_left fun entry _ => ?_
          simp only [Function.comp]
          split <;> rfl
        rw [hkeys]
        exact m.nodup }
  else
    { entries := m.entries ++ [(k, v)]
      nodup := by
        rw [List.map_append]
        refine List.nodup_append.2 ⟨m.nodup, by simp, ?_⟩
        intro a ha b hb hab
        have hbk : b = k := by simpa using hb
        exact h (hbk ▸ hab ▸ ha) }

def erase (m : InsertionMap κ ν) (k : κ) : InsertionMap κ ν where
  entries := m.entries.filter fun entry => entry.1 ≠ k
  nodup := List.Nodup.sublist (List.filter_sublist.map Prod.fst) m.nodup

/-- Writes the entries of a list one after the other, so the last write to a key wins. -/
def ofList (l : List (κ × ν)) : InsertionMap κ ν :=
  l.foldl (fun m entry => m.insert entry.1 entry.2) ∅

def singleton (k : κ) (v : ν) : InsertionMap κ ν where
  entries := [(k, v)]
  nodup := by simp

@[simp] theorem get?_empty (k : κ) : (∅ : InsertionMap κ ν).get? k = none := rfl

private theorem lookup_eq_none_of_not_mem_keys {l : List (κ × ν)} {k : κ}
    (h : k ∉ l.map Prod.fst) : l.lookup k = none := by
  induction l with
  | nil => rfl
  | cons entry l ih =>
    rw [List.map_cons, List.mem_cons, not_or] at h
    have hne : (k == entry.1) = false := beq_eq_false_iff_ne.2 h.1
    rw [List.lookup_cons, hne, ih h.2]

theorem get?_eq_none_iff {m : InsertionMap κ ν} {k : κ} : m.get? k = none ↔ k ∉ m.keys := by
  refine ⟨fun h hk => ?_, lookup_eq_none_of_not_mem_keys⟩
  obtain ⟨entry, hentry, rfl⟩ := List.mem_map.1 hk
  have hall := List.lookup_eq_none_iff.1 h entry hentry
  simp at hall

private theorem lookup_overwrite_self {l : List (κ × ν)} {k : κ} {v : ν}
    (h : k ∈ l.map Prod.fst) :
    (l.map fun entry => if entry.1 = k then (entry.1, v) else entry).lookup k = some v := by
  induction l with
  | nil => simp at h
  | cons entry l ih =>
    by_cases hentry : entry.1 = k
    · simp [hentry]
    · have hmem : k ∈ l.map Prod.fst := by
        rcases List.mem_cons.1 h with hk | hk
        · exact absurd hk.symm hentry
        · exact hk
      have hne : (k == entry.1) = false := beq_eq_false_iff_ne.2 (Ne.symm hentry)
      rw [List.map_cons, if_neg hentry, List.lookup_cons, hne]
      exact ih hmem

private theorem lookup_overwrite_of_ne {l : List (κ × ν)} {k j : κ} {v : ν} (h : j ≠ k) :
    (l.map fun entry => if entry.1 = k then (entry.1, v) else entry).lookup j = l.lookup j := by
  induction l with
  | nil => rfl
  | cons entry l ih =>
    by_cases hentry : entry.1 = k
    · have hne : (j == entry.1) = false := beq_eq_false_iff_ne.2 (hentry ▸ h)
      rw [List.map_cons, if_pos hentry, List.lookup_cons, List.lookup_cons, hne]
      exact ih
    · rw [List.map_cons, if_neg hentry, List.lookup_cons, List.lookup_cons, ih]

@[simp] theorem get?_insert_self (m : InsertionMap κ ν) (k : κ) (v : ν) :
    (m.insert k v).get? k = some v := by
  by_cases h : k ∈ m.entries.map Prod.fst
  · simpa [get?, insert, h] using lookup_overwrite_self h
  · have hnone := lookup_eq_none_of_not_mem_keys h
    simp [get?, insert, h, List.lookup_append, hnone]

theorem get?_insert_of_ne (m : InsertionMap κ ν) {k j : κ} (v : ν) (h : j ≠ k) :
    (m.insert k v).get? j = m.get? j := by
  by_cases hk : k ∈ m.entries.map Prod.fst
  · simpa [get?, insert, hk] using lookup_overwrite_of_ne h
  · have hne : (j == k) = false := beq_eq_false_iff_ne.2 h
    simp [get?, insert, hk, List.lookup_append, List.lookup_cons, hne]

@[simp] theorem get?_erase_self (m : InsertionMap κ ν) (k : κ) : (m.erase k).get? k = none := by
  refine lookup_eq_none_of_not_mem_keys fun h => ?_
  obtain ⟨entry, hentry, hk⟩ := List.mem_map.1 h
  have hne := (List.mem_filter.1 hentry).2
  simp [hk] at hne

theorem get?_erase_of_ne (m : InsertionMap κ ν) {k j : κ} (h : j ≠ k) :
    (m.erase k).get? j = m.get? j := by
  obtain ⟨l, hl⟩ := m
  simp only [get?, erase]
  clear hl
  induction l with
  | nil => rfl
  | cons entry l ih =>
    by_cases hentry : entry.1 = k
    · have hne : (j == entry.1) = false := beq_eq_false_iff_ne.2 (hentry ▸ h)
      rw [List.filter_cons_of_neg (by simp [hentry]), List.lookup_cons, hne]
      exact ih
    · rw [List.filter_cons_of_pos (by simp [hentry]), List.lookup_cons, List.lookup_cons, ih]

end InsertionMap

end NamedConstants
