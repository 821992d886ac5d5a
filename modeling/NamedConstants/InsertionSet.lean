/-!
Finite sets that remember the order in which their members were first added.
Adding a present member keeps its place; erasing a member and adding it again
moves it to the end. The list of members carries the proof that none occurs twice.
-/
namespace NamedConstants

/-- A duplicate-free list, read as a set whose members come in order of insertion. -/
structure InsertionSet (α : Type) where
  toList : List α
  nodup : toList.Nodup
deriving DecidableEq

namespace InsertionSet

variable {α : Type}

@[ext] theorem ext {s t : InsertionSet α} (h : s.toList = t.toList) : s = t := by
  cases s
  cases t
  cases h
  rfl

instance : EmptyCollection (InsertionSet α) where
  emptyCollection := { toList := [], nodup := List.nodup_nil }

instance : Inhabited (InsertionSet α) where
  default := ∅

instance : Membership α (InsertionSet α) where
  mem s a := a ∈ s.toList

theorem mem_iff {a : α} {s : InsertionSet α} : a ∈ s ↔ a ∈ s.toList := Iff.rfl

@[simp] theorem toList_empty : (∅ : InsertionSet α).toList = [] := rfl

@[simp] theorem not_mem_empty (a : α) : a ∉ (∅ : InsertionSet α) := by
  simp [mem_iff]

def size (s : InsertionSet α) : Nat := s.toList.length

def isEmpty (s : InsertionSet α) : Bool := s.toList.isEmpty

variable [DecidableEq α]

instance (a : α) (s : InsertionSet α) : Decidable (a ∈ s) :=
  inferInstanceAs (Decidable (a ∈ s.toList))

def insert (s : InsertionSet α) (a : α) : InsertionSet α :=
  if h : a ∈ s.toList then s
  else
    { toList := s.toList ++ [a]
      nodup := by
        refine List.nodup_append.2 ⟨s.nodup, by simp, ?_⟩
        intro b hb c hc hbc
        have hca : c = a := by simpa using hc
        exact h (hca ▸ hbc ▸ hb) }

def erase (s : InsertionSet α) (a : α) : InsertionSet α where
  toList := s.toList.erase a
  nodup := s.nodup.erase a

def insertMany (s : InsertionSet α) (l : List α) : InsertionSet α := l.foldl insert s

def union (s t : InsertionSet α) : InsertionSet α := s.insertMany t.toList

instance : Union (InsertionSet α) where
  union := union

def ofList (l : List α) : InsertionSet α := (∅ : InsertionSet α).insertMany l

def singleton (a : α) : InsertionSet α where
  toList := [a]
  nodup := by simp

theorem insert_of_mem {s : InsertionSet α} {a : α} (h : a ∈ s) : s.insert a = s := by
  simp [insert, mem_iff.1 h]

theorem toList_insert_of_not_mem {s : InsertionSet α} {a : α} (h : a ∉ s) :
    (s.insert a).toList = s.toList ++ [a] := by
  have h' : a ∉ s.toList := h
  simp [insert, h']

@[simp] theorem mem_insert {s : InsertionSet α} {a b : α} : b ∈ s.insert a ↔ b = a ∨ b ∈ s := by
  by_cases h : a ∈ s
  · rw [insert_of_mem h]
    constructor
    · exact Or.inr
    · rintro (rfl | hb)
      · exact h
      · exact hb
  · simp [mem_iff, toList_insert_of_not_mem h, or_comm]

@[simp] theorem mem_erase {s : InsertionSet α} {a b : α} : b ∈ s.erase a ↔ b ≠ a ∧ b ∈ s := by
  simpa [mem_iff, erase] using s.nodup.mem_erase_iff

@[simp] theorem mem_insertMany {s : InsertionSet α} {l : List α} {b : α} :
    b ∈ s.insertMany l ↔ b ∈ s ∨ b ∈ l := by
  induction l generalizing s with
  | nil => simp [insertMany]
  | cons a l ih =>
    have hstep : s.insertMany (a :: l) = (s.insert a).insertMany l := rfl
    rw [hstep, ih, mem_insert, List.mem_cons]
    constructor
    · rintro ((rfl | h) | h)
      · exact Or.inr (Or.inl rfl)
      · exact Or.inl h
      · exact Or.inr (Or.inr h)
    · rintro (h | rfl | h)
      · exact Or.inl (Or.inr h)
      · exact Or.inl (Or.inl rfl)
      · exact Or.inr h

@[simp] theorem mem_union {s t : InsertionSet α} {b : α} : b ∈ s ∪ t ↔ b ∈ s ∨ b ∈ t :=
  mem_insertMany

@[simp] theorem mem_ofList {l : List α} {b : α} : b ∈ ofList l ↔ b ∈ l := by
  simp [ofList]

end InsertionSet

end NamedConstants
