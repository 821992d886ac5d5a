import NamedConstants.Constants.Graph

/-!
An order in which to re-resolve a set of constants: each one after the members that
it references, and the lowest identifier first among those whose turn it could be.
Constants that a cycle keeps waiting come last, in ascending order.
-/
namespace NamedConstants

/-- A constant that is not placed yet, and how many of its references it waits for. -/
structure Waiting where
  id : ConstantId
  outstanding : Nat
deriving DecidableEq, Repr

namespace Waiting

def IsReady (w : Waiting) : Prop := w.outstanding = 0

instance (w : Waiting) : Decidable w.IsReady := inferInstanceAs (Decidable (_ = _))

def settle (dependents : InsertionSet ConstantId) (w : Waiting) : Waiting :=
  if w.id ∈ dependents then { w with outstanding := w.outstanding - 1 } else w

def lowestReady? (waiting : List Waiting) : Option ConstantId :=
  ((waiting.filter fun w => w.IsReady).map Waiting.id).min?

theorem exists_of_lowestReady? {waiting : List Waiting} {id : ConstantId}
    (h : lowestReady? waiting = some id) : ∃ w ∈ waiting, w.id = id := by
  have hmem : id ∈ (waiting.filter fun w => w.IsReady).map Waiting.id := List.min?_mem h
  obtain ⟨w, hw, hid⟩ := List.mem_map.1 hmem
  exact ⟨w, (List.mem_filter.1 hw).1, hid⟩

end Waiting

namespace ConstantGraph

variable {α : Type}

/-- Constants that wait for no member may be listed more than once; each of the
others waits once. -/
def waitingList (g : ConstantGraph α) (members : List ConstantId) : List Waiting :=
  let waiting := members.map fun id =>
    { id, outstanding := ((g.referencesOf id).toList.filter (· ∈ members)).length : Waiting }
  let (free, blocked) := waiting.partition fun w => w.IsReady
  free ++ blocked.eraseDups

def placeReady (g : ConstantGraph α) (waiting : List Waiting) (placed : List ConstantId) :
    List ConstantId :=
  match _h : Waiting.lowestReady? waiting with
  | none => placed
  | some id =>
    let dependents := g.dependentsOf id
    g.placeReady ((waiting.eraseP fun w => w.id = id).map (Waiting.settle dependents))
      (placed ++ [id])
termination_by waiting.length
decreasing_by
  obtain ⟨w, hw, hid⟩ := Waiting.exists_of_lowestReady? _h
  have hlength := List.length_eraseP_of_mem (p := fun w : Waiting => decide (w.id = id)) hw
    (by simpa using hid)
  have hpos := List.length_pos_of_mem hw
  rw [List.length_map, hlength]
  omega

/-- Orders constants so that each comes after the members that it references. -/
def order (g : ConstantGraph α) (members : List ConstantId) : List ConstantId :=
  let placed := g.placeReady (g.waitingList members) []
  placed ++ (members.filter (· ∉ placed)).mergeSort

end ConstantGraph

end NamedConstants
