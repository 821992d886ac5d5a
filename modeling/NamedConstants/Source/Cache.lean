import NamedConstants.InsertionMap
import NamedConstants.Source.Parse

/-!
Caches of parsed texts. Each keeps the texts requested most recently, up to a fixed
number, least recent first. A text that does not parse is not kept.
-/
namespace NamedConstants

/-- The values for the most recently requested texts, least recent first. -/
structure RecentCache (ν : Type) where
  entries : InsertionMap String ν := ∅

namespace RecentCache

def capacity : Nat := 256

variable {ν ε : Type}

def size (c : RecentCache ν) : Nat := c.entries.size

def contains (c : RecentCache ν) (text : String) : Bool := c.entries.contains text

def trim (m : InsertionMap String ν) : InsertionMap String ν where
  entries := m.entries.drop (m.size - capacity)
  nodup := by
    rw [List.map_drop]
    exact m.nodup.sublist (List.drop_sublist _ _)

/-- The value for a text, kept or computed, and the cache with that text as the most
recent one. -/
def request (compute : String → Except ε ν) (c : RecentCache ν) (text : String) :
    Except ε (ν × RecentCache ν) :=
  match c.entries.get? text with
  | some value => .ok (value, { entries := (c.entries.erase text).insert text value })
  | none =>
    match compute text with
    | .ok value => .ok (value, { entries := trim (c.entries.insert text value) })
    | .error e => .error e

end RecentCache

/-- Expressions and relations are kept apart, each with its own capacity. -/
structure ParseCache (α : Type) where
  expressions : RecentCache (SourceTree α Nat) := {}
  relations : RecentCache (SourceRelation α Nat) := {}

namespace ParseCache

variable {α : Type} [Arithmetic α]

instance : EmptyCollection (ParseCache α) where
  emptyCollection := {}

def size (c : ParseCache α) : Nat := c.expressions.size + c.relations.size

def expression (c : ParseCache α) (source : String) :
    Except SyntaxError (SourceTree α Nat × ParseCache α) := do
  let (tree, expressions) ← c.expressions.request SourceTree.parse source
  return (tree, { c with expressions })

def relation (c : ParseCache α) (source : String) :
    Except SyntaxError (SourceRelation α Nat × ParseCache α) := do
  let (tree, relations) ← c.relations.request SourceRelation.parse source
  return (tree, { c with relations })

end ParseCache

end NamedConstants
