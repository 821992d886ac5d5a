import NamedConstants.Proofs.Source.Parsing
import NamedConstants.Proofs.Source.Spelling

/-!
Where the names of a parsed tree stand. The tokens of a text come one after another, so their
positions ascend, and each of them is spelled at its position. The names of a tree are the
name tokens of its phrase, in the same order.
-/
namespace NamedConstants

open Token

/-- The text has this name at the position, and no longer one. -/
def StandsAt (source name : String) (position : Nat) : Prop :=
  ∃ before after, source.toList = before ++ (name.toList ++ after) ∧ units before = position ∧
    Longest IsName name.toList after

structure Placed (source : String) (names : List (String × Nat)) : Prop where
  ascending : names.Pairwise fun first second => first.2 < second.2
  standsAt : ∀ n ∈ names, StandsAt source n.1 n.2

theorem units_pos {word : List Char} (h : word ≠ []) : 0 < units word := by
  cases word with
  | nil => exact absurd rfl h
  | cons c rest =>
    have hc : 0 < unitLength c := by
      unfold unitLength
      split <;> decide
    rw [units]
    omega

namespace Token

variable {position : Nat} {l : List Char} {lexemes : List Lexeme}

theorem unitLength_of_isBlank {c : Char} (h : IsBlank c) : unitLength c = 1 := by
  rcases h with rfl | rfl | rfl | rfl <;> rfl

/-- Every token of a text is spelled at its position. -/
theorem Tokenized.exists_spelled (h : Tokenized position l lexemes) :
    ∀ lexeme ∈ lexemes, ∃ before after, l = before ++ (lexeme.spelling ++ after) ∧
      position + units before = lexeme.position ∧
      Spelled lexeme.token lexeme.spelling after := by
  induction h with
  | done => exact List.forall_mem_nil _
  | @blank position c rest lexemes hblank hrest ih =>
    intro lexeme hlexeme
    obtain ⟨before, after, rfl, hposition, hspelled⟩ := ih lexeme hlexeme
    refine ⟨c :: before, after, rfl, ?_, hspelled⟩
    rw [units, unitLength_of_isBlank hblank, ← hposition, Nat.add_assoc]
  | @token first rest lexemes hspelled hrest ih =>
    rw [List.forall_mem_cons]
    refine ⟨⟨[], rest, rfl, rfl, hspelled⟩, fun lexeme hlexeme => ?_⟩
    obtain ⟨before, after, rfl, hposition, hlater⟩ := ih lexeme hlexeme
    refine ⟨first.spelling ++ before, after, by rw [List.append_assoc], ?_, hlater⟩
    rw [units_append, ← hposition, Lexeme.stop, Nat.add_assoc]

/-- The positions of the tokens ascend. -/
theorem Tokenized.ascending (h : Tokenized position l lexemes) :
    lexemes.Pairwise fun first second => first.position < second.position := by
  induction h with
  | done => exact .nil
  | blank hblank hrest ih => exact ih
  | @token first rest lexemes hspelled hrest ih =>
    refine .cons (fun lexeme hlexeme => ?_) ih
    obtain ⟨before, -, -, hposition, -⟩ := hrest.exists_spelled lexeme hlexeme
    have hpos := units_pos hspelled.ne_nil
    rw [Lexeme.stop] at hposition
    omega

end Token

def Lexeme.name? (lexeme : Lexeme) : Option (String × Nat) :=
  if lexeme.token = .name then some (lexeme.text, lexeme.position) else none

theorem Lexeme.name?_eq_none {lexeme : Lexeme} {token : Token} (htoken : lexeme.token = token)
    (hne : token ≠ .name) : lexeme.name? = none := by
  rw [Lexeme.name?, if_neg (htoken ▸ hne)]

section Phrases

variable {α : Type} [Arithmetic α] {source : String}

/-- The names of a tree are the name tokens of its phrase. -/
theorem Phrase.names_eq {level : PhraseLevel} {lexemes : List Lexeme} {tree : SourceTree α Nat}
    (h : Phrase level lexemes tree) : tree.names = lexemes.filterMap Lexeme.name? := by
  induction h with
  | sumOfProduct h ih => exact ih
  | productOfSigned h ih => exact ih
  | signedOfAtom h ih => exact ih
  | sum hleft htoken hop hright ihleft ihright =>
    rw [List.filterMap_append, List.filterMap_cons_none (Lexeme.name?_eq_none htoken (by simp)),
      SourceTree.names, ihleft, ihright]
  | product hleft htoken hop hright ihleft ihright =>
    rw [List.filterMap_append, List.filterMap_cons_none (Lexeme.name?_eq_none htoken (by simp)),
      SourceTree.names, ihleft, ihright]
  | minus htoken h ih =>
    rw [List.filterMap_cons_none (Lexeme.name?_eq_none htoken (by simp)), SourceTree.names, ih]
  | plus htoken h ih =>
    rw [List.filterMap_cons_none (Lexeme.name?_eq_none htoken (by simp)), ih]
  | parens hopening hclosing h ih =>
    rw [List.filterMap_cons_none (Lexeme.name?_eq_none hopening (by simp)),
      List.filterMap_append, List.filterMap_cons_none (Lexeme.name?_eq_none hclosing (by simp)),
      List.filterMap_nil, List.append_nil, ih]
  | number htoken hfinite =>
    rw [List.filterMap_cons_none (Lexeme.name?_eq_none htoken (by simp)), List.filterMap_nil,
      SourceTree.names]
  | name htoken =>
    rw [List.filterMap_cons_some (by rw [Lexeme.name?, if_pos htoken]), List.filterMap_nil,
      SourceTree.names]

/-- The names among the tokens of a text stand where the tokens do. -/
theorem Token.Tokenized.placed {lexemes : List Lexeme}
    (h : Tokenized 0 source.toList lexemes) :
    Placed source (lexemes.filterMap Lexeme.name?) := by
  have hname : ∀ (lexeme : Lexeme) (n : String × Nat), lexeme.name? = some n →
      lexeme.token = .name ∧ n = (lexeme.text, lexeme.position) := by
    intro lexeme n hn
    rw [Lexeme.name?] at hn
    split at hn
    · exact ⟨‹_›, (Option.some.inj hn).symm⟩
    · cases hn
  constructor
  · refine List.Pairwise.filterMap _ (fun first second hlt n hn m hm => ?_) h.ascending
    obtain ⟨-, rfl⟩ := hname first n hn
    obtain ⟨-, rfl⟩ := hname second m hm
    exact hlt
  · intro n hn
    obtain ⟨lexeme, hlexeme, heq⟩ := List.mem_filterMap.1 hn
    obtain ⟨htoken, rfl⟩ := hname lexeme n heq
    obtain ⟨before, after, hsource, hposition, hspelled⟩ := h.exists_spelled lexeme hlexeme
    rw [htoken] at hspelled
    have htext : lexeme.text.toList = lexeme.spelling := String.toList_ofList
    refine ⟨before, after, by rw [hsource, htext], by omega, ?_⟩
    rw [htext]
    cases hspelled with
    | name hlongest => exact hlongest

theorem SourceTree.Derives.placed {tree : SourceTree α Nat} (h : tree.Derives source) :
    Placed source tree.names := by
  obtain ⟨lexemes, htokenized, hphrase⟩ := h
  rw [hphrase.names_eq]
  exact htokenized.placed

theorem SourceRelation.Derives.placed {r : SourceRelation α Nat} (h : r.Derives source) :
    Placed source (r.lhs.names ++ r.rhs.names) := by
  obtain ⟨before, lexeme, after, htokenized, htoken, hbefore, hafter⟩ := h
  have hplaced := htokenized.placed
  rwa [List.filterMap_append, List.filterMap_cons_none (Lexeme.name?_eq_none htoken (by simp)),
    ← hbefore.names_eq, ← hafter.names_eq] at hplaced

end Phrases

end NamedConstants
