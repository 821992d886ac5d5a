import NamedConstants.Proofs.Source.Reading

/-!
Parsing against the grammar: a text is parsed to a tree if and only if the grammar derives
the tree from the whole text, and it is refused otherwise. So no text has two trees.
-/
namespace NamedConstants

open Token

variable {α : Type} [Arithmetic α] {source : String}

theorem bind_eq_ok_iff {ε β γ : Type} {x : Except ε β} {f : β → Except ε γ} {c : γ} :
    x >>= f = .ok c ↔ ∃ b, x = .ok b ∧ f b = .ok c := by
  cases x with
  | error e => simp [bind, Except.bind]
  | ok b => simp [bind, Except.bind]

theorem bind_eq_error_iff {ε β γ : Type} {x : Except ε β} {f : β → Except ε γ} {e : ε} :
    x >>= f = .error e ↔ x = .error e ∨ ∃ b, x = .ok b ∧ f b = .error e := by
  cases x with
  | error e' => simp [bind, Except.bind]
  | ok b => simp [bind, Except.bind]

/-- Every token of a phrase has a place in the grammar. -/
theorem Phrase.isProper {level : PhraseLevel} {lexemes : List Lexeme} {tree : SourceTree α Nat}
    (h : Phrase level lexemes tree) : ∀ lexeme ∈ lexemes, lexeme.token.IsProper := by
  have hproper : ∀ {lexeme : Lexeme} {token : Token}, lexeme.token = token → token.IsProper →
      lexeme.token.IsProper := by
    rintro lexeme token rfl h
    exact h
  induction h with
  | sumOfProduct h ih => exact ih
  | productOfSigned h ih => exact ih
  | signedOfAtom h ih => exact ih
  | sum hleft htoken hop hright ihleft ihright =>
    rw [List.forall_mem_append, List.forall_mem_cons]
    exact ⟨ihleft, hproper htoken trivial, ihright⟩
  | product hleft htoken hop hright ihleft ihright =>
    rw [List.forall_mem_append, List.forall_mem_cons]
    exact ⟨ihleft, hproper htoken trivial, ihright⟩
  | minus htoken h ih =>
    rw [List.forall_mem_cons]
    exact ⟨hproper htoken trivial, ih⟩
  | plus htoken h ih =>
    rw [List.forall_mem_cons]
    exact ⟨hproper htoken trivial, ih⟩
  | parens hopening hclosing h ih =>
    rw [List.forall_mem_cons, List.forall_mem_append, List.forall_mem_singleton]
    exact ⟨hproper hopening trivial, ih, hproper hclosing trivial⟩
  | number htoken hfinite =>
    rw [List.forall_mem_singleton]
    exact hproper htoken trivial
  | name htoken =>
    rw [List.forall_mem_singleton]
    exact hproper htoken trivial

namespace SourceTree

/-- A sum is read up to its end, or up to the relation that comes after it. -/
theorem readSum_append (stop : Nat) {lexemes : List Lexeme} {tree : SourceTree α Nat}
    (h : Phrase .sum lexemes tree) (rest : List Lexeme)
    (hrest : ∀ lexeme more, rest = lexeme :: more →
      ∃ relation, lexeme.token = .relation relation) :
    readSum stop .start (lexemes ++ rest) = .ok (tree, rest) := by
  obtain ⟨sum, product, rfl, hread⟩ := h.readThrough stop [] rest
  refine hread.trans ?_
  cases rest with
  | nil => simp [readSum]
  | cons lexeme more =>
    obtain ⟨relation, htoken⟩ := hrest lexeme more rfl
    simp [readSum, htoken]

theorem requireEnd_eq_ok_iff {atRelation : SyntaxFault} {lexemes : List Lexeme} :
    requireEnd atRelation lexemes = .ok () ↔ lexemes = [] := by
  cases lexemes with
  | nil => exact ⟨fun _ => rfl, fun _ => rfl⟩
  | cons lexeme more =>
    unfold requireEnd
    split
    · simp_all
    · split <;> simp

theorem parse_eq_ok_iff {tree : SourceTree α Nat} :
    parse source = .ok tree ↔
      readSum (units source.toList) .start (lex source) = .ok (tree, []) := by
  unfold parse
  rw [bind_eq_ok_iff]
  constructor
  · rintro ⟨⟨read, rest⟩, hread, h⟩
    obtain ⟨⟨⟩, hend, h⟩ := bind_eq_ok_iff.1 h
    cases h
    rw [hread, requireEnd_eq_ok_iff.1 hend]
  · intro h
    exact ⟨(tree, []), h, rfl⟩

theorem parse_eq_ok_iff_derives {tree : SourceTree α Nat} :
    parse source = .ok tree ↔ tree.Derives source := by
  rw [parse_eq_ok_iff]
  constructor
  · intro h
    obtain ⟨read, hlex, hphrase⟩ := phrase_of_readSum_start h
    rw [List.append_nil] at hlex
    rw [← hlex] at hphrase
    exact ⟨lex source, tokenized_lexFrom hphrase.isProper, hphrase⟩
  · rintro ⟨lexemes, htokenized, hphrase⟩
    have hread := readSum_append (units source.toList) hphrase [] (by simp)
    rw [List.append_nil] at hread
    rwa [lex, htokenized.lexFrom_eq]

/-- The grammar is unambiguous. -/
theorem Derives.unique {tree tree' : SourceTree α Nat} (h : tree.Derives source)
    (h' : tree'.Derives source) : tree = tree' := by
  rw [← parse_eq_ok_iff_derives] at h h'
  rw [h] at h'
  cases h'
  rfl

end SourceTree

namespace SourceRelation

theorem readRelation_eq_ok {stop : Nat} {lexemes rest : List Lexeme} {relation : Relation}
    (h : readRelation stop lexemes = .ok (relation, rest)) :
    ∃ lexeme, lexemes = lexeme :: rest ∧ lexeme.token = .relation relation := by
  cases lexemes with
  | nil => cases h
  | cons lexeme more =>
    cases htoken : lexeme.token with
    | relation found =>
      simp only [readRelation, htoken, Except.ok.injEq, Prod.mk.injEq] at h
      obtain ⟨rfl, rfl⟩ := h
      exact ⟨lexeme, rfl, htoken⟩
    | _ => simp [readRelation, htoken] at h

theorem derives_of_parse {r : SourceRelation α Nat} (h : parse source = .ok r) :
    r.Derives source := by
  unfold parse at h
  obtain ⟨⟨lhs, afterLeft⟩, hleft, h⟩ := bind_eq_ok_iff.1 h
  obtain ⟨⟨relation, afterRelation⟩, hrelation, h⟩ := bind_eq_ok_iff.1 h
  obtain ⟨⟨rhs, rest⟩, hright, h⟩ := bind_eq_ok_iff.1 h
  obtain ⟨⟨⟩, hend, h⟩ := bind_eq_ok_iff.1 h
  cases h
  rw [SourceTree.requireEnd_eq_ok_iff.1 hend] at hright
  obtain ⟨lexeme, rfl, htoken⟩ := readRelation_eq_ok hrelation
  obtain ⟨before, hlex, hbefore⟩ := phrase_of_readSum_start hleft
  obtain ⟨after, hafter, hphrase⟩ := phrase_of_readSum_start hright
  rw [List.append_nil] at hafter
  rw [hafter] at hlex
  refine ⟨before, lexeme, after, ?_, htoken, hbefore, hphrase⟩
  have hproper : ∀ l ∈ lex source, l.token.IsProper := by
    rw [hlex, List.forall_mem_append, List.forall_mem_cons, htoken]
    exact ⟨hbefore.isProper, trivial, hphrase.isProper⟩
  rw [← hlex]
  exact tokenized_lexFrom hproper

theorem parse_of_derives {r : SourceRelation α Nat} (h : r.Derives source) :
    parse source = .ok r := by
  obtain ⟨before, lexeme, after, htokenized, htoken, hbefore, hphrase⟩ := h
  have hleft := SourceTree.readSum_append (units source.toList) hbefore (lexeme :: after) (by
    rintro l more ⟨⟩
    exact ⟨r.relation, htoken⟩)
  have hright := SourceTree.readSum_append (units source.toList) hphrase [] (by simp)
  rw [List.append_nil] at hright
  have hrelation : readRelation (units source.toList) (lexeme :: after) =
      .ok (r.relation, after) := by
    simp [readRelation, htoken]
  unfold parse
  rw [lex, htokenized.lexFrom_eq]
  refine bind_eq_ok_iff.2 ⟨_, hleft, bind_eq_ok_iff.2 ⟨_, hrelation, ?_⟩⟩
  exact bind_eq_ok_iff.2 ⟨_, hright, rfl⟩

end SourceRelation

/-- A text is parsed to a tree if and only if the whole of it derives the tree in the
grammar, as an expression or as a relation between two; a text that derives none is refused
with a syntax error. -/
theorem parse_iff_derives (source : String) :
    (∀ tree : SourceTree α Nat, SourceTree.parse source = .ok tree ↔ tree.Derives source) ∧
    (∀ r : SourceRelation α Nat, SourceRelation.parse source = .ok r ↔ r.Derives source) ∧
    ((∀ tree : SourceTree α Nat, ¬ tree.Derives source) →
      ∃ e, (SourceTree.parse source : Except SyntaxError (SourceTree α Nat)) = .error e) ∧
    ((∀ r : SourceRelation α Nat, ¬ r.Derives source) →
      ∃ e, (SourceRelation.parse source : Except SyntaxError (SourceRelation α Nat)) =
        .error e) := by
  refine ⟨?_, ?_, ?_, ?_⟩
  · intro tree
    exact SourceTree.parse_eq_ok_iff_derives
  · intro r
    exact ⟨SourceRelation.derives_of_parse, SourceRelation.parse_of_derives⟩
  · intro hnone
    cases hparse : (SourceTree.parse source : Except SyntaxError (SourceTree α Nat)) with
    | error e => exact ⟨e, rfl⟩
    | ok tree => exact absurd (SourceTree.parse_eq_ok_iff_derives.1 hparse) (hnone tree)
  · intro hnone
    cases hparse : (SourceRelation.parse source : Except SyntaxError (SourceRelation α Nat)) with
    | error e => exact ⟨e, rfl⟩
    | ok r => exact absurd (SourceRelation.derives_of_parse hparse) (hnone r)

end NamedConstants
