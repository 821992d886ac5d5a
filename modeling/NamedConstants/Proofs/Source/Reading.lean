import NamedConstants.Proofs.Source.Lexing

/-!
The reader against the grammar. A token takes the reader from one state to the next in one
of a few ways. On the tokens of a phrase these steps lead from before the phrase to after
its tree, whatever comes next. In the other direction, each state says what the tokens so
far are made of: sums and products that wait for their right operand, signs, and opened
parentheses.
-/
namespace NamedConstants

theorem SourceTree.negated_negate {α ρ : Type} (n : Nat) (tree : SourceTree α ρ) :
    (negate tree).negated n = tree.negated (n + 1) := by
  induction n with
  | zero => rfl
  | succ n ih => exact congrArg negate ih

section Steps

variable {α : Type} [Arithmetic α] {stop : Nat} {lexeme : Lexeme} {lexemes rest : List Lexeme}

inductive ReaderStep (lexeme : Lexeme) : ReaderState α → ReaderState α → Prop where
  | minus (gap : OperandGap α) (outer : List (OperandGap α)) (htoken : lexeme.token = .op .sub) :
      ReaderStep lexeme (.beforeOperand gap outer)
        (.beforeOperand { gap with negations := gap.negations + 1 } outer)
  | plus (gap : OperandGap α) (outer : List (OperandGap α)) (htoken : lexeme.token = .op .add) :
      ReaderStep lexeme (.beforeOperand gap outer) (.beforeOperand gap outer)
  | opening (gap : OperandGap α) (outer : List (OperandGap α))
      (htoken : lexeme.token = .openParen) :
      ReaderStep lexeme (.beforeOperand gap outer) (.beforeOperand {} (gap :: outer))
  | operand (gap : OperandGap α) (outer : List (OperandGap α)) {tree : SourceTree α Nat}
      (h : Phrase .atom [lexeme] tree) :
      ReaderStep lexeme (.beforeOperand gap outer) (.filled gap outer tree)
  | sumOp (sum : Option (SourceTree α Nat × BinaryOp)) (product : SourceTree α Nat)
      (outer : List (OperandGap α)) {op : BinaryOp} (htoken : lexeme.token = .op op)
      (hop : op = .add ∨ op = .sub) :
      ReaderStep lexeme (.afterOperand sum product outer)
        (.beforeOperand { sum := some (completed sum product, op) } outer)
  | productOp (sum : Option (SourceTree α Nat × BinaryOp)) (product : SourceTree α Nat)
      (outer : List (OperandGap α)) {op : BinaryOp} (htoken : lexeme.token = .op op)
      (hop : op = .mul ∨ op = .div) :
      ReaderStep lexeme (.afterOperand sum product outer)
        (.beforeOperand { sum, product := some (product, op) } outer)
  | closing (sum : Option (SourceTree α Nat × BinaryOp)) (product : SourceTree α Nat)
      (gap : OperandGap α) (outer : List (OperandGap α)) (htoken : lexeme.token = .closeParen) :
      ReaderStep lexeme (.afterOperand sum product (gap :: outer))
        (.filled gap outer (completed sum product))

theorem Phrase.single_cases {tree : SourceTree α Nat} (h : Phrase .atom [lexeme] tree) :
    (∃ value, lexeme.token = .number value ∧
      Arithmetic.isFinite (Arithmetic.ofDecimal value : α) = true ∧
      tree = .number (Arithmetic.ofDecimal value)) ∨
    (lexeme.token = .name ∧ tree = .name lexeme.text lexeme.position) := by
  generalize hlexemes : [lexeme] = lexemes at h
  generalize hlevel : PhraseLevel.atom = level at h
  cases h with
  | number htoken hfinite =>
    cases hlexemes
    exact Or.inl ⟨_, htoken, hfinite, rfl⟩
  | name htoken =>
    cases hlexemes
    exact Or.inr ⟨htoken, rfl⟩
  | parens => simp at hlexemes
  | _ => cases hlevel

/-- A step is what the reader does with the token. -/
theorem ReaderStep.readSum_eq {s s' : ReaderState α} (h : ReaderStep lexeme s s') :
    SourceTree.readSum stop s (lexeme :: rest) = SourceTree.readSum stop s' rest := by
  cases h with
  | minus gap outer htoken => simp [SourceTree.readSum, htoken]
  | plus gap outer htoken => simp [SourceTree.readSum, htoken]
  | opening gap outer htoken => simp [SourceTree.readSum, htoken]
  | operand gap outer h =>
    rcases h.single_cases with ⟨value, htoken, hfinite, rfl⟩ | ⟨htoken, rfl⟩
    · simp [SourceTree.readSum, htoken, hfinite]
    · simp [SourceTree.readSum, htoken]
  | sumOp sum product outer htoken hop =>
    rcases hop with rfl | rfl <;> simp [SourceTree.readSum, htoken]
  | productOp sum product outer htoken hop =>
    rcases hop with rfl | rfl <;> simp [SourceTree.readSum, htoken]
  | closing sum product gap outer htoken => simp [SourceTree.readSum, htoken]

def nextPosition (stop : Nat) : List Lexeme → Nat
  | [] => stop
  | lexeme :: _ => lexeme.position

/-- The courses that reading can take from a state on, with their outcomes. The reader takes token
after token, until it stops behind a sum or fails: at the next token or at the end, or behind the
decimal point of a number that would have been the operand. -/
inductive Reads (stop : Nat) : ReaderState α → List Lexeme →
    Except SyntaxError (SourceTree α Nat × List Lexeme) → Prop where
  | stops (sum : Option (SourceTree α Nat × BinaryOp)) (product : SourceTree α Nat)
      (lexemes : List Lexeme) :
      Reads stop (.afterOperand sum product []) lexemes (.ok (completed sum product, lexemes))
  | fails (s : ReaderState α) (lexemes : List Lexeme) (fault : SyntaxFault) :
      Reads stop s lexemes (.error ⟨fault, nextPosition stop lexemes⟩)
  | breaksOff (gap : OperandGap α) (outer : List (OperandGap α)) {lexeme : Lexeme}
      (rest : List Lexeme) (htoken : lexeme.token = .unfinishedNumber) :
      Reads stop (.beforeOperand gap outer) (lexeme :: rest)
        (.error ⟨.missingFraction, lexeme.stop⟩)
  | takes {s s' : ReaderState α} {lexeme : Lexeme} {rest : List Lexeme}
      {outcome : Except SyntaxError (SourceTree α Nat × List Lexeme)}
      (hstep : ReaderStep lexeme s s') (h : Reads stop s' rest outcome) :
      Reads stop s (lexeme :: rest) outcome

def ReadsOn (stop : Nat) (s : ReaderState α) (lexemes : List Lexeme) : Prop :=
  Reads stop s lexemes (SourceTree.readSum stop s lexemes)

theorem ReadsOn.fails {s : ReaderState α} (fault : SyntaxFault)
    (h : SourceTree.readSum stop s lexemes = .error ⟨fault, nextPosition stop lexemes⟩) :
    ReadsOn stop s lexemes := by
  rw [ReadsOn, h]
  exact .fails s lexemes fault

theorem ReadsOn.stops {sum : Option (SourceTree α Nat × BinaryOp)} {product : SourceTree α Nat}
    (h : SourceTree.readSum stop (.afterOperand sum product []) lexemes =
      .ok (completed sum product, lexemes)) :
    ReadsOn stop (.afterOperand sum product []) lexemes := by
  rw [ReadsOn, h]
  exact .stops sum product lexemes

theorem ReadsOn.takes {s s' : ReaderState α} (h : ReadsOn stop s' rest)
    (hstep : ReaderStep lexeme s s') : ReadsOn stop s (lexeme :: rest) := by
  rw [ReadsOn, hstep.readSum_eq]
  exact .takes hstep h

/-- Before an operand the reader does not stop. -/
theorem readsOn_beforeOperand (gap : OperandGap α) (outer : List (OperandGap α))
    (hrest : ∀ s : ReaderState α, ReadsOn stop s rest) :
    ReadsOn stop (.beforeOperand gap outer) (lexeme :: rest) := by
  cases htoken : lexeme.token with
  | op op =>
    cases op with
    | add => exact (hrest _).takes (.plus gap outer htoken)
    | sub => exact (hrest _).takes (.minus gap outer htoken)
    | mul | div =>
      exact .fails (.unexpectedToken lexeme.first)
        (by simp [SourceTree.readSum, htoken, nextPosition])
  | openParen => exact (hrest _).takes (.opening gap outer htoken)
  | number value =>
    by_cases hfinite : Arithmetic.isFinite (Arithmetic.ofDecimal value : α) = true
    · exact (hrest _).takes (.operand gap outer (.number htoken hfinite))
    · exact .fails (.invalidNumber lexeme.text)
        (by simp [SourceTree.readSum, htoken, hfinite, nextPosition])
  | name => exact (hrest _).takes (.operand gap outer (.name htoken))
  | unfinishedNumber =>
    simp only [ReadsOn, SourceTree.readSum, htoken]
    exact .breaksOff gap outer rest htoken
  | _ =>
    exact .fails (.unexpectedToken lexeme.first)
      (by simp [SourceTree.readSum, htoken, nextPosition])

/-- After an operand the reader goes on with an operation, and with a parenthesis if one is
open. Other tokens end the sum, unless a parenthesis is open. -/
theorem readsOn_afterOperand (sum : Option (SourceTree α Nat × BinaryOp))
    (product : SourceTree α Nat) (outer : List (OperandGap α))
    (hrest : ∀ s : ReaderState α, ReadsOn stop s rest) :
    ReadsOn stop (.afterOperand sum product outer) (lexeme :: rest) := by
  cases htoken : lexeme.token with
  | op op =>
    cases op with
    | add => exact (hrest _).takes (.sumOp sum product outer htoken (Or.inl rfl))
    | sub => exact (hrest _).takes (.sumOp sum product outer htoken (Or.inr rfl))
    | mul => exact (hrest _).takes (.productOp sum product outer htoken (Or.inl rfl))
    | div => exact (hrest _).takes (.productOp sum product outer htoken (Or.inr rfl))
  | closeParen =>
    cases outer with
    | nil => exact .stops (by simp [SourceTree.readSum, htoken])
    | cons gap outer => exact (hrest _).takes (.closing sum product gap outer htoken)
  | _ =>
    cases outer with
    | nil => exact .stops (by simp [SourceTree.readSum, htoken])
    | cons gap outer =>
      exact .fails .expectedClosingParen (by simp [SourceTree.readSum, htoken, nextPosition])

theorem readsOn (stop : Nat) (s : ReaderState α) (lexemes : List Lexeme) :
    ReadsOn stop s lexemes := by
  induction lexemes generalizing s with
  | nil =>
    cases s with
    | beforeOperand gap outer => exact .fails .unexpectedEnd rfl
    | afterOperand sum product outer =>
      cases outer with
      | nil => exact .stops rfl
      | cons gap outer => exact .fails .expectedClosingParen rfl
  | cons lexeme rest ih =>
    cases s with
    | beforeOperand gap outer => exact readsOn_beforeOperand gap outer ih
    | afterOperand sum product outer => exact readsOn_afterOperand sum product outer ih

theorem reads_of_readSum {s : ReaderState α}
    {outcome : Except SyntaxError (SourceTree α Nat × List Lexeme)}
    (h : SourceTree.readSum stop s lexemes = outcome) : Reads stop s lexemes outcome := by
  rw [← h]
  exact readsOn stop s lexemes

end Steps

section Completeness

variable {α : Type} [Arithmetic α]

namespace Phrase

def ReadThrough (stop : Nat) (lexemes : List Lexeme) (tree : SourceTree α Nat) :
    PhraseLevel → Prop
  | .sum => ∀ outer rest, ∃ sum product, completed sum product = tree ∧
      SourceTree.readSum stop (.beforeOperand {} outer) (lexemes ++ rest) =
        SourceTree.readSum stop (.afterOperand sum product outer) rest
  | .product => ∀ sum outer rest,
      SourceTree.readSum stop (.beforeOperand { sum } outer) (lexemes ++ rest) =
        SourceTree.readSum stop (.afterOperand sum tree outer) rest
  | .signed | .atom => ∀ gap outer rest,
      SourceTree.readSum stop (.beforeOperand gap outer) (lexemes ++ rest) =
        SourceTree.readSum stop (.filled gap outer tree) rest

theorem readThrough (stop : Nat) {level : PhraseLevel} {lexemes : List Lexeme}
    {tree : SourceTree α Nat} (h : Phrase level lexemes tree) :
    ReadThrough stop lexemes tree level := by
  induction h with
  | sumOfProduct h ih =>
    intro outer rest
    exact ⟨none, _, rfl, ih none outer rest⟩
  | @sum before after lexeme op left right hleft htoken hop hright ihleft ihright =>
    intro outer rest
    obtain ⟨sum, product, rfl, hread⟩ := ihleft outer (lexeme :: (after ++ rest))
    refine ⟨some (completed sum product, op), right, rfl, ?_⟩
    rw [List.append_assoc, List.cons_append, hread,
      (ReaderStep.sumOp sum product outer htoken hop).readSum_eq]
    exact ihright (some (completed sum product, op)) outer rest
  | productOfSigned h ih =>
    intro sum outer rest
    exact ih { sum } outer rest
  | @product before after lexeme op left right hleft htoken hop hright ihleft ihright =>
    intro sum outer rest
    rw [List.append_assoc, List.cons_append, ihleft,
      (ReaderStep.productOp sum left outer htoken hop).readSum_eq]
    exact ihright { sum, product := some (left, op) } outer rest
  | minus htoken h ih =>
    intro gap outer rest
    rw [List.cons_append, (ReaderStep.minus gap outer htoken).readSum_eq, ih]
    unfold ReaderState.filled OperandGap.fill
    rw [SourceTree.negated_negate]
  | plus htoken h ih =>
    intro gap outer rest
    rw [List.cons_append, (ReaderStep.plus gap outer htoken).readSum_eq]
    exact ih gap outer rest
  | signedOfAtom h ih => exact ih
  | @parens opening closing lexemes tree hopening hclosing h ih =>
    intro gap outer rest
    obtain ⟨sum, product, rfl, hread⟩ := ih (gap :: outer) (closing :: rest)
    rw [List.cons_append, List.append_assoc, (ReaderStep.opening gap outer hopening).readSum_eq,
      List.singleton_append, hread,
      (ReaderStep.closing sum product gap outer hclosing).readSum_eq]
  | number htoken hfinite =>
    intro gap outer rest
    exact (ReaderStep.operand gap outer (.number htoken hfinite)).readSum_eq
  | name htoken =>
    intro gap outer rest
    exact (ReaderStep.operand gap outer (.name htoken)).readSum_eq

end Phrase

end Completeness

section Soundness

variable {α : Type} [Arithmetic α]

inductive Waits (level : PhraseLevel) (ops : List BinaryOp) :
    Option (SourceTree α Nat × BinaryOp) → List Lexeme → Prop where
  | nothing : Waits level ops none []
  | operand {lexemes : List Lexeme} {lexeme : Lexeme} {op : BinaryOp} {left : SourceTree α Nat}
      (hleft : Phrase level lexemes left) (htoken : lexeme.token = .op op) (hop : op ∈ ops) :
      Waits level ops (some (left, op)) (lexemes ++ [lexeme])

inductive Signs : Nat → List Lexeme → Prop where
  | nothing : Signs 0 []
  | minus {n : Nat} {lexemes : List Lexeme} {lexeme : Lexeme} (h : Signs n lexemes)
      (htoken : lexeme.token = .op .sub) : Signs (n + 1) (lexemes ++ [lexeme])
  | plus {n : Nat} {lexemes : List Lexeme} {lexeme : Lexeme} (h : Signs n lexemes)
      (htoken : lexeme.token = .op .add) : Signs n (lexemes ++ [lexeme])

/-- The tokens of one level of parentheses that come before an operand. -/
inductive GapTokens (gap : OperandGap α) : List Lexeme → Prop where
  | mk {sums products signs : List Lexeme} (hsum : Waits .sum [.add, .sub] gap.sum sums)
      (hproduct : Waits .product [.mul, .div] gap.product products)
      (hsigns : Signs gap.negations signs) : GapTokens gap (sums ++ (products ++ signs))

theorem GapTokens.empty : GapTokens ({} : OperandGap α) [] := by
  have hgap : GapTokens ({} : OperandGap α) ([] ++ ([] ++ [])) := .mk .nothing .nothing .nothing
  exact hgap

inductive OuterTokens : List (OperandGap α) → List Lexeme → Prop where
  | nil : OuterTokens [] []
  | cons {gap : OperandGap α} {outer : List (OperandGap α)} {before inside : List Lexeme}
      {lexeme : Lexeme} (houter : OuterTokens outer before) (hgap : GapTokens gap inside)
      (htoken : lexeme.token = .openParen) :
      OuterTokens (gap :: outer) (before ++ (inside ++ [lexeme]))

inductive StateTokens : ReaderState α → List Lexeme → Prop where
  | beforeOperand {gap : OperandGap α} {outer : List (OperandGap α)}
      {before inside : List Lexeme} (houter : OuterTokens outer before)
      (hgap : GapTokens gap inside) : StateTokens (.beforeOperand gap outer) (before ++ inside)
  | afterOperand {sum : Option (SourceTree α Nat × BinaryOp)} {product : SourceTree α Nat}
      {outer : List (OperandGap α)} {before sums products : List Lexeme}
      (houter : OuterTokens outer before) (hsum : Waits .sum [.add, .sub] sum sums)
      (hproduct : Phrase .product products product) :
      StateTokens (.afterOperand sum product outer) (before ++ (sums ++ products))

variable {sum waiting : Option (SourceTree α Nat × BinaryOp)} {tree product : SourceTree α Nat}
  {gap : OperandGap α} {outer : List (OperandGap α)} {before inside lexemes more : List Lexeme}
  {lexeme : Lexeme}

theorem Waits.phrase_sum (h : Waits .sum [.add, .sub] waiting lexemes)
    (hmore : Phrase .product more tree) :
    Phrase .sum (lexemes ++ more) (completed waiting tree) := by
  cases h with
  | nothing => exact .sumOfProduct hmore
  | operand hleft htoken hop =>
    rw [List.append_assoc]
    exact .sum hleft htoken (by simpa using hop) hmore

theorem Waits.phrase_product (h : Waits .product [.mul, .div] waiting lexemes)
    (hmore : Phrase .signed more tree) :
    Phrase .product (lexemes ++ more) (completed waiting tree) := by
  cases h with
  | nothing => exact .productOfSigned hmore
  | operand hleft htoken hop =>
    rw [List.append_assoc]
    exact .product hleft htoken (by simpa using hop) hmore

theorem Signs.phrase_signed {n : Nat} (h : Signs n lexemes) (hmore : Phrase .signed more tree) :
    Phrase .signed (lexemes ++ more) (tree.negated n) := by
  induction h generalizing more tree with
  | nothing => exact hmore
  | @minus n lexemes lexeme h htoken ih =>
    rw [List.append_assoc, ← SourceTree.negated_negate]
    exact ih (.minus htoken hmore)
  | @plus n lexemes lexeme h htoken ih =>
    rw [List.append_assoc]
    exact ih (.plus htoken hmore)

/-- An operand completes a product. -/
theorem StateTokens.filled (houter : OuterTokens outer before) (hgap : GapTokens gap inside)
    (h : Phrase .atom lexemes tree) :
    StateTokens (.filled gap outer tree) (before ++ (inside ++ lexemes)) := by
  obtain ⟨hsum, hproduct, hsigns⟩ := hgap
  rw [List.append_assoc, List.append_assoc]
  exact .afterOperand houter hsum (hproduct.phrase_product (hsigns.phrase_signed (.signedOfAtom h)))

theorem StateTokens.start : StateTokens (.start : ReaderState α) [] := by
  have hstate : StateTokens (.start : ReaderState α) ([] ++ []) := .beforeOperand .nil .empty
  exact hstate

/-- A token that is taken leads from the tokens of a state to those of the next. -/
theorem StateTokens.step {s s' : ReaderState α} (h : StateTokens s lexemes)
    (hstep : ReaderStep lexeme s s') : StateTokens s' (lexemes ++ [lexeme]) := by
  cases hstep with
  | minus gap outer htoken =>
    cases h with
    | beforeOperand houter hgap =>
      obtain ⟨hsum, hproduct, hsigns⟩ := hgap
      simp only [List.append_assoc]
      exact .beforeOperand houter ⟨hsum, hproduct, hsigns.minus htoken⟩
  | plus gap outer htoken =>
    cases h with
    | beforeOperand houter hgap =>
      obtain ⟨hsum, hproduct, hsigns⟩ := hgap
      simp only [List.append_assoc]
      exact .beforeOperand houter ⟨hsum, hproduct, hsigns.plus htoken⟩
  | opening gap outer htoken =>
    cases h with
    | beforeOperand houter hgap =>
      have hstate := StateTokens.beforeOperand (houter.cons hgap htoken) .empty
      simpa only [List.append_assoc, List.append_nil] using hstate
  | operand gap outer hoperand =>
    cases h with
    | beforeOperand houter hgap =>
      rw [List.append_assoc]
      exact .filled houter hgap hoperand
  | @sumOp sum product outer op htoken hop =>
    cases h with
    | afterOperand houter hsum hproduct =>
      have hwaits : Waits .sum [.add, .sub] _ _ :=
        .operand (hsum.phrase_sum hproduct) htoken (by simpa using hop)
      have hgap : GapTokens { sum := some (completed sum product, op) } _ :=
        ⟨hwaits, .nothing, .nothing⟩
      have hstate := StateTokens.beforeOperand houter hgap
      simpa only [List.append_assoc, List.append_nil] using hstate
  | @productOp sum product outer op htoken hop =>
    cases h with
    | afterOperand houter hsum hproduct =>
      have hwaits : Waits .product [.mul, .div] _ _ :=
        .operand hproduct htoken (by simpa using hop)
      have hgap : GapTokens { sum, product := some (product, op) } _ :=
        ⟨hsum, hwaits, .nothing⟩
      have hstate := StateTokens.beforeOperand houter hgap
      simpa only [List.append_assoc, List.append_nil] using hstate
  | closing sum product gap outer htoken =>
    cases h with
    | afterOperand houter hsum hproduct =>
      cases houter with
      | cons houter hgap hopening =>
        have hstate := StateTokens.filled houter hgap
          (.parens hopening htoken (hsum.phrase_sum hproduct))
        simpa only [List.append_assoc, List.cons_append, List.nil_append] using hstate

theorem StateTokens.phrase_sum (h : StateTokens (.afterOperand sum product []) lexemes) :
    Phrase .sum lexemes (completed sum product) := by
  cases h with
  | afterOperand houter hsum hproduct =>
    cases houter with
    | nil => exact hsum.phrase_sum hproduct

/-- What the reader has read when it succeeds is a sum. -/
theorem StateTokens.phrase_of_reads {stop : Nat} {s : ReaderState α} {rest : List Lexeme}
    (h : StateTokens s before) (hreads : Reads stop s lexemes (.ok (tree, rest))) :
    ∃ read, lexemes = read ++ rest ∧ Phrase .sum (before ++ read) tree := by
  generalize houtcome : Except.ok (tree, rest) = outcome at hreads
  induction hreads generalizing before with
  | stops sum product lexemes =>
    cases houtcome
    refine ⟨[], rfl, ?_⟩
    rw [List.append_nil]
    exact h.phrase_sum
  | fails | breaksOff => cases houtcome
  | @takes s s' lexeme more outcome hstep hmore ih =>
    obtain ⟨read, rfl, hphrase⟩ := ih (h.step hstep) houtcome
    refine ⟨lexeme :: read, rfl, ?_⟩
    rwa [List.append_assoc] at hphrase

theorem phrase_of_readSum_start {stop : Nat} {rest : List Lexeme}
    (h : SourceTree.readSum stop .start lexemes = .ok (tree, rest)) :
    ∃ read, lexemes = read ++ rest ∧ Phrase .sum read tree :=
  StateTokens.start.phrase_of_reads (reads_of_readSum h)

end Soundness

end NamedConstants
