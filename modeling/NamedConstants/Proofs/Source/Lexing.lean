import NamedConstants.Proofs.Source.Numerals

/-!
The tokens of a text. Each of them is the one that the scanner finds at its place, so a
text has at most one list of tokens. What the scanner finds is a token of the text unless
it is something to complain about.
-/
namespace NamedConstants.Token

section Scanning

variable {c : Char} {word rest : List Char}

theorem startsNumeral_cons :
    StartsNumeral (c :: rest) ↔ isDigit c = true ∨ c = '.' ∧ ¬ NoDigitAhead rest := by
  constructor
  · rintro ⟨d, r, heq, h⟩
    cases heq
    exact h
  · intro h
    exact ⟨c, rest, rfl, h⟩

theorem not_noDigitAhead_iff :
    ¬ NoDigitAhead rest ↔ (rest.head?.map isDigit).getD false = true := by
  cases rest with
  | nil => simp [noDigitAhead_nil]
  | cons d more => simp [NoDigitAhead]

theorem scan_of_startsNumeral (h : StartsNumeral (c :: rest)) :
    scan c rest = scanNumber (c :: rest) := by
  rw [startsNumeral_cons, not_noDigitAhead_iff] at h
  unfold scan
  rw [if_pos (by simpa using h)]

theorem not_isDigit_of_isNameStart (h : isNameStart c = true) : isDigit c = false := by
  by_contra hdigit
  simp only [isDigit, isNameStart, Bool.not_eq_false, Bool.and_eq_true, Bool.or_eq_true,
    decide_eq_true_eq] at h hdigit
  obtain ⟨hzero, hnine⟩ := hdigit
  rcases h with ((⟨ha, -⟩ | ⟨hA, -⟩) | rfl) | rfl
  · exact absurd (Char.le_trans ha hnine) (by decide)
  · exact absurd (Char.le_trans hA hnine) (by decide)
  · revert hnine
    decide
  · revert hzero
    decide

theorem scan_of_isNameStart (h : isNameStart c = true) :
    scan c rest = (.name, c :: rest.takeWhile isNamePart) := by
  have hdigit := not_isDigit_of_isNameStart h
  have hpoint : c ≠ '.' := by
    rintro rfl
    revert h
    decide
  unfold scan
  simp [hdigit, hpoint, h]

theorem not_isBlank_of_startsNumeral (h : StartsNumeral (c :: rest)) : ¬ IsBlank c := by
  intro hblank
  rcases startsNumeral_cons.1 h with hdigit | ⟨rfl, -⟩
  · rcases hblank with rfl | rfl | rfl | rfl <;> revert hdigit <;> decide
  · revert hblank
    decide

theorem not_isBlank_of_isNameStart (h : isNameStart c = true) : ¬ IsBlank c := by
  intro hblank
  rcases hblank with rfl | rfl | rfl | rfl <;> revert h <;> decide

theorem IsName.append (h : IsName word) (hc : isNamePart c = true) : IsName (word ++ [c]) := by
  cases word with
  | nil => exact h.elim
  | cons first more =>
    refine ⟨h.1, ?_⟩
    intro d hd
    rcases List.mem_append.1 hd with hd | hd
    · exact h.2 d hd
    · rw [List.mem_singleton.1 hd]
      exact hc

/-- The longest name goes on to the first character that cannot be part of one. -/
theorem takeWhile_of_longest (h : Longest IsName (c :: word) rest) :
    (word ++ rest).takeWhile isNamePart = word := by
  apply takeWhile_append_of_stop h.mem.2
  intro d r hrest
  by_contra hd
  rw [Bool.not_eq_false] at hd
  have hmore : [d] <+: rest := by
    rw [hrest]
    exact ⟨r, rfl⟩
  exact h.not_append (by simp) hmore (h.mem.append hd)

/-- The scanner finds a token that is spelled in front of it, unless it is a numeral and a
decimal point comes next without a digit. -/
theorem Spelled.scan_eq {token : Token} (h : Spelled token word rest)
    (hpoint : ∀ r, rest = '.' :: r → ¬ NoDigitAhead r) :
    ∃ first more, word = first :: more ∧ ¬ IsBlank first ∧
      scan first (more ++ rest) = (token, word) := by
  cases h with
  | @number value _ _ hvalue hlongest =>
    obtain ⟨first, more, rfl⟩ := hvalue.exists_cons
    have hstarts : StartsNumeral (first :: (more ++ rest)) := hvalue.startsNumeral rest
    refine ⟨first, more, rfl, not_isBlank_of_startsNumeral hstarts, ?_⟩
    rw [scan_of_startsNumeral hstarts]
    rcases scanNumber_of_longest hvalue hlongest with hscan | ⟨-, r, hrest, hahead⟩
    · exact hscan
    · exact absurd hahead (hpoint r hrest)
  | name hlongest =>
    cases word with
    | nil => exact hlongest.mem.elim
    | cons first more =>
      have hfirst := hlongest.mem.1
      refine ⟨first, more, rfl, not_isBlank_of_isNameStart hfirst, ?_⟩
      rw [scan_of_isNameStart hfirst, takeWhile_of_longest hlongest]
  | add => exact ⟨'+', [], rfl, by decide, rfl⟩
  | sub => exact ⟨'-', [], rfl, by decide, rfl⟩
  | mul => exact ⟨'*', [], rfl, by decide, rfl⟩
  | div => exact ⟨'/', [], rfl, by decide, rfl⟩
  | openParen => exact ⟨'(', [], rfl, by decide, rfl⟩
  | closeParen => exact ⟨')', [], rfl, by decide, rfl⟩
  | equal => exact ⟨'=', ['='], rfl, by decide, rfl⟩
  | atMost => exact ⟨'<', ['='], rfl, by decide, rfl⟩
  | atLeast => exact ⟨'>', ['='], rfl, by decide, rfl⟩

def IsProper : Token → Prop
  | unfinishedNumber | misrelation _ | stray => False
  | _ => True

theorem spelled_of_scanComparison {token : Token}
    (hscan : scanComparison c (rest.head? = some '=') = (token, word)) (hproper : token.IsProper) :
    ∃ rest', c :: rest = word ++ rest' ∧ Spelled token word rest' := by
  generalize hequals : decide (rest.head? = some '=') = equals at hscan
  have hrest : equals = true → ∃ tail, rest = '=' :: tail := by
    rintro rfl
    exact List.head?_eq_some_iff.1 (of_decide_eq_true hequals)
  unfold scanComparison at hscan
  split at hscan <;> cases hscan
  · obtain ⟨tail, rfl⟩ := hrest rfl
    exact ⟨tail, rfl, .equal tail⟩
  · obtain ⟨tail, rfl⟩ := hrest rfl
    exact ⟨tail, rfl, .atMost tail⟩
  · obtain ⟨tail, rfl⟩ := hrest rfl
    exact ⟨tail, rfl, .atLeast tail⟩
  all_goals exact hproper.elim

theorem spelled_of_scanNumber {token : Token} (hstarts : StartsNumeral (c :: rest))
    (hscan : scanNumber (c :: rest) = (token, word)) (hproper : token.IsProper) :
    ∃ rest', c :: rest = word ++ rest' ∧ Spelled token word rest' := by
  obtain ⟨numeral, rest', heq, hlongest⟩ := exists_longest hstarts.exists_isNumeral
  obtain ⟨value, hvalue⟩ := hlongest.mem
  rw [heq] at hscan
  rcases scanNumber_of_longest hvalue hlongest with hnumber | ⟨hunfinished, -⟩
  · rw [hnumber] at hscan
    cases hscan
    exact ⟨rest', heq, .number hvalue hlongest⟩
  · rw [hscan] at hunfinished
    cases hunfinished
    exact hproper.elim

theorem spelled_of_isNameStart (hname : isNameStart c = true) :
    ∃ rest', c :: rest = c :: rest.takeWhile isNamePart ++ rest' ∧
      Spelled .name (c :: rest.takeWhile isNamePart) rest' := by
  have hsingle : ∃ w, w <+: c :: rest ∧ IsName w :=
    ⟨[c], ⟨rest, rfl⟩, hname, List.forall_mem_nil _⟩
  obtain ⟨name, rest', heq, hlongest⟩ := exists_longest hsingle
  cases name with
  | nil => exact hlongest.mem.elim
  | cons first more =>
    rw [List.cons_append, List.cons.injEq] at heq
    obtain ⟨rfl, rfl⟩ := heq
    rw [takeWhile_of_longest hlongest]
    exact ⟨rest', rfl, .name hlongest⟩

/-- What the scanner finds is spelled there, if it has a place in the grammar. -/
theorem spelled_of_scan {token : Token} (hscan : scan c rest = (token, word))
    (hproper : token.IsProper) :
    ∃ rest', c :: rest = word ++ rest' ∧ Spelled token word rest' := by
  by_cases hstarts : StartsNumeral (c :: rest)
  · rw [scan_of_startsNumeral hstarts] at hscan
    exact spelled_of_scanNumber hstarts hscan hproper
  · by_cases hname : isNameStart c = true
    · rw [scan_of_isNameStart hname] at hscan
      cases hscan
      exact spelled_of_isNameStart hname
    · rw [startsNumeral_cons, not_noDigitAhead_iff] at hstarts
      unfold scan at hscan
      rw [if_neg (by simpa using hstarts), if_neg hname] at hscan
      split at hscan
      · cases hscan
        exact ⟨rest, rfl, .add rest⟩
      · cases hscan
        exact ⟨rest, rfl, .sub rest⟩
      · cases hscan
        exact ⟨rest, rfl, .mul rest⟩
      · cases hscan
        exact ⟨rest, rfl, .div rest⟩
      · cases hscan
        exact ⟨rest, rfl, .openParen rest⟩
      · cases hscan
        exact ⟨rest, rfl, .closeParen rest⟩
      · exact spelled_of_scanComparison hscan hproper

theorem Spelled.ne_nil {token : Token} (h : Spelled token word rest) : word ≠ [] := by
  cases h with
  | number hvalue hlongest =>
    obtain ⟨c, more, rfl⟩ := hvalue.exists_cons
    simp
  | name hlongest =>
    rintro rfl
    exact hlongest.mem
  | _ => simp

/-- A token that starts with a point has a digit after it. -/
theorem Spelled.not_noDigitAhead {token : Token} {r : List Char} (h : Spelled token word rest)
    (hpoint : word ++ rest = '.' :: r) : ¬ NoDigitAhead r := by
  cases h with
  | number hvalue hlongest =>
    have hstarts := hvalue.startsNumeral rest
    rw [hpoint, startsNumeral_cons] at hstarts
    rcases hstarts with hdigit | ⟨-, hdigit⟩
    · exact absurd hdigit (by decide)
    · exact hdigit
  | name hlongest =>
    cases word with
    | nil => exact hlongest.mem.elim
    | cons first more =>
      have hfirst := hlongest.mem.1
      rw [List.cons_append, List.cons.injEq] at hpoint
      rw [hpoint.1] at hfirst
      exact absurd hfirst (by decide)
  | _ => simp at hpoint

theorem Tokenized.not_noDigitAhead {position : Nat} {r : List Char} {lexemes : List Lexeme}
    (h : Tokenized position ('.' :: r) lexemes) : ¬ NoDigitAhead r := by
  generalize htext : '.' :: r = text at h
  cases h with
  | done => cases htext
  | blank hblank hrest =>
    cases htext
    exact absurd hblank (by decide)
  | token hspelled hrest => exact hspelled.not_noDigitAhead htext.symm

/-- The scanner finds the tokens that a text consists of. -/
theorem Tokenized.lexFrom_eq {position : Nat} {l : List Char} {lexemes : List Lexeme}
    (h : Tokenized position l lexemes) : lexFrom position l = lexemes := by
  induction h with
  | done => rw [lexFrom]
  | blank hblank hrest ih => rw [lexFrom, if_pos hblank, ih]
  | @token lexeme rest lexemes hspelled hrest ih =>
    have hpoint : ∀ r, rest = '.' :: r → ¬ NoDigitAhead r := by
      rintro r rfl
      exact hrest.not_noDigitAhead
    obtain ⟨first', more', hword, hblank, hscan⟩ := hspelled.scan_eq hpoint
    obtain ⟨token, first, more, position⟩ := lexeme
    obtain ⟨rfl, rfl⟩ := List.cons.inj hword
    change lexFrom position (first :: (more ++ rest)) = _
    rw [lexFrom, if_neg hblank, hscan]
    simp only [Lexeme.spelling, List.drop_succ_cons, List.drop_zero, List.drop_left]
    rw [ih]

/-- The same for the lexeme that is made of what the scanner finds. -/
theorem spelled_of_scan_drop {token : Token} (hscan : scan c rest = (token, word))
    (hproper : token.IsProper) :
    c :: rest = c :: word.drop 1 ++ rest.drop (word.drop 1).length ∧
      Spelled token (c :: word.drop 1) (rest.drop (word.drop 1).length) := by
  obtain ⟨rest', heq, hspelled⟩ := spelled_of_scan hscan hproper
  cases word with
  | nil => exact absurd rfl hspelled.ne_nil
  | cons first more =>
    obtain ⟨rfl, rfl⟩ := List.cons.inj heq
    rw [List.drop_one, List.tail_cons, List.append_eq, List.drop_left]
    exact ⟨rfl, hspelled⟩

/-- If all that the scanner finds has a place in the grammar, the text consists of it. -/
theorem tokenized_lexFrom {position : Nat} {l : List Char}
    (hproper : ∀ lexeme ∈ lexFrom position l, lexeme.token.IsProper) :
    Tokenized position l (lexFrom position l) := by
  induction position, l using lexFrom.induct with
  | case1 position =>
    rw [lexFrom]
    exact .done
  | case2 position c rest hblank ih =>
    rw [lexFrom, if_pos hblank] at hproper ⊢
    exact .blank hblank (ih hproper)
  | case3 position c rest hblank token spelling hscan lexeme ih =>
    rw [lexFrom, if_neg hblank, hscan] at hproper ⊢
    change ∀ l ∈ lexeme :: lexFrom lexeme.stop (rest.drop lexeme.more.length), _ at hproper
    change Tokenized position (c :: rest)
      (lexeme :: lexFrom lexeme.stop (rest.drop lexeme.more.length))
    obtain ⟨hlexeme, hlater⟩ := List.forall_mem_cons.1 hproper
    obtain ⟨heq, hspelled⟩ := spelled_of_scan_drop hscan hlexeme
    have hlexemeSpelled : Spelled lexeme.token lexeme.spelling _ := hspelled
    rw [heq]
    exact .token hlexemeSpelled (ih hlater)

end Scanning

end NamedConstants.Token
