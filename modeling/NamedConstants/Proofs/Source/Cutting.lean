import NamedConstants.Proofs.Source.Names

/-!
Texts that are cut in front of a token and go on in another way. The tokens before the cut stay
what they are if what comes after it starts with a separator, or with the digit that stood there
before: a name or a numeral that reaches over the cut could take that digit either way. The
second case is for a number that breaks off at its decimal point.
-/
namespace NamedConstants.Token

section Words

variable {front more : List Char} {c : Char}

/-- A character that is not the first one of a text comes after it. -/
theorem exists_cons_of_append_eq {d : Char} {tail : List Char}
    (h : front ++ c :: more = d :: tail) (hne : c ≠ d) :
    ∃ front', front = d :: front' ∧ tail = front' ++ c :: more := by
  cases front with
  | nil => exact absurd (List.cons.inj h).1 hne
  | cons first front' =>
    obtain ⟨rfl, rfl⟩ := List.cons.inj h
    exact ⟨front', rfl, rfl⟩

theorem IsDigits.cut (h : ∀ d ∈ front ++ c :: more, isDigit d = true) :
    IsDigits (front ++ [c]) := by
  refine ⟨by simp, fun d hd => h d ?_⟩
  rw [List.append_cons]
  exact List.mem_append_left _ hd

theorem IsName.cut (h : IsName (front ++ c :: more)) : IsName (front ++ [c]) := by
  cases front with
  | nil => exact ⟨h.1, List.forall_mem_nil _⟩
  | cons first front =>
    refine ⟨h.1, fun d hd => h.2 d ?_⟩
    change d ∈ front ++ c :: more
    rw [List.append_cons]
    exact List.mem_append_left _ hd

/-- An exponent that is cut after a digit is an exponent. -/
theorem IsExponent.cut {e : Int} (h : IsExponent e (front ++ c :: more))
    (hc : isDigit c = true) : ∃ e', IsExponent e' (front ++ [c]) := by
  obtain ⟨hplus, hminus, -, hlower, hupper⟩ := ne_of_isDigit hc
  have hne : ∀ {mark : Char}, mark = 'e' ∨ mark = 'E' → c ≠ mark := by
    rintro mark (rfl | rfl)
    · exact hlower
    · exact hupper
  generalize hword : front ++ c :: more = word at h
  cases h with
  | absent => simp at hword
  | unsigned hmark hdigits =>
    obtain ⟨front, rfl, rfl⟩ := exists_cons_of_append_eq hword (hne hmark)
    exact ⟨_, .unsigned hmark (.cut hdigits.2)⟩
  | positive hmark hdigits =>
    obtain ⟨front, rfl, hsigned⟩ := exists_cons_of_append_eq hword (hne hmark)
    obtain ⟨front, rfl, rfl⟩ := exists_cons_of_append_eq hsigned.symm hplus
    exact ⟨_, .positive hmark (.cut hdigits.2)⟩
  | negative hmark hdigits =>
    obtain ⟨front, rfl, hsigned⟩ := exists_cons_of_append_eq hword (hne hmark)
    obtain ⟨front, rfl, rfl⟩ := exists_cons_of_append_eq hsigned.symm hminus
    exact ⟨_, .negative hmark (.cut hdigits.2)⟩

/-- Digits and what follows them, cut after a digit. -/
theorem cut_append {digits tail : List Char} (h : digits ++ tail = front ++ c :: more) :
    (∃ more', digits = front ++ c :: more') ∨
      (∃ front', front = digits ++ front' ∧ tail = front' ++ c :: more) := by
  obtain ⟨front', hfront, htail⟩ | ⟨more', hdigits, hmore⟩ := List.append_eq_append_iff.1 h
  · exact Or.inr ⟨front', hfront, htail⟩
  · cases more' with
    | nil =>
      rw [List.append_nil] at hdigits
      exact Or.inr ⟨[], by rw [hdigits, List.append_nil], hmore.symm⟩
    | cons first more' =>
      rw [(List.cons.inj hmore).1]
      exact Or.inl ⟨more', hdigits⟩

/-- A numeral that is cut after a digit is a numeral. -/
theorem IsNumeral.cut {value : Decimal} (h : IsNumeral value (front ++ c :: more))
    (hc : isDigit c = true) : ∃ value', IsNumeral value' (front ++ [c]) := by
  have hwhole : ∀ {digits more' : List Char}, (∀ d ∈ digits, isDigit d = true) →
      digits = front ++ c :: more' → ∃ value', IsNumeral value' (front ++ [c]) := by
    rintro digits more' hdigits rfl
    have hnumeral := IsNumeral.whole (.cut hdigits) .absent
    rw [List.append_nil] at hnumeral
    exact ⟨_, hnumeral⟩
  generalize hword : front ++ c :: more = word at h
  cases h with
  | whole hdigits hexponent =>
    obtain ⟨more', hcut⟩ | ⟨front', rfl, rfl⟩ := cut_append hword.symm
    · exact hwhole hdigits.2 hcut
    · obtain ⟨e, hexponent'⟩ := hexponent.cut hc
      rw [List.append_assoc]
      exact ⟨_, .whole hdigits hexponent'⟩
  | @fractional digits decimals exponent e hdigits hdecimals hexponent =>
    obtain ⟨more', hcut⟩ | ⟨front', rfl, htail⟩ := cut_append hword.symm
    · exact hwhole hdigits hcut
    · obtain ⟨front', rfl, hfraction⟩ :=
        exists_cons_of_append_eq htail.symm (ne_of_isDigit hc).2.2.1
      rw [List.append_assoc, List.cons_append]
      obtain ⟨more', rfl⟩ | ⟨front'', rfl, rfl⟩ := cut_append hfraction
      · have hnumeral := IsNumeral.fractional hdigits (.cut hdecimals.2) .absent
        rw [List.append_nil] at hnumeral
        exact ⟨_, hnumeral⟩
      · obtain ⟨e', hexponent'⟩ := hexponent.cut hc
        rw [List.append_assoc]
        exact ⟨_, .fractional hdigits hdecimals hexponent'⟩

end Words

/-- A rest of a text that can take the place of another one: it starts with a separator, or
with the same digit. -/
inductive Replaces : List Char → List Char → Prop where
  | separated {rest' : List Char} (rest : List Char) (h : Separated rest') : Replaces rest' rest
  | digit {c : Char} (more' more : List Char) (hc : isDigit c = true) :
      Replaces (c :: more') (c :: more)

section Replacing

variable {word mid rest rest' : List Char}

/-- A longest word stays one, if its class has no separators and allows cuts after digits. -/
theorem Longest.replace {Word : List Char → Prop} (hrest : Replaces rest' rest)
    (hclass : ∀ w, Word w → ∀ c ∈ w, ¬ IsSeparator c)
    (hcut : ∀ front c more, isDigit c = true → Word (front ++ c :: more) → Word (front ++ [c]))
    (h : Longest Word word (mid ++ rest)) : Longest Word word (mid ++ rest') := by
  refine ⟨h.mem, fun other hother hmem => ?_⟩
  have hinside : other <+: word ++ mid → other.length ≤ word.length := by
    intro hother
    refine h.length_le other ?_ hmem
    rw [← List.append_assoc]
    exact hother.trans (List.prefix_append _ _)
  rw [← List.append_assoc] at hother
  rcases List.prefix_or_prefix_of_prefix hother (List.prefix_append (word ++ mid) rest')
    with hle | ⟨tail, rfl⟩
  · exact hinside hle
  · cases tail with
    | nil => exact hinside (by simp)
    | cons c tail =>
      -- The other word reaches over the cut, and its first character there is a digit.
      have htail := (List.prefix_append_right_inj (word ++ mid)).1 hother
      cases hrest with
      | separated rest hseparated =>
        obtain ⟨more, rfl⟩ := htail
        exact absurd (hseparated c _ rfl) (hclass _ hmem c (by simp))
      | digit more' more hc =>
        obtain ⟨rfl, -⟩ := List.cons_prefix_cons.1 htail
        have hlength := h.length_le (word ++ mid ++ [c])
          ⟨more, by simp⟩ (hcut _ c tail hc hmem)
        simp only [List.length_append, List.length_singleton] at hlength
        omega

theorem Spelled.replace {token : Token} (hrest : Replaces rest' rest)
    (h : Spelled token word (mid ++ rest)) : Spelled token word (mid ++ rest') := by
  cases h with
  | number hvalue hlongest =>
    refine .number hvalue (hlongest.replace hrest ?_ ?_)
    · exact fun _ ⟨_, hnumeral⟩ => hnumeral.not_isSeparator
    · exact fun _ _ _ hc ⟨_, hnumeral⟩ => hnumeral.cut hc
  | name hlongest =>
    refine .name (hlongest.replace hrest ?_ ?_)
    · exact fun _ hname => hname.not_isSeparator
    · exact fun _ _ _ _ hname => hname.cut
  | add => exact .add _
  | sub => exact .sub _
  | mul => exact .mul _
  | div => exact .div _
  | openParen => exact .openParen _
  | closeParen => exact .closeParen _
  | equal => exact .equal _
  | atMost => exact .atMost _
  | atLeast => exact .atLeast _

end Replacing

/-- A text that is cut in front of a token, or at its end: the characters before the cut are
the first tokens, and they stay these tokens in front of another rest. -/
structure Cut (position : Nat) (l : List Char) (read later : List Lexeme)
    (chars rest : List Char) : Prop where
  text_eq : l = chars ++ rest
  later_eq : lexFrom (position + units chars) rest = later
  not_isBlank : ∀ c more, rest = c :: more → ¬ IsBlank c
  tokenized : ∀ rest' lexemes, Replaces rest' rest →
    Tokenized (position + units chars) rest' lexemes →
    Tokenized position (chars ++ rest') (read ++ lexemes)

section Unfinished

variable {c : Char} {l word rest : List Char}

theorem digitsOf_eq_nil (h : digitsOf l = []) : NoDigitAhead l := by
  rintro c rest rfl
  by_contra hc
  rw [Bool.not_eq_false] at hc
  rw [digitsOf, List.takeWhile_cons_of_pos hc] at h
  cases h

theorem fractionPart_eq_point (h : fractionPart l = ['.']) :
    ∃ r, l = '.' :: r ∧ NoDigitAhead r := by
  unfold fractionPart at h
  split at h
  · exact ⟨_, rfl, digitsOf_eq_nil (List.cons.inj h).2⟩
  · cases h

theorem unfinished_of_scanNumber (hstarts : StartsNumeral l)
    (h : scanNumber l = (.unfinishedNumber, word)) :
    ∃ digits r, IsDigits digits ∧ l = digits ++ '.' :: r ∧ word = digits ++ ['.'] := by
  have hsplit : digitsOf l ++ l.drop (digitsOf l).length = l :=
    List.prefix_iff_eq_append.1 (List.takeWhile_prefix isDigit)
  unfold scanNumber at h
  simp only at h
  split at h
  · rename_i hfraction
    obtain ⟨r, hdrop, hr⟩ := fractionPart_eq_point hfraction
    rw [hfraction] at h
    rw [hdrop] at hsplit
    refine ⟨digitsOf l, r, isDigits_digitsOf ?_, hsplit.symm, (Prod.mk.inj h).2.symm⟩
    intro hnil
    rw [hnil, List.nil_append] at hsplit
    rw [← hsplit, startsNumeral_cons] at hstarts
    rcases hstarts with hdigit | ⟨-, hdigit⟩
    · exact absurd hdigit (by decide)
    · exact hdigit hr
  · cases h

/-- A number that is not finished consists of digits and the decimal point after them. -/
theorem unfinished_of_scan (h : scan c rest = (.unfinishedNumber, word)) :
    ∃ digits r, IsDigits digits ∧ c :: rest = digits ++ '.' :: r ∧ word = digits ++ ['.'] := by
  by_cases hstarts : StartsNumeral (c :: rest)
  · rw [scan_of_startsNumeral hstarts] at h
    exact unfinished_of_scanNumber hstarts h
  · by_cases hname : isNameStart c = true
    · rw [scan_of_isNameStart hname] at h
      cases h
    · rw [startsNumeral_cons, not_noDigitAhead_iff] at hstarts
      unfold scan at h
      rw [if_neg (by simpa using hstarts), if_neg hname] at h
      split at h
      case h_7 =>
        unfold scanComparison at h
        split at h <;> cases h
      all_goals cases h

end Unfinished

section Cuts

variable {position : Nat} {l chars rest : List Char} {read later : List Lexeme}

theorem Cut.empty (h : ∀ c more, l = c :: more → ¬ IsBlank c) :
    Cut position l [] (lexFrom position l) [] l :=
  ⟨rfl, rfl, h, fun _ _ _ htokenized => htokenized⟩

theorem Cut.blank {c : Char} (hblank : IsBlank c) (h : Cut (position + 1) l read later chars rest) :
    Cut position (c :: l) read later (c :: chars) rest := by
  have hunits : position + units (c :: chars) = position + 1 + units chars := by
    rw [units, unitLength_of_isBlank hblank, Nat.add_assoc]
  refine ⟨by rw [h.text_eq]; rfl, by rw [hunits]; exact h.later_eq, h.not_isBlank, ?_⟩
  intro rest' lexemes hrest htokenized
  rw [hunits] at htokenized
  exact .blank hblank (h.tokenized rest' lexemes hrest htokenized)

theorem Cut.token {lexeme : Lexeme} (hspelled : Spelled lexeme.token lexeme.spelling l)
    (h : Cut lexeme.stop l read later chars rest) :
    Cut lexeme.position (lexeme.spelling ++ l) (lexeme :: read) later (lexeme.spelling ++ chars)
      rest := by
  have hunits : lexeme.position + units (lexeme.spelling ++ chars) = lexeme.stop + units chars := by
    rw [units_append, Lexeme.stop, Nat.add_assoc]
  refine ⟨by rw [h.text_eq, List.append_assoc], by rw [hunits]; exact h.later_eq,
    h.not_isBlank, ?_⟩
  intro rest' lexemes hrest htokenized
  rw [hunits] at htokenized
  rw [h.text_eq] at hspelled
  rw [List.append_assoc]
  exact .token (hspelled.replace hrest) (h.tokenized rest' lexemes hrest htokenized)

/-- A text can be cut behind tokens that have a place in the grammar. -/
theorem exists_cut (position : Nat) (l : List Char) (later : List Lexeme) :
    ∀ read, lexFrom position l = read ++ later → (∀ lexeme ∈ read, lexeme.token.IsProper) →
      ∃ chars rest, Cut position l read later chars rest := by
  induction position, l using lexFrom.induct with
  | case1 position =>
    intro read hlex hproper
    rw [lexFrom, eq_comm, List.append_eq_nil_iff] at hlex
    obtain ⟨rfl, rfl⟩ := hlex
    have hcut : Cut position [] [] (lexFrom position []) [] [] := .empty (by simp)
    rw [lexFrom] at hcut
    exact ⟨[], [], hcut⟩
  | case2 position c rest hblank ih =>
    intro read hlex hproper
    rw [lexFrom, if_pos hblank] at hlex
    obtain ⟨chars, rest', hcut⟩ := ih read hlex hproper
    exact ⟨_, _, hcut.blank hblank⟩
  | case3 position c rest hblank token spelling hscan lexeme ih =>
    intro read hlex hproper
    cases read with
    | nil =>
      rw [List.nil_append] at hlex
      subst hlex
      refine ⟨[], c :: rest, .empty ?_⟩
      rintro _ _ ⟨⟩
      exact hblank
    | cons first read =>
      rw [lexFrom, if_neg hblank, hscan] at hlex
      obtain ⟨hfirst, hlater⟩ := List.cons.inj hlex
      obtain ⟨hproperFirst, hproperRead⟩ := List.forall_mem_cons.1 hproper
      rw [← hfirst] at hproperFirst ⊢
      obtain ⟨heq, hspelled⟩ := spelled_of_scan_drop hscan hproperFirst
      have hlexemeSpelled : Spelled lexeme.token lexeme.spelling _ := hspelled
      obtain ⟨chars, rest', hcut⟩ := ih read hlater hproperRead
      rw [heq]
      exact ⟨_, _, hcut.token hlexemeSpelled⟩

/-- The rest behind a cut starts with the first token that is left. -/
theorem Cut.exists_scan {lexeme : Lexeme}
    (h : Cut position l read (lexeme :: later) chars rest) :
    lexeme.position = position + units chars ∧ ∃ c tail word, rest = c :: tail ∧
      scan c tail = (lexeme.token, word) ∧ lexeme.spelling = c :: word.drop 1 := by
  have hlater := h.later_eq
  cases rest with
  | nil =>
    rw [lexFrom] at hlater
    cases hlater
  | cons c tail =>
    rw [lexFrom, if_neg (h.not_isBlank c tail rfl)] at hlater
    cases hscan : scan c tail with
    | mk token word =>
      rw [hscan] at hlater
      rw [← (List.cons.inj hlater).1]
      exact ⟨rfl, c, tail, word, rfl, hscan, rfl⟩

/-- No character is left behind the last token. -/
theorem Cut.rest_eq_nil (h : Cut position l read [] chars rest) : rest = [] := by
  have hlater := h.later_eq
  cases rest with
  | nil => rfl
  | cons c tail =>
    rw [lexFrom, if_neg (h.not_isBlank c tail rfl)] at hlater
    cases hlater

/-- The digits of an unfinished number are at the start of what is left. -/
theorem Cut.exists_digits {lexeme : Lexeme}
    (h : Cut position l read (lexeme :: later) chars rest)
    (htoken : lexeme.token = .unfinishedNumber) :
    ∃ digits r, IsDigits digits ∧ rest = digits ++ '.' :: r ∧
      lexeme.spelling = digits ++ ['.'] := by
  obtain ⟨-, c, tail, word, rfl, hscan, hspelling⟩ := h.exists_scan
  rw [htoken] at hscan
  obtain ⟨digits, r, hdigits, hrest, rfl⟩ := unfinished_of_scan hscan
  refine ⟨digits, r, hdigits, hrest, ?_⟩
  obtain ⟨first, more, rfl, -⟩ := hdigits.exists_cons
  rw [hspelling, (List.cons.inj hrest).1]
  rfl

end Cuts

end NamedConstants.Token
