import Mathlib.Data.List.TakeWhile
import Mathlib.Data.Nat.Find
import NamedConstants.Proofs.Source.Grammar

/-!
The numeral at the start of a text. Each part of a numeral goes on as long as it can, and
the parts do not get in each other's way, so that the numeral as a whole is the longest
one. Only a decimal point without a digit after it makes a difference: it ends a numeral,
but the scanner has taken it by then.
-/
namespace NamedConstants.Token

def NoDigitAhead (l : List Char) : Prop := ∀ c rest, l = c :: rest → isDigit c = false

theorem noDigitAhead_nil : NoDigitAhead [] := by
  intro c rest h
  cases h

theorem noDigitAhead_cons {c : Char} {rest : List Char} (h : isDigit c = false) :
    NoDigitAhead (c :: rest) := by
  intro c' rest' h'
  cases h'
  exact h

theorem takeWhile_append_of_stop {p : Char → Bool} {word rest : List Char}
    (hword : ∀ c ∈ word, p c = true) (hstop : ∀ c r, rest = c :: r → p c = false) :
    (word ++ rest).takeWhile p = word := by
  rw [List.takeWhile_append_of_pos hword]
  cases rest with
  | nil => simp
  | cons c r => simp [hstop c r rfl]

theorem digitsOf_append {digits rest : List Char} (hdigits : ∀ c ∈ digits, isDigit c = true)
    (hrest : NoDigitAhead rest) : digitsOf (digits ++ rest) = digits :=
  takeWhile_append_of_stop hdigits hrest

theorem digitsOf_of_noDigitAhead {l : List Char} (h : NoDigitAhead l) : digitsOf l = [] :=
  takeWhile_append_of_stop (List.forall_mem_nil _) h

theorem IsDigits.digitsOf_append {digits rest : List Char} (h : IsDigits digits)
    (hrest : NoDigitAhead rest) : digitsOf (digits ++ rest) = digits :=
  Token.digitsOf_append h.2 hrest

theorem IsDigits.append_digit {digits : List Char} (h : IsDigits digits) {c : Char}
    (hc : isDigit c = true) : IsDigits (digits ++ [c]) := by
  refine ⟨by simp, ?_⟩
  intro d hd
  rcases List.mem_append.1 hd with hd | hd
  · exact h.2 d hd
  · rw [List.mem_singleton.1 hd]
    exact hc

theorem IsDigits.exists_cons {digits : List Char} (h : IsDigits digits) :
    ∃ c rest, digits = c :: rest ∧ isDigit c = true := by
  cases digits with
  | nil => exact absurd rfl h.1
  | cons c rest => exact ⟨c, rest, rfl, h.2 c (List.mem_cons_self ..)⟩

/-- A digit is none of the characters that mean something else in a numeral. -/
theorem ne_of_isDigit {c : Char} (h : isDigit c = true) :
    c ≠ '+' ∧ c ≠ '-' ∧ c ≠ '.' ∧ c ≠ 'e' ∧ c ≠ 'E' := by
  refine ⟨?_, ?_, ?_, ?_, ?_⟩ <;> (rintro rfl; revert h; decide)

section Exponents

variable {mark : Char} {digits rest : List Char}

theorem noDigitAhead_mark (hmark : mark = 'e' ∨ mark = 'E') : NoDigitAhead (mark :: rest) := by
  rcases hmark with rfl | rfl <;> exact noDigitAhead_cons (by decide)

theorem signPart_of_digits (h : IsDigits digits) (rest : List Char) :
    signPart (digits ++ rest) = [] := by
  obtain ⟨c, r, rfl, hc⟩ := h.exists_cons
  obtain ⟨hplus, hminus, -⟩ := ne_of_isDigit hc
  rw [List.cons_append]
  unfold signPart
  split
  · rename_i heq
    cases heq
    exact absurd rfl hplus
  · rename_i heq
    cases heq
    exact absurd rfl hminus
  · rfl

theorem exponentPart_of_sign (sign : List Char) (hmark : mark = 'e' ∨ mark = 'E')
    (hsign : signPart (sign ++ (digits ++ rest)) = sign) (hdigits : IsDigits digits)
    (hrest : NoDigitAhead rest) :
    exponentPart (mark :: (sign ++ (digits ++ rest))) = mark :: (sign ++ digits) := by
  have hrun : digitsOf ((sign ++ (digits ++ rest)).drop sign.length) = digits := by
    rw [List.drop_left]
    exact hdigits.digitsOf_append hrest
  unfold exponentPart
  simp only [hsign, hrun]
  rw [if_pos ⟨hmark, hdigits.1⟩]

theorem exponentValue_of_digits (mark : Char) (h : IsDigits digits) :
    exponentValue (mark :: digits) = natOfDigits digits := by
  obtain ⟨c, r, rfl, hc⟩ := h.exists_cons
  obtain ⟨hplus, hminus, -⟩ := ne_of_isDigit hc
  unfold exponentValue
  split
  · rename_i heq
    cases heq
    exact absurd rfl hminus
  · rename_i heq
    cases heq
    exact absurd rfl hplus
  · rename_i heq
    cases heq
    rfl
  · rename_i heq
    cases heq

theorem IsExponent.exponentValue_eq {e : Int} {word : List Char} (h : IsExponent e word) :
    exponentValue word = e := by
  cases h with
  | absent => rfl
  | unsigned hmark hdigits => exact exponentValue_of_digits _ hdigits
  | positive hmark hdigits => rfl
  | negative hmark hdigits => rfl

/-- An exponent that is there is taken up to its last digit. -/
theorem IsExponent.exponentPart_append {e : Int} {word : List Char} (h : IsExponent e word)
    (hne : word ≠ []) (hrest : NoDigitAhead rest) : exponentPart (word ++ rest) = word := by
  cases h with
  | absent => exact absurd rfl hne
  | unsigned hmark hdigits =>
    exact exponentPart_of_sign [] hmark (signPart_of_digits hdigits rest) hdigits hrest
  | positive hmark hdigits => exact exponentPart_of_sign ['+'] hmark rfl hdigits hrest
  | negative hmark hdigits => exact exponentPart_of_sign ['-'] hmark rfl hdigits hrest

theorem isDigits_digitsOf {l : List Char} (h : digitsOf l ≠ []) : IsDigits (digitsOf l) :=
  ⟨h, fun _ hc => List.mem_takeWhile_imp hc⟩

/-- What is taken for an exponent is one. -/
theorem isExponent_exponentPart (l : List Char) :
    IsExponent (exponentValue (exponentPart l)) (exponentPart l) ∧ exponentPart l <+: l := by
  cases l with
  | nil => exact ⟨.absent, List.nil_prefix⟩
  | cons mark rest =>
    by_cases htaken : (mark = 'e' ∨ mark = 'E') ∧
        digitsOf (rest.drop (signPart rest).length) ≠ []
    · have heq : exponentPart (mark :: rest) =
          mark :: (signPart rest ++ digitsOf (rest.drop (signPart rest).length)) := by
        simp only [exponentPart]
        rw [if_pos htaken]
      obtain ⟨hmark, hne⟩ := htaken
      rw [heq]
      unfold signPart at hne ⊢
      split at hne
      · rename_i r
        exact ⟨.positive hmark (isDigits_digitsOf hne), by simp [List.takeWhile_prefix, digitsOf]⟩
      · rename_i r
        exact ⟨.negative hmark (isDigits_digitsOf hne), by simp [List.takeWhile_prefix, digitsOf]⟩
      · rename_i hplus hminus
        have hdigits := isDigits_digitsOf hne
        refine ⟨?_, by simp [List.takeWhile_prefix, digitsOf]⟩
        have hexponent := IsExponent.unsigned hmark hdigits
        rwa [← exponentValue_of_digits mark hdigits] at hexponent
    · have heq : exponentPart (mark :: rest) = [] := by
        simp only [exponentPart]
        rw [if_neg htaken]
      rw [heq]
      exact ⟨.absent, List.nil_prefix⟩

theorem IsExponent.append_digit {e : Int} {word : List Char} (h : IsExponent e word)
    (hne : word ≠ []) {c : Char} (hc : isDigit c = true) :
    ∃ e', IsExponent e' (word ++ [c]) := by
  cases h with
  | absent => exact absurd rfl hne
  | unsigned hmark hdigits => exact ⟨_, .unsigned hmark (hdigits.append_digit hc)⟩
  | positive hmark hdigits => exact ⟨_, .positive hmark (hdigits.append_digit hc)⟩
  | negative hmark hdigits => exact ⟨_, .negative hmark (hdigits.append_digit hc)⟩

theorem IsExponent.exists_mark {e : Int} {word : List Char} (h : IsExponent e word)
    (hne : word ≠ []) : ∃ mark more, word = mark :: more ∧ (mark = 'e' ∨ mark = 'E') := by
  cases h with
  | absent => exact absurd rfl hne
  | unsigned hmark => exact ⟨_, _, rfl, hmark⟩
  | positive hmark => exact ⟨_, _, rfl, hmark⟩
  | negative hmark => exact ⟨_, _, rfl, hmark⟩

theorem IsExponent.noDigitAhead {e : Int} {word : List Char} (h : IsExponent e word)
    (hrest : NoDigitAhead rest) : NoDigitAhead (word ++ rest) := by
  by_cases hne : word = []
  · rw [hne]
    exact hrest
  · obtain ⟨mark, more, rfl, hmark⟩ := h.exists_mark hne
    exact noDigitAhead_mark hmark

end Exponents

section Scanning

variable {digits decimals rest : List Char}

theorem fractionPart_of_ne (h : ∀ r, rest ≠ '.' :: r) : fractionPart rest = [] := by
  unfold fractionPart
  split
  · rename_i r
    exact absurd rfl (h r)
  · rfl

theorem scanNumber_whole (hdigits : IsDigits digits) (hrest : NoDigitAhead rest)
    (hpoint : ∀ r, rest ≠ '.' :: r) :
    scanNumber (digits ++ rest) =
      (.number { coefficient := natOfDigits digits, exponent := exponentValue (exponentPart rest) },
        digits ++ exponentPart rest) := by
  have hrun := hdigits.digitsOf_append hrest
  have hfraction := fractionPart_of_ne hpoint
  simp [scanNumber, hrun, hfraction]

theorem scanNumber_fractional (hdigits : ∀ c ∈ digits, isDigit c = true)
    (hdecimals : IsDigits decimals) (hrest : NoDigitAhead rest) :
    scanNumber (digits ++ '.' :: (decimals ++ rest)) =
      (.number
        { coefficient := natOfDigits (digits ++ decimals)
          exponent := exponentValue (exponentPart rest) - decimals.length },
        digits ++ '.' :: (decimals ++ exponentPart rest)) := by
  have hpoint : NoDigitAhead ('.' :: (decimals ++ rest)) := noDigitAhead_cons (by decide)
  have hrun := digitsOf_append hdigits hpoint
  have hdecimals' := hdecimals.digitsOf_append hrest
  have hne := hdecimals.1
  simp [scanNumber, hrun, fractionPart, hdecimals', hne, ← List.drop_drop]

/-- A decimal point that no digit follows is taken along, and makes the number unfinished. -/
theorem scanNumber_unfinished (hdigits : IsDigits digits) (hrest : NoDigitAhead rest) :
    (scanNumber (digits ++ '.' :: rest)).1 = .unfinishedNumber := by
  have hpoint : NoDigitAhead ('.' :: rest) := noDigitAhead_cons (by decide)
  have hrun := hdigits.digitsOf_append hpoint
  simp [scanNumber, hrun, fractionPart, digitsOf_of_noDigitAhead hrest]

end Scanning

section Longest

variable {Word : List Char → Prop} {word rest : List Char}

theorem Longest.not_append (h : Longest Word word rest) {more : List Char} (hne : more ≠ [])
    (hmore : more <+: rest) : ¬ Word (word ++ more) := by
  intro hword
  have hle := h.length_le (word ++ more) ((List.prefix_append_right_inj word).2 hmore) hword
  have hpos := List.length_pos_iff.2 hne
  rw [List.length_append] at hle
  omega

/-- A text that starts with a word starts with a longest one. -/
theorem exists_longest {l : List Char} (h : ∃ w, w <+: l ∧ Word w) :
    ∃ word rest, l = word ++ rest ∧ Longest Word word rest := by
  classical
  obtain ⟨w, hw, hword⟩ := h
  have htake : Word (l.take w.length) := by rwa [List.prefix_iff_eq_take.1 hw] at hword
  let P (n : Nat) : Prop := Word (l.take n)
  let n := Nat.findGreatest P l.length
  have hn : P n := Nat.findGreatest_spec (P := P) hw.length_le htake
  refine ⟨l.take n, l.drop n, (List.take_append_drop n l).symm, hn, ?_⟩
  intro other hother hword'
  rw [List.take_append_drop] at hother
  have hle : other.length ≤ n := by
    refine Nat.le_findGreatest (P := P) hother.length_le ?_
    rwa [List.prefix_iff_eq_take.1 hother] at hword'
  have hlength := hother.length_le
  rw [List.length_take]
  omega

end Longest

theorem IsNumeral.append_digit {value : Decimal} {word : List Char} (h : IsNumeral value word)
    {c : Char} (hc : isDigit c = true) : ∃ d, IsNumeral d (word ++ [c]) := by
  cases h with
  | @whole digits exponent e hdigits hexponent =>
    rw [List.append_assoc]
    by_cases hne : exponent = []
    · subst hne
      have hnumeral := IsNumeral.whole (hdigits.append_digit hc) .absent
      rw [List.append_nil] at hnumeral
      exact ⟨_, hnumeral⟩
    · obtain ⟨e', hexponent'⟩ := hexponent.append_digit hne hc
      exact ⟨_, .whole hdigits hexponent'⟩
  | @fractional digits decimals exponent e hdigits hdecimals hexponent =>
    rw [List.append_assoc, List.cons_append, List.append_assoc]
    by_cases hne : exponent = []
    · subst hne
      have hnumeral := IsNumeral.fractional hdigits (hdecimals.append_digit hc) .absent
      rw [List.append_nil] at hnumeral
      exact ⟨_, hnumeral⟩
    · obtain ⟨e', hexponent'⟩ := hexponent.append_digit hne hc
      exact ⟨_, .fractional hdigits hdecimals hexponent'⟩

section Numerals

variable {value : Decimal} {word rest : List Char}

theorem noDigitAhead_of_longest (hvalue : IsNumeral value word)
    (hlongest : Longest (fun w => ∃ d, IsNumeral d w) word rest) : NoDigitAhead rest := by
  intro c r hrest
  by_contra hc
  rw [Bool.not_eq_false] at hc
  have hmore : [c] <+: rest := by
    rw [hrest]
    exact ⟨r, rfl⟩
  exact hlongest.not_append (by simp) hmore (hvalue.append_digit hc)

/-- No exponent is left to be taken after a longest numeral that could have one. -/
theorem exponentPart_of_longest (hlongest : Longest (fun w => ∃ d, IsNumeral d w) word rest)
    (hopen : ∀ e exponent, IsExponent e exponent → ∃ d, IsNumeral d (word ++ exponent)) :
    exponentPart rest = [] := by
  by_contra hne
  obtain ⟨hexponent, hprefix⟩ := isExponent_exponentPart rest
  apply hlongest.not_append hne hprefix
  exact hopen _ _ hexponent

/-- A digit after the point would make the numeral longer. -/
theorem noDigitAhead_of_longest_digits {digits r : List Char} (hdigits : IsDigits digits)
    (hlongest : Longest (fun w => ∃ d, IsNumeral d w) digits ('.' :: r)) : NoDigitAhead r := by
  intro c more hr
  by_contra hc
  rw [Bool.not_eq_false] at hc
  have hmore : ['.', c] <+: '.' :: r := by
    rw [hr]
    exact ⟨more, rfl⟩
  have hdecimals : IsDigits [c] := ⟨by simp, by simpa using hc⟩
  have hnumeral := IsNumeral.fractional hdigits.2 hdecimals .absent
  exact hlongest.not_append (by simp) hmore ⟨_, hnumeral⟩

/-- Digits that are the longest numeral, with no exponent and no decimals. -/
theorem scanNumber_of_longest_digits {digits : List Char} (hdigits : IsDigits digits)
    (hlongest : Longest (fun w => ∃ d, IsNumeral d w) digits rest) (hrest : NoDigitAhead rest) :
    scanNumber (digits ++ rest) =
        (.number { coefficient := natOfDigits digits, exponent := 0 }, digits) ∨
      ((scanNumber (digits ++ rest)).1 = .unfinishedNumber ∧
        ∃ r, rest = '.' :: r ∧ NoDigitAhead r) := by
  by_cases hpoint : ∃ r, rest = '.' :: r
  · right
    obtain ⟨r, rfl⟩ := hpoint
    have hnodigit := noDigitAhead_of_longest_digits hdigits hlongest
    exact ⟨scanNumber_unfinished hdigits hnodigit, r, rfl, hnodigit⟩
  · left
    have hpart : exponentPart rest = [] := by
      apply exponentPart_of_longest hlongest
      intro e exponent hexponent
      exact ⟨_, .whole hdigits hexponent⟩
    have hscan := scanNumber_whole hdigits hrest (fun r hr => hpoint ⟨r, hr⟩)
    rw [hpart, List.append_nil] at hscan
    exact hscan

/-- The scanner finds the longest numeral, or stops at a point with no digit after it. -/
theorem scanNumber_of_longest (hvalue : IsNumeral value word)
    (hlongest : Longest (fun w => ∃ d, IsNumeral d w) word rest) :
    scanNumber (word ++ rest) = (.number value, word) ∨
      ((scanNumber (word ++ rest)).1 = .unfinishedNumber ∧
        ∃ r, rest = '.' :: r ∧ NoDigitAhead r) := by
  have hrest := noDigitAhead_of_longest hvalue hlongest
  cases hvalue with
  | @whole digits exponent e hdigits hexponent =>
    by_cases hne : exponent = []
    · subst hne
      cases hexponent
      rw [List.append_nil] at hlongest ⊢
      exact scanNumber_of_longest_digits hdigits hlongest hrest
    · left
      have hahead := hexponent.noDigitAhead hrest
      have hpoint : ∀ r, exponent ++ rest ≠ '.' :: r := by
        obtain ⟨mark, more, rfl, hmark⟩ := hexponent.exists_mark hne
        rintro r ⟨⟩
        revert hmark
        decide
      rw [List.append_assoc, scanNumber_whole hdigits hahead hpoint,
        hexponent.exponentPart_append hne hrest, hexponent.exponentValue_eq]
  | @fractional digits decimals exponent e hdigits hdecimals hexponent =>
    left
    have hahead := hexponent.noDigitAhead hrest
    have hpart : exponentPart (exponent ++ rest) = exponent := by
      by_cases hne : exponent = []
      · subst hne
        apply exponentPart_of_longest hlongest
        intro e exponent hexponent
        rw [List.append_nil, List.append_assoc, List.cons_append]
        exact ⟨_, .fractional hdigits hdecimals hexponent⟩
      · exact hexponent.exponentPart_append hne hrest
    rw [List.append_assoc, List.cons_append, List.append_assoc,
      scanNumber_fractional hdigits hdecimals hahead, hpart, hexponent.exponentValue_eq]

def StartsNumeral (l : List Char) : Prop :=
  ∃ c rest, l = c :: rest ∧ (isDigit c = true ∨ c = '.' ∧ ¬ NoDigitAhead rest)

theorem IsDigits.not_noDigitAhead {digits : List Char} (h : IsDigits digits) (rest : List Char) :
    ¬ NoDigitAhead (digits ++ rest) := by
  obtain ⟨c, more, rfl, hc⟩ := h.exists_cons
  intro hahead
  rw [hahead c (more ++ rest) rfl] at hc
  cases hc

theorem IsNumeral.startsNumeral (h : IsNumeral value word) (rest : List Char) :
    StartsNumeral (word ++ rest) := by
  cases h with
  | whole hdigits hexponent =>
    obtain ⟨c, more, rfl, hc⟩ := hdigits.exists_cons
    exact ⟨c, _, rfl, Or.inl hc⟩
  | @fractional digits decimals exponent e hdigits hdecimals hexponent =>
    cases digits with
    | nil =>
      refine ⟨'.', decimals ++ exponent ++ rest, rfl, Or.inr ⟨rfl, ?_⟩⟩
      rw [List.append_assoc]
      exact hdecimals.not_noDigitAhead _
    | cons c more => exact ⟨c, _, rfl, Or.inl (hdigits c (List.mem_cons_self ..))⟩

theorem IsNumeral.exists_cons (h : IsNumeral value word) : ∃ c more, word = c :: more := by
  obtain ⟨c, more, hword, -⟩ := h.startsNumeral []
  exact ⟨c, more, by rwa [List.append_nil] at hword⟩

/-- A text that starts like a numeral starts with one. -/
theorem StartsNumeral.exists_isNumeral {l : List Char} (h : StartsNumeral l) :
    ∃ w, w <+: l ∧ ∃ d, IsNumeral d w := by
  have hsingle : ∀ c, isDigit c = true → IsDigits [c] := by
    intro c hc
    exact ⟨by simp, by simpa using hc⟩
  obtain ⟨c, rest, rfl, hc | ⟨rfl, hrest⟩⟩ := h
  · exact ⟨[c], ⟨rest, rfl⟩, _, .whole (hsingle c hc) .absent⟩
  · unfold NoDigitAhead at hrest
    push Not at hrest
    obtain ⟨d, more, rfl, hd⟩ := hrest
    rw [ne_eq, Bool.not_eq_false] at hd
    have hnumeral : IsNumeral _ ([] ++ '.' :: ([d] ++ [])) :=
      .fractional (by simp) (hsingle d hd) .absent
    exact ⟨_, ⟨more, rfl⟩, _, hnumeral⟩

end Numerals

end NamedConstants.Token
