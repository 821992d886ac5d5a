import NamedConstants.Decimal.Text
import NamedConstants.Proofs.Decimal.Doubles
import NamedConstants.Proofs.Source.Grammar

/-!
The text of a double is a numeral, with a minus sign in front of it for a negative one. All
four layouts of the digits are numerals, as long as there is a digit that is not zero. There
is one for every finite double but the two zeros: its shortest decimal lies in its rounding
interval, which stays away from zero.
-/
namespace NamedConstants

open Token

section Digits

theorem isDigits_toDigits (n : Nat) : IsDigits (Nat.toDigits 10 n) := by
  refine ⟨Nat.toDigits_ne_nil, ?_⟩
  intro c hc
  have hdigit := Nat.isDigit_of_mem_toDigits (by decide) (by decide) hc
  simpa [Char.isDigit, isDigit, Char.le_def] using hdigit

theorem exists_nonzero_digit {n : Nat} (h : 0 < n) : ∃ c ∈ Nat.toDigits 10 n, c ≠ '0' := by
  induction n using Nat.strongRecOn with
  | ind n ih =>
    rw [Nat.toDigits_eq_if (by decide)]
    by_cases hsmall : n < 10
    · rw [if_pos hsmall]
      refine ⟨_, List.mem_singleton_self _, ?_⟩
      interval_cases n <;> decide
    · rw [if_neg hsmall]
      obtain ⟨c, hc, hne⟩ := ih (n / 10) (by omega) (by omega)
      exact ⟨c, List.mem_append_left _ hc, hne⟩

namespace Decimal

theorem mem_of_mem_significantDigits {d : Decimal} {c : Char} (h : c ∈ d.significantDigits) :
    c ∈ d.digits := by
  rw [significantDigits, List.mem_reverse] at h
  exact List.mem_reverse.1 ((List.dropWhile_sublist _).mem h)

/-- A positive decimal has a digit that is not a zero at its end. -/
theorem isDigits_significantDigits {d : Decimal} (h : 0 < d.coefficient) :
    IsDigits d.significantDigits := by
  refine ⟨?_, fun c hc => (isDigits_toDigits _).2 c (mem_of_mem_significantDigits hc)⟩
  obtain ⟨c, hc, hne⟩ := exists_nonzero_digit h
  intro hnil
  rw [significantDigits, List.reverse_eq_nil_iff, List.dropWhile_eq_nil_iff] at hnil
  exact hne (by simpa using hnil c (List.mem_reverse.2 hc))

end Decimal

end Digits

section Layouts

variable {digits : List Char}

theorem forall_mem_replicate_zero (n : Nat) : ∀ c ∈ List.replicate n '0', isDigit c = true := by
  intro c hc
  rw [List.eq_of_mem_replicate hc]
  decide

theorem Token.IsDigits.append (h : IsDigits digits) {more : List Char}
    (hmore : ∀ c ∈ more, isDigit c = true) : IsDigits (digits ++ more) :=
  ⟨by simp [h.1], List.forall_mem_append.2 ⟨h.2, hmore⟩⟩

theorem Token.IsDigits.prepend (h : IsDigits digits) {more : List Char}
    (hmore : ∀ c ∈ more, isDigit c = true) : IsDigits (more ++ digits) :=
  ⟨by simp [h.1], List.forall_mem_append.2 ⟨hmore, h.2⟩⟩

theorem exists_isExponent (e : Int) (n : Nat) :
    ∃ v, IsExponent v ('e' :: (if e < 0 then '-' else '+') :: Nat.toDigits 10 n) := by
  by_cases he : e < 0
  · rw [if_pos he]
    exact ⟨_, .negative (Or.inl rfl) (isDigits_toDigits n)⟩
  · rw [if_neg he]
    exact ⟨_, .positive (Or.inl rfl) (isDigits_toDigits n)⟩

/-- The text of a positive decimal is a numeral. -/
theorem exists_isNumeral_text {d : Decimal} (h : 0 < d.coefficient) :
    ∃ v, IsNumeral v d.text.toList := by
  have hdigits := Decimal.isDigits_significantDigits h
  unfold Decimal.text
  simp only [String.toList_ofList]
  split_ifs with hscientific hsmall hwhole
  · obtain ⟨e, hexponent⟩ := exists_isExponent (d.pointPosition - 1)
      (d.pointPosition - 1).natAbs
    cases hcases : d.significantDigits with
    | nil => exact absurd hcases hdigits.1
    | cons first rest =>
      rw [hcases] at hdigits
      cases rest with
      | nil => exact ⟨_, .whole hdigits hexponent⟩
      | cons second rest =>
        obtain ⟨hfirst, hrest⟩ := List.forall_mem_cons.1 hdigits.2
        have hnumeral : IsNumeral _ ([first] ++ '.' :: ((second :: rest) ++ _)) :=
          .fractional (by simpa using hfirst) ⟨by simp, hrest⟩ hexponent
        exact ⟨_, hnumeral⟩
  · have hdecimals := hdigits.prepend (forall_mem_replicate_zero (-d.pointPosition).toNat)
    have hnumeral : IsNumeral _ (['0'] ++ '.' :: (_ ++ [])) :=
      .fractional (forall_mem_replicate_zero 1) hdecimals .absent
    rw [List.append_nil] at hnumeral
    exact ⟨_, hnumeral⟩
  · have hall := hdigits.append (forall_mem_replicate_zero
      (d.pointPosition - d.significantDigits.length).toNat)
    have hnumeral := IsNumeral.whole hall .absent
    rw [List.append_nil] at hnumeral
    exact ⟨_, hnumeral⟩
  · have htake : ∀ c ∈ d.significantDigits.take d.pointPosition.toNat, isDigit c = true :=
      fun c hc => hdigits.2 c (List.mem_of_mem_take hc)
    have hdrop : IsDigits (d.significantDigits.drop d.pointPosition.toNat) := by
      refine ⟨?_, fun c hc => hdigits.2 c (List.mem_of_mem_drop hc)⟩
      rw [ne_eq, List.drop_eq_nil_iff]
      omega
    have hnumeral := IsNumeral.fractional htake hdrop .absent
    rw [List.append_nil] at hnumeral
    exact ⟨_, hnumeral⟩

end Layouts

section Shortest

theorem Binary.toDecimal_coefficient_pos {b : Binary} (h : 0 < b.significand) :
    0 < b.toDecimal.coefficient := by
  unfold toDecimal
  split
  · exact Nat.mul_pos h (Nat.pow_pos (by decide))
  · exact Nat.mul_pos h (Nat.pow_pos (by decide))

namespace RoundingInterval

variable {i : RoundingInterval}

theorem lower_le_of_contains {n : Nat} (h : i.Contains n) : i.lower ≤ n := by
  unfold Contains at h
  split at h <;> omega

theorem contains_of_pick? {step n : Nat} (h : i.pick? step = some n) : i.Contains n := by
  unfold pick? at h
  dsimp only at h
  split_ifs at h <;> cases h <;> assumption

/-- An interval that stays away from zero has no pick that is zero. -/
theorem coarsest_pos (hlower : 0 < i.lower) (hvalue : 0 < i.value) (s : Nat) :
    0 < i.coarsest s := by
  induction s with
  | zero => exact hvalue
  | succ s ih =>
    unfold coarsest
    cases hpick : i.pick? (Nat.pow 10 (s + 1)) with
    | none => exact ih
    | some n => exact hlower.trans_le (lower_le_of_contains (contains_of_pick? hpick))

end RoundingInterval

theorem shortestDecimal_coefficient_pos {x : Float} (h : 0 < (Binary.ofFloat x).significand) :
    0 < (shortestDecimal x).coefficient := by
  refine RoundingInterval.coarsest_pos (Binary.toDecimal_coefficient_pos ?_)
    (Binary.toDecimal_coefficient_pos ?_) _
  · dsimp only
    split <;> omega
  · dsimp only
    omega

end Shortest

section Doubles

variable {x : Float}

/-- Only the two zeros have the significand zero. -/
theorem significand_pos (hzero : (x == 0) = false) : 0 < (Binary.ofFloat x).significand := by
  by_contra hnone
  have hsignificand : (Binary.ofFloat x).significand = 0 := by omega
  have hbits : x.toBits.toNat = (0 : Float).toBits.toNat ∨
      x.toBits.toNat = (-0 : Float).toBits.toNat := by
    have hpositive : (0 : Float).toBits.toNat = 0 := by decide +kernel
    have hnegative : (-0 : Float).toBits.toNat = 2 ^ 63 := by decide +kernel
    have hlt := x.toBits.toNat_lt
    rw [hpositive, hnegative]
    unfold Binary.ofFloat at hsignificand
    dsimp only [Binary.hiddenBit, Nat.pow_eq] at hsignificand
    split at hsignificand <;> dsimp only at hsignificand <;> omega
  rw [← Bool.not_eq_true, Float.beq_iff_ne_nan_and_eq] at hzero
  rcases hbits with hbits | hbits
  · rw [UInt64.toNat_inj, Float.toBits_inj] at hbits
    subst hbits
    exact hzero (by decide +kernel)
  · rw [UInt64.toNat_inj, Float.toBits_inj] at hbits
    subst hbits
    exact hzero (by decide +kernel)

theorem not_isNaN_of_isFinite (h : x.isFinite = true) : x.isNaN = false ∧ x.isInf = false := by
  rcases float_cases x with hx | ⟨sign, m, q, hm, hx⟩
  · revert h
    revert x
    decide +kernel
  · change x.toModel.unpack.isNaN = false ∧ x.toModel.unpack.isInf = false
    rw [hx]
    exact ⟨rfl, rfl⟩

theorem isFinite_of_isFinite_neg (h : (-x).isFinite = true) : x.isFinite = true := by
  rcases float_cases x with hx | ⟨sign, m, q, hm, hx⟩
  · revert h
    revert x
    decide +kernel
  · change x.toModel.unpack.isFinite = true
    rw [hx]
    rfl

/-- Finite doubles but the zeros are written as a numeral with a sign. -/
theorem toList_numberText (hfinite : x.isFinite = true) (hzero : (x == 0) = false) :
    ∃ v word, IsNumeral v word ∧
      (numberText x).toList = if isNegative x then '-' :: word else word := by
  obtain ⟨hnan, hinf⟩ := not_isNaN_of_isFinite hfinite
  obtain ⟨v, hv⟩ := exists_isNumeral_text (shortestDecimal_coefficient_pos (significand_pos hzero))
  refine ⟨v, _, hv, ?_⟩
  unfold numberText
  simp only [hnan, hinf, hzero, Bool.false_eq_true, if_false]
  cases isNegative x <;> simp

end Doubles

end NamedConstants
