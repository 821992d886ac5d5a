import Mathlib

/-!
Doubles by what they stand for: not a number, an infinity, a zero, or a significand with an
exponent. What a double stands for determines it, so what is said of the doubles of the first
three kinds is said of five doubles.
-/
namespace NamedConstants

open Float.Model

theorem pack_unpack (m : Float.Model) : Float.Model.pack m.unpack = m := by
  obtain ⟨bits, hvalid⟩ := m
  have hbits : UnpackedFloat.pack Format.binary64 (UnpackedFloat.unpack Format.binary64
      bits.toBitVec) = bits.toBitVec := UnpackedFloat.pack_unpack_of_valid hvalid
  simp only [Float.Model.pack, Float.Model.unpack, hbits]

/-- What a double stands for determines it. -/
theorem eq_of_unpack_eq {x y : Float} (h : x.toModel.unpack = y.toModel.unpack) : x = y := by
  obtain ⟨m⟩ := x
  obtain ⟨m'⟩ := y
  have heq : m = m' := by rw [← pack_unpack m, ← pack_unpack m', h]
  rw [heq]

/-- The kinds of doubles. -/
theorem float_cases (x : Float) :
    x ∈ [0 / 0, 1 / 0, -(1 / 0), 0, -0] ∨
      ∃ sign m q hm, x.toModel.unpack = .finite sign m q hm := by
  cases hx : x.toModel.unpack with
  | notANumber =>
    have heq : x = 0 / 0 := eq_of_unpack_eq (hx.trans rfl)
    simp [heq]
  | infinity sign =>
    cases sign with
    | positive =>
      have heq : x = 1 / 0 := eq_of_unpack_eq (hx.trans rfl)
      simp [heq]
    | negative =>
      have heq : x = -(1 / 0) := eq_of_unpack_eq (hx.trans rfl)
      simp [heq]
  | zero sign =>
    cases sign with
    | positive =>
      have heq : x = 0 := eq_of_unpack_eq (hx.trans rfl)
      simp [heq]
    | negative =>
      have heq : x = -0 := eq_of_unpack_eq (hx.trans rfl)
      simp [heq]
  | finite sign m q hm => exact Or.inr ⟨sign, m, q, hm, rfl⟩

theorem beq_zero_eq_false {x : Float} (hzero : x ≠ 0) (hnegative : x ≠ -0) : (x == 0) = false := by
  rw [← Bool.not_eq_true, Float.beq_iff_ne_nan_and_eq]
  rintro ⟨-, -, h | ⟨h, -⟩ | ⟨h, -⟩⟩
  · exact hzero h
  · exact hzero h
  · exact hnegative h

/-- Adding a zero of either sign changes nothing that is not a zero itself. -/
theorem add_zero_of_finite {x y : Float} {sign : UnpackedFloat.Sign} {m : Nat} {q : Int}
    {hm : 0 < m} (hx : x.toModel.unpack = .finite sign m q hm) (hy : y = 0 ∨ y = -0) :
    x + y = x := by
  have hsum : UnpackedFloat.add Format.binary64 x.toModel.unpack y.toModel.unpack =
      x.toModel.unpack := by
    rw [hx]
    rcases hy with rfl | rfl <;> cases sign <;> rfl
  have hmodel : (x + y).toModel = x.toModel := by
    rw [← pack_unpack x.toModel]
    exact congrArg Float.Model.pack hsum
  exact congrArg Float.ofModel hmodel

/-- A sum with zero is never the negative zero. -/
theorem add_zero_ne_neg_zero (x : Float) : x + 0 ≠ -0 := by
  rcases float_cases x with hx | ⟨sign, m, q, hm, hx⟩
  · revert x
    decide +kernel
  · rw [add_zero_of_finite hx (Or.inl rfl)]
    rintro rfl
    cases hx

end NamedConstants
