import NamedConstants.Decimal.Binary
import NamedConstants.Proofs.Decimal.Doubles

/-!
Signs of finite doubles. The sign is a bit of its own: turning it leaves the significand and
the exponent as they are. So a double is its absolute value times one or minus one, and such
a product is not rounded, since it has the digits of its other factor.
-/
namespace NamedConstants

open Float.Model

theorem toModel_pack_unpack (u : UnpackedFloat) :
    (Float.Model.pack u).unpack =
      UnpackedFloat.unpack Format.binary64 (UnpackedFloat.pack Format.binary64 u) := rfl

section Fields

variable {spec : Format} {s s' : UnpackedFloat.Sign} {m : Nat} {q : Int} {hm : 0 < m}

/-- The sign has its own bit in the packed form. -/
theorem exists_pack_finite (spec : Format) (m : Nat) (q : Int) (hm : 0 < m) :
    ∃ exponent mantissa, ∀ s, UnpackedFloat.pack spec (.finite s m q hm) =
      UnpackedFloat.packComponents spec s exponent mantissa := by
  unfold UnpackedFloat.pack
  dsimp only
  split_ifs
  · exact ⟨_, _, fun s => rfl⟩
  · exact ⟨_, _, fun s => rfl⟩
  · exact ⟨_, _, fun s => rfl⟩

theorem unpack_packComponents_of_sign {exponent : BitVec spec.exponentBits}
    {mantissa : BitVec spec.mantissaBitsWithoutImplicit}
    (h : UnpackedFloat.unpack spec (UnpackedFloat.packComponents spec s exponent mantissa) =
      .finite s m q hm) :
    UnpackedFloat.unpack spec (UnpackedFloat.packComponents spec s' exponent mantissa) =
      .finite s' m q hm := by
  simp only [UnpackedFloat.unpack, UnpackedFloat.unpackMantissa_packComponents,
    UnpackedFloat.unpackExponent_packComponents, UnpackedFloat.unpackSign_packComponents,
    UnpackedFloat.Sign.ofBitVec_toBitVec] at h ⊢
  split_ifs at h ⊢ <;> cases h <;> rfl

end Fields

section Finite

variable {x : Float} {s : UnpackedFloat.Sign} {m : Nat} {q : Int} {hm : 0 < m}

theorem unpack_pack_of_sign (hx : x.toModel.unpack = .finite s m q hm) (s' : UnpackedFloat.Sign) :
    (Float.Model.pack (.finite s' m q hm)).unpack = .finite s' m q hm := by
  obtain ⟨exponent, mantissa, hpack⟩ := exists_pack_finite Format.binary64 m q hm
  have hself : (Float.Model.pack (.finite s m q hm)).unpack = .finite s m q hm := by
    rw [← hx, pack_unpack]
  rw [toModel_pack_unpack, hpack] at hself ⊢
  exact unpack_packComponents_of_sign hself

theorem unpack_neg (hx : x.toModel.unpack = .finite s m q hm) :
    (-x).toModel.unpack = .finite (-s) m q hm := by
  have hneg : (-x).toModel = Float.Model.pack (UnpackedFloat.neg x.toModel.unpack) := rfl
  rw [hneg, hx]
  exact unpack_pack_of_sign hx (-s)

theorem unpack_abs (hx : x.toModel.unpack = .finite s m q hm) :
    x.abs.toModel.unpack = .finite .positive m q hm := by
  have habs : x.abs.toModel = Float.Model.pack (UnpackedFloat.abs x.toModel.unpack) := rfl
  rw [habs, hx]
  exact unpack_pack_of_sign hx .positive

theorem lt_zero_iff (hx : x.toModel.unpack = .finite s m q hm) : x < 0 ↔ s = .negative := by
  have hlt : x.lt 0 = UnpackedFloat.lt x.toModel.unpack (0 : Float).toModel.unpack := by
    unfold Float.lt
    exact Bool.decide_coe _
  have hzero : (0 : Float).toModel.unpack = .zero .positive := rfl
  change x.lt 0 = true ↔ s = .negative
  rw [hlt, hx, hzero]
  cases s with
  | negative => exact ⟨fun _ => rfl, fun _ => rfl⟩
  | positive => exact ⟨fun h => Bool.noConfusion h, nofun⟩

theorem toNat_one_append (fraction : BitVec 52) :
    (1#1 ++ fraction).toNat = 2 ^ 52 + fraction.toNat := by
  rw [BitVec.toNat_append]
  exact (Nat.two_pow_add_eq_or_of_lt fraction.isLt 1).symm

theorem ofBitVec_eq_negative_iff (sign : BitVec 1) :
    UnpackedFloat.Sign.ofBitVec sign = .negative ↔ sign.toNat = 1 := by
  have hcases : sign = 0#1 ∨ sign = 1#1 := by
    revert sign
    decide
  rcases hcases with rfl | rfl
  · exact ⟨nofun, nofun⟩
  · exact ⟨fun _ => rfl, fun _ => rfl⟩

/-- The significand, the exponent and the sign of a finite double are read off its bits. -/
theorem fields_of_unpack (hx : x.toModel.unpack = .finite s m q hm) :
    (x.toBits.toNat / 2 ^ 52 % 2 ^ 11 = 0 ∧ m = x.toBits.toNat % 2 ^ 52 ∧ q = -1074 ∨
      x.toBits.toNat / 2 ^ 52 % 2 ^ 11 ≠ 0 ∧ m = 2 ^ 52 + x.toBits.toNat % 2 ^ 52 ∧
        q = ((x.toBits.toNat / 2 ^ 52 % 2 ^ 11 : Nat) : Int) - 1075) ∧
      (s = .negative ↔ x.toBits.toNat / 2 ^ 63 % 2 = 1) := by
  have hunpack : x.toModel.unpack = UnpackedFloat.unpack Format.binary64 x.toBits.toBitVec := rfl
  have hmantissa :
      (@UnpackedFloat.unpackMantissa Format.binary64 x.toBits.toBitVec).toNat =
        x.toBits.toNat % 2 ^ 52 := by
    rw [UnpackedFloat.unpackMantissa_def, BitVec.extractLsb'_toNat, Nat.shiftRight_zero]
    rfl
  have hexponent :
      (@UnpackedFloat.unpackExponent Format.binary64 x.toBits.toBitVec).toNat =
        x.toBits.toNat / 2 ^ 52 % 2 ^ 11 := by
    rw [UnpackedFloat.unpackExponent_def, BitVec.extractLsb'_toNat, Nat.shiftRight_eq_div_pow]
    rfl
  have hsign :
      (@UnpackedFloat.unpackSign Format.binary64 x.toBits.toBitVec).toNat =
        x.toBits.toNat / 2 ^ 63 % 2 := by
    rw [UnpackedFloat.unpackSign_def, BitVec.extractLsb'_toNat, Nat.shiftRight_eq_div_pow]
    rfl
  have hbias : (Format.binary64.exponentBias : Int) = 1023 := rfl
  rw [hunpack] at hx
  rw [← hmantissa, ← hexponent, ← hsign, ← ofBitVec_eq_negative_iff]
  simp only [UnpackedFloat.unpack] at hx
  split_ifs at hx with hspecial hfraction hzero
  · -- a subnormal double
    cases hx
    refine ⟨Or.inl ⟨?_, rfl, ?_⟩, Iff.rfl⟩
    · rw [hzero]
      rfl
    · rw [hzero, hbias]
      rfl
  · cases hx
    refine ⟨Or.inr ⟨?_, toNat_one_append _, ?_⟩, Iff.rfl⟩
    · exact fun h => hzero (BitVec.eq_of_toNat_eq h)
    · rw [hbias]
      omega

/-- The absolute value that the reading of the bits finds. -/
theorem ofFloat_eq (hx : x.toModel.unpack = .finite s m q hm) : Binary.ofFloat x = ⟨m, q⟩ := by
  have hfields := (fields_of_unpack hx).1
  unfold Binary.ofFloat
  dsimp only [Binary.hiddenBit, Binary.leastExponent, Nat.pow_eq]
  rcases hfields with ⟨hbiased, hm, hq⟩ | ⟨hbiased, hm, hq⟩
  · rw [if_pos hbiased, hm, hq]
  · rw [if_neg hbiased, hm, hq]

theorem isNegative_eq_false (hx : x.toModel.unpack = .finite .positive m q hm) :
    isNegative x = false := by
  have hsign := (fields_of_unpack hx).2
  unfold isNegative
  rw [Nat.testBit_eq_decide_div_mod_eq, decide_eq_false_iff_not, ← hsign]
  nofun

theorem bounds_of_unpack (hx : x.toModel.unpack = .finite s m q hm) :
    m < 2 ^ 53 ∧ -1074 ≤ q ∧ (q = -1074 ∨ 2 ^ 52 ≤ m) := by
  rcases (fields_of_unpack hx).1 with ⟨-, hm, hq⟩ | ⟨hbiased, hm, hq⟩
  · omega
  · omega

/-- A finite double has the exponent that rounding aims at. -/
theorem targetExponent_of_unpack (hx : x.toModel.unpack = .finite s m q hm) :
    Format.binary64.targetExponent (totalExponent m q) = q := by
  obtain ⟨hlt, hle, hcase⟩ := bounds_of_unpack hx
  have hlog : m.log2 < 53 := (Nat.log2_lt hm.ne').2 hlt
  have hnormal : 2 ^ 52 ≤ m → 52 ≤ m.log2 := (Nat.le_log2 hm.ne').2
  simp only [Format.targetExponent, totalExponent, Format.mantissaBits, Format.minExponent]
  rcases hcase with hsubnormal | hlarge
  · omega
  · have hle := hnormal hlarge
    omega

end Finite

section Rounding

open UnpackedFloat

/-- Zeros that are shifted out at the right end leave no trace. -/
theorem shift_scaled (m k : Nat) :
    (ExtendedMantissa.mk (m * 2 ^ k) false false) >>> k = ExtendedMantissa.mk m false false := by
  induction k generalizing m with
  | zero =>
    rw [Nat.pow_zero, Nat.mul_one]
    rfl
  | succ k ih =>
    have hscaled : m * 2 ^ (k + 1) = 2 * m * 2 ^ k := by ring
    change (ExtendedMantissa.mk (m * 2 ^ (k + 1)) false false >>> k).shiftRightOne = _
    rw [hscaled, ih]
    simp [ExtendedMantissa.shiftRightOne]

theorem log2_scaled {m : Nat} (hm : 0 < m) (k : Nat) : (m * 2 ^ k).log2 = m.log2 + k := by
  have hpos : 0 < m * 2 ^ k := Nat.mul_pos hm (Nat.two_pow_pos k)
  rw [Nat.log2_eq_iff hpos.ne']
  constructor
  · rw [Nat.pow_add]
    exact Nat.mul_le_mul_right _ (Nat.log2_self_le hm.ne')
  · rw [Nat.add_right_comm, Nat.pow_add]
    exact Nat.mul_lt_mul_of_pos_right Nat.lt_log2_self (Nat.two_pow_pos k)

/-- Rounding takes away a scale that was put on the digits of a double. -/
theorem roundWithAccuracy_scaled {m : Nat} {q : Int} (hm : 0 < m)
    (htarget : Format.binary64.targetExponent (totalExponent m q) = q) (s : Sign) (k : Nat) :
    roundWithAccuracy Format.binary64 s (m * 2 ^ k) (q - k) .exact = .finite s m q hm := by
  have hshift (n : Nat) : shiftToTargetExponent Format.binary64 (m * 2 ^ n) (q - n) .exact =
      (ExtendedMantissa.mk m false false, q) := by
    have htotal : totalExponent (m * 2 ^ n) (q - n) = totalExponent m q := by
      simp only [totalExponent, log2_scaled hm]
      omega
    have hamount : (q - (q - n)).toNat = n := by omega
    simp only [shiftToTargetExponent, shiftToExponent, htotal, htarget, hamount,
      ExtendedMantissa.ofMantissaAndAccuracy, shift_scaled]
    congr 1
    omega
  have hagain : shiftToTargetExponent Format.binary64 m q .exact =
      (ExtendedMantissa.mk m false false, q) := by simpa using hshift 0
  have hrounded : (ExtendedMantissa.mk m false false).roundedMantissa = m := rfl
  unfold roundWithAccuracy
  simp only [hshift k, hrounded, hagain, hm.ne', dite_false]

end Rounding

section Products

variable {x : Float} {s : UnpackedFloat.Sign} {m : Nat} {q : Int} {hm : 0 < m}

/-- A product of which one factor is one or minus one. -/
theorem mul_unit_unpack (hx : x.toModel.unpack = .finite s m q hm) (t : UnpackedFloat.Sign) :
    UnpackedFloat.mul Format.binary64 (.finite t (2 ^ 52) (-52) (by decide)) x.toModel.unpack =
      .finite (t * s) m q hm := by
  have hscaled := roundWithAccuracy_scaled hm (targetExponent_of_unpack hx) (t * s) 52
  rw [hx]
  change UnpackedFloat.roundWithAccuracy Format.binary64 (t * s) (2 ^ 52 * m) (-52 + q) .exact = _
  rw [Nat.mul_comm, Int.add_comm]
  exact hscaled

theorem one_mul_of_finite (hx : x.toModel.unpack = .finite s m q hm) : 1 * x = x := by
  have hone : (1 : Float).toModel.unpack = .finite .positive (2 ^ 52) (-52) (by decide) := by
    rfl
  have hproduct : (1 * x).toModel = Float.Model.pack
      (UnpackedFloat.mul Format.binary64 (1 : Float).toModel.unpack x.toModel.unpack) := rfl
  have hmodel : (1 * x).toModel = x.toModel := by
    rw [hproduct, hone, mul_unit_unpack hx, ← pack_unpack x.toModel, hx]
    cases s <;> rfl
  exact congrArg Float.ofModel hmodel

theorem neg_one_mul_of_finite (hx : x.toModel.unpack = .finite s m q hm) : -1 * x = -x := by
  have hone : (-1 : Float).toModel.unpack = .finite .negative (2 ^ 52) (-52) (by decide) := by
    rfl
  have hproduct : (-1 * x).toModel = Float.Model.pack
      (UnpackedFloat.mul Format.binary64 (-1 : Float).toModel.unpack x.toModel.unpack) := rfl
  have hmodel : (-1 * x).toModel = (-x).toModel := by
    rw [hproduct, hone, mul_unit_unpack hx, ← pack_unpack (-x).toModel, unpack_neg hx]
    cases s <;> rfl
  exact congrArg Float.ofModel hmodel

theorem neg_neg_of_finite (hx : x.toModel.unpack = .finite s m q hm) : -(-x) = x := by
  refine eq_of_unpack_eq ?_
  rw [unpack_neg (unpack_neg hx), hx]
  cases s <;> rfl

theorem abs_of_lt_zero (hx : x.toModel.unpack = .finite s m q hm) (h : x < 0) : x.abs = -x := by
  rw [lt_zero_iff hx] at h
  subst h
  exact eq_of_unpack_eq ((unpack_abs hx).trans (unpack_neg hx).symm)

theorem abs_of_not_lt_zero (hx : x.toModel.unpack = .finite s m q hm) (h : ¬ x < 0) :
    x.abs = x := by
  rw [lt_zero_iff hx] at h
  cases s with
  | negative => exact absurd rfl h
  | positive => exact eq_of_unpack_eq ((unpack_abs hx).trans hx.symm)

end Products

def IsRegular (x : Float) : Prop := x.isFinite = true ∧ (x == 0) = false

namespace IsRegular

variable {x : Float}

theorem exists_unpack (h : IsRegular x) :
    ∃ sign m q hm, x.toModel.unpack = .finite sign m q hm := by
  rcases float_cases x with hx | hx
  · obtain ⟨hfinite, hzero⟩ := h
    exfalso
    revert hfinite hzero
    revert x
    decide +kernel
  · exact hx

theorem of_unpack {sign : Float.Model.UnpackedFloat.Sign} {m : Nat} {q : Int} {hm : 0 < m}
    (hx : x.toModel.unpack = .finite sign m q hm) : IsRegular x := by
  have hfinite : x.isFinite = x.toModel.unpack.isFinite := rfl
  refine ⟨by rw [hfinite, hx]; rfl, beq_zero_eq_false ?_ ?_⟩
  · rintro rfl
    cases hx
  · rintro rfl
    cases hx

theorem abs (h : IsRegular x) : IsRegular x.abs := by
  obtain ⟨sign, m, q, hm, hx⟩ := h.exists_unpack
  exact of_unpack (unpack_abs hx)

theorem isIntegral_abs (h : IsRegular x) (hintegral : isIntegral x = true) :
    isIntegral x.abs = true := by
  obtain ⟨sign, m, q, hm, hx⟩ := h.exists_unpack
  unfold isIntegral at hintegral ⊢
  rw [ofFloat_eq (unpack_abs hx), ← ofFloat_eq hx, h.abs.1]
  rw [h.1] at hintegral
  exact hintegral

theorem isNegative_abs (h : IsRegular x) : isNegative x.abs = false := by
  obtain ⟨sign, m, q, hm, hx⟩ := h.exists_unpack
  exact isNegative_eq_false (unpack_abs hx)

end IsRegular

def IsSignedZero (x : Float) : Prop := x = 0 ∨ x = -0

section Doubles

variable {x y : Float}

theorem IsSignedZero.mul (hx : IsSignedZero x) (hy : IsRegular y) : IsSignedZero (x * y) := by
  obtain ⟨sign, m, q, hm, hunpack⟩ := hy.exists_unpack
  have hproduct : x * y = Float.ofModel (Float.Model.pack (Float.Model.UnpackedFloat.mul
    Float.Model.Format.binary64 x.toModel.unpack y.toModel.unpack)) := rfl
  rw [hproduct, hunpack]
  rcases hx with rfl | rfl
  · cases sign with
    | positive => exact Or.inl rfl
    | negative => exact Or.inr rfl
  · cases sign with
    | positive => exact Or.inr rfl
    | negative => exact Or.inl rfl

theorem IsSignedZero.add_mul (hx : IsSignedZero x) (hy : IsSignedZero y) {sign : Float}
    (hsign : sign = 1 ∨ sign = -1) : IsSignedZero (x + sign * y) := by
  unfold IsSignedZero
  rcases hx with rfl | rfl <;> rcases hy with rfl | rfl <;> rcases hsign with rfl | rfl <;>
    decide +kernel

theorem IsSignedZero.add_regular (hx : IsSignedZero x) (hy : IsRegular y) : x + y = y := by
  obtain ⟨sign, m, q, hm, hunpack⟩ := hy.exists_unpack
  have hsum : x + y = Float.ofModel (Float.Model.pack (Float.Model.UnpackedFloat.add
    Float.Model.Format.binary64 x.toModel.unpack y.toModel.unpack)) := rfl
  have hself : y = Float.ofModel (Float.Model.pack y.toModel.unpack) := by rw [pack_unpack]
  rw [hsum]
  conv_rhs => rw [hself]
  rw [hunpack]
  rcases hx with rfl | rfl <;> rfl

theorem IsRegular.add_signedZero (hx : IsRegular x) (hy : IsSignedZero y) : x + y = x := by
  obtain ⟨sign, m, q, hm, hunpack⟩ := hx.exists_unpack
  exact add_zero_of_finite hunpack hy

theorem IsRegular.neg_abs (hx : IsRegular x) (hnegative : x < 0) : -x.abs = x := by
  obtain ⟨sign, m, q, hm, hunpack⟩ := hx.exists_unpack
  rw [abs_of_lt_zero hunpack hnegative, neg_neg_of_finite hunpack]

/-- A regular double is its absolute value times one or minus one. -/
theorem IsRegular.sign_mul_abs (hx : IsRegular x) :
    (if x < 0 then -1 else 1) * x.abs = x := by
  obtain ⟨sign, m, q, hm, hunpack⟩ := hx.exists_unpack
  split
  · rename_i hnegative
    rw [abs_of_lt_zero hunpack hnegative, neg_one_mul_of_finite (unpack_neg hunpack),
      neg_neg_of_finite hunpack]
  · rename_i hpositive
    rw [abs_of_not_lt_zero hunpack hpositive, one_mul_of_finite hunpack]

theorem IsRegular.one_mul (hx : IsRegular x) : 1 * x = x := by
  obtain ⟨sign, m, q, hm, hunpack⟩ := hx.exists_unpack
  exact one_mul_of_finite hunpack

end Doubles

end NamedConstants
