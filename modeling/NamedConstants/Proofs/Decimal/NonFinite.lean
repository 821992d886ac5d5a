import NamedConstants.Proofs.Decimal.Signs

/-!
Arithmetic on all doubles, whatever they stand for. What is not a finite number spreads: a sum,
a difference or a product of doubles is finite only if both operands are, and a quotient by a
finite divisor only if the dividend is. Besides, factors can be swapped, and subtracting is the
same as adding the product with minus one, bit for bit.
-/
namespace NamedConstants

open Float.Model

section Unpacked

variable {u v : UnpackedFloat}

theorem isFinite_of_isFinite_pack (h : (Float.Model.pack u).unpack.isFinite = true) :
    u.isFinite = true := by
  cases u with
  | notANumber => cases h
  | infinity sign => cases sign <;> cases h
  | zero sign => rfl
  | finite sign m q hm => rfl

theorem isFinite_of_add_unpacked (h : (UnpackedFloat.add Format.binary64 u v).isFinite = true) :
    u.isFinite = true ∧ v.isFinite = true := by
  cases u with
  | notANumber => cases v <;> cases h
  | infinity sign =>
    cases v with
    | infinity sign' => cases sign <;> cases sign' <;> cases h
    | notANumber | zero | finite => cases h
  | zero sign =>
    cases v with
    | notANumber | infinity => cases h
    | zero | finite => exact ⟨rfl, rfl⟩
  | finite sign m q hm =>
    cases v with
    | notANumber | infinity => cases h
    | zero | finite => exact ⟨rfl, rfl⟩

theorem isFinite_of_mul_unpacked (h : (UnpackedFloat.mul Format.binary64 u v).isFinite = true) :
    u.isFinite = true ∧ v.isFinite = true := by
  cases u with
  | notANumber => cases v <;> cases h
  | infinity sign => cases v <;> cases h
  | zero sign =>
    cases v with
    | notANumber | infinity => cases h
    | zero | finite => exact ⟨rfl, rfl⟩
  | finite sign m q hm =>
    cases v with
    | notANumber | infinity => cases h
    | zero | finite => exact ⟨rfl, rfl⟩

theorem isFinite_of_div_unpacked (h : (UnpackedFloat.div Format.binary64 u v).isFinite = true)
    (hv : v.isFinite = true) : u.isFinite = true := by
  cases u with
  | notANumber => cases v <;> cases h
  | infinity sign =>
    cases v with
    | notANumber | infinity => cases hv
    | zero | finite => cases h
  | zero sign => rfl
  | finite sign m q hm => rfl

theorem mul_unpacked_comm (u v : UnpackedFloat) :
    UnpackedFloat.mul Format.binary64 u v = UnpackedFloat.mul Format.binary64 v u := by
  have hsign (s t : UnpackedFloat.Sign) : s * t = t * s := by cases s <;> cases t <;> rfl
  cases u <;> cases v <;> simp only [UnpackedFloat.mul, hsign, Nat.mul_comm, Int.add_comm]

/-- Subtracting is adding the negation, also at the zeros and the infinities. -/
theorem sub_unpacked_eq_add_neg (u v : UnpackedFloat) :
    UnpackedFloat.sub Format.binary64 u v = UnpackedFloat.add Format.binary64 u v.neg := by
  have happly (s : UnpackedFloat.Sign) (n : Int) : (-s).apply n = -s.apply n := by
    cases s with
    | negative => exact (Int.neg_neg n).symm
    | positive => rfl
  cases u with
  | notANumber => rfl
  | infinity s =>
    cases v with
    | infinity t => cases s <;> cases t <;> rfl
    | notANumber | zero | finite => rfl
  | zero s =>
    cases v with
    | zero t => cases s <;> cases t <;> rfl
    | notANumber | infinity | finite => rfl
  | finite s m q hm =>
    cases v with
    | finite t n r hn =>
      simp only [UnpackedFloat.sub, UnpackedFloat.add, UnpackedFloat.neg, happly,
        Int.sub_eq_add_neg]
    | notANumber | infinity | zero => rfl

end Unpacked

section Doubles

variable {x y : Float}

theorem isFinite_of_add (h : (x + y).isFinite = true) : x.isFinite = true ∧ y.isFinite = true :=
  isFinite_of_add_unpacked (isFinite_of_isFinite_pack h)

theorem isFinite_of_mul (h : (x * y).isFinite = true) : x.isFinite = true ∧ y.isFinite = true :=
  isFinite_of_mul_unpacked (isFinite_of_isFinite_pack h)

theorem isFinite_of_div (h : (x / y).isFinite = true) (hy : y.isFinite = true) :
    x.isFinite = true :=
  isFinite_of_div_unpacked (isFinite_of_isFinite_pack h) hy

theorem mul_comm_float (x y : Float) : x * y = y * x :=
  congrArg (fun u => Float.ofModel (Float.Model.pack u)) (mul_unpacked_comm _ _)

theorem one_mul_float (x : Float) : 1 * x = x := by
  rcases float_cases x with hx | ⟨sign, m, q, hm, hx⟩
  · revert x
    decide +kernel
  · exact one_mul_of_finite hx

theorem neg_one_mul_float (x : Float) : -1 * x = -x := by
  rcases float_cases x with hx | ⟨sign, m, q, hm, hx⟩
  · revert x
    decide +kernel
  · exact neg_one_mul_of_finite hx

theorem unpack_neg_float (x : Float) : (-x).toModel.unpack = x.toModel.unpack.neg := by
  rcases float_cases x with hx | ⟨sign, m, q, hm, hx⟩
  · simp only [List.mem_cons, List.not_mem_nil, or_false] at hx
    rcases hx with rfl | rfl | rfl | rfl | rfl <;> rfl
  · rw [unpack_neg hx, hx]
    rfl

/-- Adding a number times minus one is subtracting it. -/
theorem add_neg_one_mul (x y : Float) : x + -1 * y = x - y := by
  have hsum : x + -y = Float.ofModel (Float.Model.pack (UnpackedFloat.add Format.binary64
    x.toModel.unpack (-y).toModel.unpack)) := rfl
  rw [neg_one_mul_float, hsum, unpack_neg_float, ← sub_unpacked_eq_add_neg]
  rfl

end Doubles

end NamedConstants
