import Mathlib
import ComplexScript.Double.Exact
set_option autoImplicit false

/-!
# A double is known by its view

The view of a double has all its bits but the payload of what is no number, and of that there is one
double only: no two doubles have the same view (`view_injective`).  Nor have two doubles the same
negation (`neg_injective`).
-/

namespace ComplexScript.Double

open Float.Model
open Float.Model.UnpackedFloat

variable {x y : Float}

/-! ## Views -/

/-- The view by the three fields of a double. -/
def viewFields (negative : Bool) (biased fraction : Nat) : View :=
  if biased = 2047 then
    if fraction = 0 then .infinite negative else .nan
  else if biased = 0 then .finite negative fraction leastExponent
  else .finite negative (fraction + hiddenBit) (leastExponent + ((biased : Int) - 1))

theorem viewBits_eq (bits : Nat) :
    viewBits bits = viewFields (bits / Nat.pow 2 63 % 2 == 1) (bits / Nat.pow 2 52 % Nat.pow 2 11)
      (bits % Nat.pow 2 52) := rfl

/-- The fields of a number are known by its view. -/
theorem viewFields_injective {s s' : Bool} {b b' f f' : Nat} (small : f < hiddenBit)
    (small' : f' < hiddenBit) (isNumber : viewFields s b f ≠ .nan)
    (same : viewFields s b f = viewFields s' b' f') : s = s' ∧ b = b' ∧ f = f' := by
  unfold viewFields at isNumber same
  split_ifs at isNumber same
  -- both infinite
  · cases same
    exact ⟨rfl, by omega, by omega⟩
  · exact absurd rfl isNumber
  -- both subnormal
  · cases same
    exact ⟨rfl, by omega, rfl⟩
  · rw [View.finite.injEq] at same
    omega
  · rw [View.finite.injEq] at same
    omega
  -- both normal
  · rw [View.finite.injEq] at same
    exact ⟨same.1, by omega, by omega⟩

/-- A number is put together from the fields that its view is made of. -/
theorem eq_of_viewBits_eq {a b : Nat} (small : a < 2 ^ 64) (small' : b < 2 ^ 64)
    (isNumber : viewBits a ≠ .nan) (same : viewBits a = viewBits b) : a = b := by
  have fraction (n : Nat) : n % Nat.pow 2 52 < hiddenBit := Nat.mod_lt n (by decide)
  obtain ⟨signs, exponents, fractions⟩ :=
    viewFields_injective (fraction a) (fraction b) isNumber same
  rw [Bool.eq_iff_iff, beq_iff_eq, beq_iff_eq] at signs
  simp only [Nat.pow_eq] at signs exponents fractions
  omega

/-- Only what is no number has no view. -/
theorem isNaN_of_view (h : view x = .nan) : x.isNaN = true := by
  let bits : BitVec Format.binary64.numBits := x.toBits.toBitVec
  have exponent : (unpackExponent bits).toNat = x.toBits.toNat / 2 ^ 52 % 2 ^ 11 := by
    rw [unpackExponent_def, BitVec.extractLsb'_toNat, Nat.shiftRight_eq_div_pow]
    rfl
  have fraction : (unpackMantissa bits).toNat = x.toBits.toNat % 2 ^ 52 := by
    rw [unpackMantissa_def, BitVec.extractLsb'_toNat]
    rfl
  have fields : x.toBits.toNat / 2 ^ 52 % 2 ^ 11 = 2047 ∧ x.toBits.toNat % 2 ^ 52 ≠ 0 := by
    rw [view, viewBits_eq] at h
    unfold viewFields at h
    split_ifs at h with highest none
    exact ⟨highest, none⟩
  show (UnpackedFloat.unpack Format.binary64 bits).isNaN = true
  rw [UnpackedFloat.unpack, if_pos, if_neg]
  · rfl
  · intro none
    rw [none] at fraction
    exact fields.2 fraction.symm
  · exact BitVec.eq_of_toNat_eq (exponent.trans fields.1)

theorem view_injective (same : view x = view y) : x = y := by
  by_cases isNumber : view x = .nan
  · have isNaN := isNaN_of_view isNumber
    have isNaN' := isNaN_of_view (same ▸ isNumber)
    rw [Float.isNaN_eq_decide_eq_nan, decide_eq_true_iff] at isNaN isNaN'
    rw [isNaN, isNaN']
  · have bits := eq_of_viewBits_eq x.toBits.toNat_lt y.toBits.toNat_lt isNumber same
    exact Float.toBits_inj.mp (UInt64.toNat_inj.mp bits)

/-! ## What doubles unpack to -/

theorem unpack_injective (same : x.toModel.unpack = y.toModel.unpack) : x = y :=
  Float.toBits_inj.mp (UInt64.toBitVec_inj.mp
    ((unpack_inj_of_valid x.toModel.valid y.toModel.valid).mp same))

/-! ## Negation -/

/-- What was unpacked is packed without loss. -/
theorem unpack_pack_unpack (b : BitVec Format.binary64.numBits) :
    UnpackedFloat.unpack Format.binary64
        (UnpackedFloat.pack Format.binary64 (UnpackedFloat.unpack Format.binary64 b)) =
      UnpackedFloat.unpack Format.binary64 b := by
  rw [pack_unpack]
  split
  · next isNaN =>
    obtain ⟨exponent, mantissa⟩ := of_decide_eq_true isNaN
    rw [unpack_packedNaN, UnpackedFloat.unpack, if_pos exponent, if_neg mantissa]
  · rfl

/-- Negation changes the sign bit. -/
theorem neg_unpack (b : BitVec Format.binary64.numBits) :
    (UnpackedFloat.unpack Format.binary64 b).neg =
      UnpackedFloat.unpack Format.binary64 (packComponents Format.binary64
        (-Sign.ofBitVec (unpackSign b)) (unpackExponent b) (unpackMantissa b)) := by
  simp only [UnpackedFloat.unpack, unpackMantissa_packComponents, unpackExponent_packComponents,
    unpackSign_packComponents, Sign.ofBitVec_toBitVec]
  split
  · split <;> rfl
  · split
    · split <;> rfl
    · rfl

theorem unpack_neg (x : Float) : (-x).toModel.unpack = x.toModel.unpack.neg := by
  show UnpackedFloat.unpack Format.binary64
    (UnpackedFloat.pack Format.binary64 x.toModel.unpack.neg) = x.toModel.unpack.neg
  rw [Float.Model.unpack, neg_unpack, unpack_pack_unpack]

theorem neg_neg_unpacked (u : UnpackedFloat) : u.neg.neg = u := by
  rcases u with (_ | _) | _ | (_ | _) | ⟨_ | _, m, e, positive⟩ <;> rfl

/-- Two doubles with the same negation are the same. -/
theorem neg_injective (same : -x = -y) : x = y := by
  have negated : x.toModel.unpack.neg = y.toModel.unpack.neg := by
    rw [← unpack_neg, ← unpack_neg, same]
  refine unpack_injective ?_
  rw [← neg_neg_unpacked x.toModel.unpack, negated, neg_neg_unpacked]

end ComplexScript.Double
