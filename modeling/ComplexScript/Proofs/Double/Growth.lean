import ComplexScript.Proofs.Double.Bits
import ComplexScript.Proofs.Number.Whole
set_option autoImplicit false

/-!
# Doubles that grow beyond all numbers

Rounding does not take a number below a power of two.  So a double that has reached one stays there
when what is added is not negative (`Reaches.add`), and is taken further by a product
(`Reaches.mul`).  No finite double reaches `2 ^ 1024` (`Reaches.isInf`): from there on there is only
one double, an infinity, and there are two of them (`eq_of_isInf`).
-/

namespace ComplexScript.Double

open Float.Model
open Float.Model.UnpackedFloat

variable {m n k s : Nat} {e : Int} {u v : UnpackedFloat}

/-! ## Rounding -/

theorem shiftRight_mantissa (em : ExtendedMantissa) (k : Nat) :
    (em >>> k).mantissa = em.mantissa / 2 ^ k := by
  show (Nat.repeat ExtendedMantissa.shiftRightOne k em).mantissa = _
  induction k with
  | zero => rw [Nat.pow_zero, Nat.div_one]; rfl
  | succ k ih =>
    show (Nat.repeat ExtendedMantissa.shiftRightOne k em).mantissa / 2 = _
    rw [ih, Nat.div_div_eq_div_mul, Nat.pow_succ]

/-- A significand is rounded to itself or to the next one. -/
theorem roundedMantissa_bounds (em : ExtendedMantissa) :
    em.mantissa ≤ em.roundedMantissa ∧ em.roundedMantissa ≤ em.mantissa + 1 := by
  obtain ⟨mantissa, roundBit, stickyBit⟩ := em
  cases roundBit <;> cases stickyBit <;>
    simp [ExtendedMantissa.roundedMantissa, ExtendedMantissa.accuracy, Accuracy.roundToNearestEven]
  omega

/-- At least `2 ^ k`: an infinity, or a significand of 53 bits with its leading bit at place `k` or
above. -/
inductive UpFrom (k : Nat) : UnpackedFloat → Prop where
  | infinity : UpFrom k (.infinity .positive)
  | finite {q i : Nat} (low : 2 ^ 52 ≤ q) (high : q < 2 ^ 53) (place : k ≤ i) (pos : 0 < q) :
    UpFrom k (.finite .positive q (i - 52 : Int) pos)

/-- Rounding keeps the leading bit at its place, or carries it to the next. -/
theorem upFrom_round (wide : 2 ^ 52 ≤ m) (place : (k : Int) ≤ m.log2 + e) :
    UpFrom k (roundWithAccuracy Format.binary64 .positive m e .exact) := by
  have notZero : m ≠ 0 := by omega
  obtain ⟨a, bits⟩ := Nat.exists_eq_add_of_le ((Nat.le_log2 notZero).mpr wide)
  obtain ⟨i, leading⟩ := Int.eq_ofNat_of_zero_le (show 0 ≤ (m.log2 : Int) + e by omega)
  have low : 2 ^ 52 ≤ m / 2 ^ a := by
    rw [Nat.le_div_iff_mul_le (Nat.two_pow_pos a), ← Nat.pow_add, ← bits]
    exact Nat.log2_self_le notZero
  have high : m / 2 ^ a < 2 ^ 53 := by
    have less : m < 2 ^ (52 + a + 1) := bits ▸ Nat.lt_log2_self
    rw [Nat.div_lt_iff_lt_mul (Nat.two_pow_pos a), ← Nat.pow_add]
    rwa [Nat.add_right_comm] at less
  have shifted : shiftToTargetExponent Format.binary64 m e .exact =
      ((⟨m, false, false⟩ : ExtendedMantissa) >>> a, (i : Int) - 52) := by
    have target : Format.binary64.targetExponent (totalExponent m e) = (i : Int) - 52 := by
      rw [totalExponent, Format.targetExponent]
      show max ((m.log2 : Int) + 1 + e - 53) (-1074) = _
      omega
    have amount : ((i : Int) - 52 - e).toNat = a := by omega
    have exponent : e + a = (i : Int) - 52 := by omega
    rw [shiftToTargetExponent, target, shiftToExponent, amount, exponent]
    rfl
  -- what is rounded up to the next power of two is shifted once more
  obtain ⟨q, b, rounded, low, high⟩ : ∃ q b,
      ((⟨m, false, false⟩ : ExtendedMantissa) >>> a).roundedMantissa = q * 2 ^ b ∧ 2 ^ 52 ≤ q ∧
        q < 2 ^ 53 := by
    have shifted : ((⟨m, false, false⟩ : ExtendedMantissa) >>> a).mantissa = m / 2 ^ a :=
      shiftRight_mantissa _ a
    have bounds := roundedMantissa_bounds ((⟨m, false, false⟩ : ExtendedMantissa) >>> a)
    rw [shifted] at bounds
    rcases Nat.lt_or_ge ((⟨m, false, false⟩ : ExtendedMantissa) >>> a).roundedMantissa (2 ^ 53)
      with less | carried
    · exact ⟨_, 0, (Nat.mul_one _).symm, low.trans bounds.1, less⟩
    · exact ⟨2 ^ 52, 1, by omega, Nat.le_refl _, by decide⟩
  have pos : 0 < q := Nat.lt_of_lt_of_le (by decide) low
  have again := shiftToTargetExponent_zeros (e := (i : Int) - 52) (k := b) low high (by omega)
  have exponent : (i : Int) - 52 + b = ((i + b : Nat) : Int) - 52 := by omega
  simp only [roundWithAccuracy, shifted, rounded, again, exponent]
  rw [dif_neg pos.ne']
  exact .finite low high (by omega) pos

/-- A number that has all bits of a significand is rounded from the exponent it has. -/
theorem upFrom_normalize (wide : 2 ^ 52 ≤ m) (place : (k : Int) ≤ m.log2 + e) :
    UpFrom k (UnpackedFloat.normalize Format.binary64 m e .positive) := by
  have bits : 52 ≤ m.log2 := (Nat.le_log2 (by omega)).mpr wide
  have greater : compare (m : Int) 0 = .gt := by
    rw [Int.compare_eq_gt]
    omega
  have target : (e - Format.binary64.targetExponent (totalExponent m e)).toNat = 0 := by
    rw [totalExponent, Format.targetExponent]
    show (e - max ((m.log2 : Int) + 1 + e - 53) (-1074)).toNat = 0
    omega
  rw [UnpackedFloat.normalize, greater]
  simp only [UnpackedFloat.round, decreaseExponent, target, Int.toNat_natCast, Nat.shiftLeft_zero,
    Nat.cast_zero, Int.sub_zero]
  exact upFrom_round wide place

/-! ## Packing -/

/-- A number that is not negative. -/
inductive Nonneg : UnpackedFloat → Prop where
  | zero : Nonneg (.zero .positive)
  | finite {m : Nat} {e : Int} (pos : 0 < m) : Nonneg (.finite .positive m e pos)
  | infinity : Nonneg (.infinity .positive)

theorem UpFrom.nonneg (h : UpFrom k u) : Nonneg u := by
  cases h with
  | infinity => exact .infinity
  | finite _ _ _ pos => exact .finite pos

theorem Whole.nonneg (h : Whole n u) : Nonneg u := by
  cases h with
  | zero => exact .zero
  | leading h => exact .finite h.significand_pos

theorem nonneg_round (e : Int) (accuracy : Accuracy) :
    Nonneg (roundWithAccuracy Format.binary64 .positive m e accuracy) := by
  simp only [roundWithAccuracy]
  split
  · exact .zero
  · exact .finite _

/-- Components are those of a number unless all bits of the exponent are set. -/
theorem nonneg_packComponents {exponent : BitVec 11} (fraction : BitVec 52)
    (below : exponent ≠ -1#11) :
    Nonneg (unpack Format.binary64
      (packComponents Format.binary64 .positive exponent fraction)) := by
  simp only [UnpackedFloat.unpack, unpackMantissa_packComponents, unpackExponent_packComponents,
    unpackSign_packComponents, Sign.ofBitVec_toBitVec]
  rw [if_neg below]
  split
  · split
    · exact .zero
    · exact .finite _
  · exact .finite _

theorem unpack_packedInfinity :
    unpack Format.binary64 (packedInfinity Format.binary64 .positive) = .infinity .positive := by
  rfl

/-- What is packed is not negative if it was not before. -/
theorem Nonneg.unpack_pack (h : Nonneg u) : Nonneg (Float.Model.pack u).unpack := by
  show Nonneg (unpack Format.binary64 (UnpackedFloat.pack Format.binary64 u))
  cases h with
  | zero => exact .zero
  | infinity => exact unpack_packedInfinity ▸ .infinity
  | @finite m e pos =>
    simp only [UnpackedFloat.pack]
    split
    · exact unpack_packedInfinity ▸ .infinity
    · next below =>
      split
      · refine nonneg_packComponents _ fun special => below ?_
        have value := congrArg BitVec.toNat special
        rw [BitVec.toNat_ofNat] at value
        change _ % 2048 = 2047 at value
        show 2048 ≤ _
        omega
      · exact nonneg_packComponents _ (by decide)

theorem UpFrom.pack (h : UpFrom k u) :
    UpFrom k (Float.Model.pack u).unpack ∧
      (1024 ≤ k → (Float.Model.pack u).unpack = .infinity .positive) := by
  cases h with
  | infinity => exact ⟨unpack_packedInfinity ▸ .infinity, fun _ => unpack_packedInfinity⟩
  | @finite q i low high place pos =>
    rcases Nat.lt_or_ge i 1024 with inRange | beyond
    · have exponent : (i : Int) - 52 = ((i + 1022 : Nat) : Int) - 1074 := by omega
      have unpacked := unpack_pack_normal (b := i + 1022) pos low high (by omega)
      rw [← exponent] at unpacked
      change (Float.Model.pack (.finite .positive q (i - 52 : Int) pos)).unpack = _ at unpacked
      refine ⟨?_, fun tooGreat => by omega⟩
      rw [unpacked]
      exact .finite low high place pos
    · have biased : ((i : Int) - 52 + (Format.binary64.exponentBias : Nat) +
          (Format.binary64.mantissaBitsWithoutImplicit : Nat)).toNat = i + 1023 := by
        show ((i : Int) - 52 + (1023 : Nat) + (52 : Nat)).toNat = i + 1023
        omega
      have packed : UnpackedFloat.pack Format.binary64 (.finite .positive q (i - 52 : Int) pos) =
          packedInfinity Format.binary64 .positive := by
        rw [UnpackedFloat.pack, biased, if_pos (by show 2048 ≤ i + 1023 + 1; omega)]
      have unpacked : (Float.Model.pack (.finite .positive q (i - 52 : Int) pos)).unpack =
          .infinity .positive := by
        show unpack Format.binary64 (UnpackedFloat.pack Format.binary64 _) = _
        rw [packed, unpack_packedInfinity]
      exact ⟨unpacked ▸ .infinity, fun _ => unpacked⟩

/-! ## Operations -/

theorem UpFrom.mul (hu : UpFrom k u) (hv : Whole n v) (large : 2 ^ s ≤ n) :
    UpFrom (k + s) (mul Format.binary64 u v) := by
  cases hv with
  | zero => exact absurd (Nat.two_pow_pos s) (by omega)
  | @leading n p j h =>
    cases hu with
    | infinity => exact .infinity
    | @finite q i low high place pos =>
      have bits : s ≤ j := by
        rw [← h.log2_eq]
        exact (Nat.le_log2 h.pos.ne').mpr large
      have product : 2 ^ 52 * 2 ^ 52 ≤ q * p := Nat.mul_le_mul low h.low
      have places : 104 ≤ (q * p).log2 := by
        rw [← Nat.pow_add] at product
        exact (Nat.le_log2 (by omega)).mpr product
      show UpFrom (k + s) (roundWithAccuracy Format.binary64 .positive (q * p)
        ((i - 52 : Int) + (j - 52 : Int)) .exact)
      exact upFrom_round (by omega) (by omega)

theorem UpFrom.add (hu : UpFrom k u) (hv : Nonneg v) : UpFrom k (add Format.binary64 u v) := by
  cases hu with
  | infinity => cases hv <;> exact .infinity
  | @finite q i low high place pos =>
    cases hv with
    | zero => exact .finite low high place pos
    | infinity => exact .infinity
    | @finite p e pos' =>
      obtain ⟨a, amount⟩ := Int.eq_ofNat_of_zero_le
        (show 0 ≤ (i - 52 : Int) - min (i - 52 : Int) e by omega)
      obtain ⟨b, amount'⟩ := Int.eq_ofNat_of_zero_le (show 0 ≤ e - min (i - 52 : Int) e by omega)
      have aligned : 2 ^ (52 + a) ≤ q * 2 ^ a + p * 2 ^ b := by
        rw [Nat.pow_add]
        exact Nat.le_add_right_of_le (Nat.mul_le_mul_right _ low)
      have wide : 2 ^ 52 ≤ q * 2 ^ a + p * 2 ^ b :=
        (Nat.pow_le_pow_right (by decide) (Nat.le_add_right 52 a)).trans aligned
      have bits : 52 + a ≤ (q * 2 ^ a + p * 2 ^ b).log2 := (Nat.le_log2 (by omega)).mpr aligned
      show UpFrom k (UnpackedFloat.normalize Format.binary64
        (((decreaseExponent q _ (min _ _)).1 : Int) + ((decreaseExponent p _ (min _ _)).1 : Int))
        (min _ _) .positive)
      rw [decreaseExponent_fst q a amount, decreaseExponent_fst p b amount', ← Int.natCast_add]
      exact upFrom_normalize wide (by omega)

theorem nonneg_div (hu : Whole n u) (hv : UpFrom k v) : Nonneg (div Format.binary64 u v) := by
  cases hu with
  | zero => cases hv <;> exact .zero
  | leading h =>
    cases hv with
    | infinity => exact .zero
    | finite => exact nonneg_round _ _

/-! ## Doubles that reach a power of two -/

/-- The double is at least `2 ^ k`. -/
def Reaches (x : Float) (k : Nat) : Prop := ∃ u, UpFrom k u ∧ x.toModel = Float.Model.pack u

/-- The double is a number and not negative. -/
def NotNegative (x : Float) : Prop := Nonneg x.toModel.unpack

variable {x y : Float}

theorem Holds.whole (h : Holds x n) : Whole n x.toModel.unpack := by
  obtain ⟨u, whole, model⟩ := h.packed
  rw [model, whole.unpack_pack h.le]
  exact whole

theorem Holds.notNegative (h : Holds x n) : NotNegative x := h.whole.nonneg

theorem Holds.reaches (h : Holds x n) (pos : 0 < n) : Reaches x 0 := by
  obtain ⟨u, whole, model⟩ := h.packed
  cases whole with
  | zero => exact absurd pos (Nat.lt_irrefl 0)
  | leading h => exact ⟨_, .finite h.low h.high (Nat.zero_le _) h.significand_pos, model⟩

namespace Reaches

theorem upFrom (h : Reaches x k) : UpFrom k x.toModel.unpack := by
  obtain ⟨u, up, model⟩ := h
  rw [model]
  exact up.pack.1

theorem mul (hx : Reaches x k) (hy : Holds y n) (large : 2 ^ s ≤ n) : Reaches (x * y) (k + s) :=
  ⟨_, hx.upFrom.mul hy.whole large, rfl⟩

theorem add (hx : Reaches x k) (hy : NotNegative y) : Reaches (x + y) k :=
  ⟨_, hx.upFrom.add hy, rfl⟩

theorem div (hy : Holds y n) (hx : Reaches x k) : NotNegative (y / x) :=
  (nonneg_div hy.whole hx.upFrom).unpack_pack

/-- No finite double is that great. -/
theorem isInf (h : Reaches x k) (tooGreat : 1024 ≤ k) : x.isInf = true := by
  obtain ⟨u, up, model⟩ := h
  show x.toModel.unpack.isInf = true
  rw [model, up.pack.2 tooGreat]
  rfl

end Reaches

/-! ## Infinities -/

/-- A double that is an infinity is one of the two. -/
theorem eq_of_isInf (h : x.isInf = true) : x = infinity ∨ x = -infinity := by
  change x.toModel.unpack.isInf = true at h
  cases unpacked : x.toModel.unpack with
  | infinity sign =>
    cases sign with
    | positive => exact .inl (unpack_injective (unpacked.trans unpack_infinity.symm))
    | negative => exact .inr (unpack_injective (unpacked.trans unpack_neg_infinity.symm))
  | _ => rw [unpacked] at h; cases h

theorem isInf_of_isFinite (h : x.isFinite = true) : x.isInf = false := by
  change x.toModel.unpack.isFinite = true at h
  change x.toModel.unpack.isInf = false
  cases unpacked : x.toModel.unpack with
  | infinity => rw [unpacked] at h; cases h
  | _ => rfl

end ComplexScript.Double
