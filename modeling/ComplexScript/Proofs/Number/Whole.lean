import Mathlib
import ComplexScript.Proofs.Number.Bounded
set_option autoImplicit false

/-!
# Whole numbers as doubles

A whole number up to `2 ^ 53` is a double (`holds_ofNat`), and the product and the sum of two such
doubles hold the product and the sum of the numbers as long as these are no greater (`Holds.mul`,
`Holds.add`).  A significand of a double has 53 bits, so a number is known by the place of its
leading bit and the 53 bits from there on (`Leading`); rounding such a number drops zeros only,
whatever exponent it is rounded from (`round_leading`).
-/

namespace ComplexScript.Double

open Float.Model
open Float.Model.UnpackedFloat

variable {m n p q r i j k l : Nat} {e : Int}

/-! ## The leading bits of a number -/

/-- The leading bit of `n` is at place `i`, and `q` has the 53 bits from there on. -/
structure Leading (n q i : Nat) : Prop where
  value : q * 2 ^ i = n * 2 ^ 52
  low : 2 ^ 52 ≤ q
  high : q < 2 ^ 53

namespace Leading

theorem significand_pos (h : Leading n q i) : 0 < q := Nat.lt_of_lt_of_le (by decide) h.low

theorem two_pow_le (h : Leading n q i) : 2 ^ i ≤ n := by
  have low : 2 ^ 52 * 2 ^ i ≤ n * 2 ^ 52 := h.value ▸ Nat.mul_le_mul_right _ h.low
  omega

theorem pos (h : Leading n q i) : 0 < n := Nat.lt_of_lt_of_le (Nat.two_pow_pos i) h.two_pow_le

theorem log2_eq (h : Leading n q i) : n.log2 = i := by
  have low : 2 ^ i ≤ n := h.two_pow_le
  have high : n * 2 ^ 52 < 2 ^ 53 * 2 ^ i :=
    h.value ▸ Nat.mul_lt_mul_of_pos_right h.high (Nat.two_pow_pos i)
  rw [Nat.log2_eq_iff h.pos.ne', Nat.pow_succ]
  omega

/-- A number has only one place and one significand. -/
theorem unique (h : Leading n q i) (h' : Leading n p j) : q = p ∧ i = j := by
  obtain rfl : i = j := h.log2_eq.symm.trans h'.log2_eq
  exact ⟨Nat.eq_of_mul_eq_mul_right (Nat.two_pow_pos i) (h.value.trans h'.value.symm), rfl⟩

/-- The place of a number that a double holds is in range. -/
theorem place_le (h : Leading n q i) (le : n ≤ 2 ^ 53) : i ≤ 53 :=
  (Nat.pow_le_pow_iff_right (by decide)).mp (Nat.le_trans h.two_pow_le le)

theorem exists_of_le (pos : 0 < n) (le : n ≤ 2 ^ 53) : ∃ q i, Leading n q i := by
  have low : 2 ^ n.log2 ≤ n := Nat.log2_self_le pos.ne'
  have high : n < 2 ^ (n.log2 + 1) := Nat.lt_log2_self
  rcases Nat.lt_or_eq_of_le le with less | rfl
  · have place : n.log2 ≤ 52 := Nat.lt_succ_iff.mp ((Nat.log2_lt pos.ne').mpr less)
    refine ⟨n * 2 ^ (52 - n.log2), n.log2, ?_, ?_, ?_⟩
    · rw [Nat.mul_assoc, ← Nat.pow_add, Nat.sub_add_cancel place]
    · calc 2 ^ 52 = 2 ^ n.log2 * 2 ^ (52 - n.log2) := by
            rw [← Nat.pow_add, Nat.add_sub_cancel' place]
        _ ≤ n * 2 ^ (52 - n.log2) := Nat.mul_le_mul_right _ low
    · calc n * 2 ^ (52 - n.log2) < 2 ^ (n.log2 + 1) * 2 ^ (52 - n.log2) :=
            Nat.mul_lt_mul_of_pos_right high (Nat.two_pow_pos _)
        _ = 2 ^ 53 := by rw [← Nat.pow_add]; congr 1; omega
  · exact ⟨2 ^ 52, 53, by decide, Nat.le_refl _, by decide⟩

/-- At place 52 or above the number is the significand and zeros after it. -/
theorem eq_shifted (h : Leading n q (52 + k)) : n = q * 2 ^ k := by
  have value : n * 2 ^ 52 = q * 2 ^ k * 2 ^ 52 := by rw [← h.value]; ring
  exact Nat.eq_of_mul_eq_mul_right (by decide) value

/-- Below place 52 the significand is the number and zeros after it. -/
theorem shifted_eq (h : Leading n q i) (place : i + k = 52) : n * 2 ^ k = q := by
  have value : n * 2 ^ k * 2 ^ i = q * 2 ^ i := by
    rw [h.value, Nat.mul_assoc, ← Nat.pow_add, Nat.add_comm k i, place]
  exact Nat.eq_of_mul_eq_mul_right (Nat.two_pow_pos i) value

/-- The product of two significands is that of the product, and zeros after it. -/
theorem product (h : Leading m q i) (h' : Leading n p j) (whole : Leading (m * n) r l) :
    ∃ k, l = i + j + k ∧ q * p = r * 2 ^ (52 + k) := by
  have value : q * p * 2 ^ (i + j) = r * 2 ^ (l + 52) :=
    calc q * p * 2 ^ (i + j) = (q * 2 ^ i) * (p * 2 ^ j) := by ring
      _ = (m * 2 ^ 52) * (n * 2 ^ 52) := by rw [h.value, h'.value]
      _ = (m * n * 2 ^ 52) * 2 ^ 52 := by ring
      _ = r * 2 ^ (l + 52) := by rw [← whole.value, Nat.pow_add, Nat.mul_assoc]
  have place : i + j ≤ l := by
    rw [← whole.log2_eq]
    refine (Nat.le_log2 whole.pos.ne').mpr ?_
    rw [Nat.pow_add]
    exact Nat.mul_le_mul h.two_pow_le h'.two_pow_le
  obtain ⟨k, rfl⟩ := Nat.exists_eq_add_of_le place
  refine ⟨k, rfl, Nat.eq_of_mul_eq_mul_right (Nat.two_pow_pos (i + j)) ?_⟩
  rw [value]
  ring

/-- The sum of two numbers is that of their significands, aligned at one place. -/
theorem sum (h : Leading m q (k + i)) (h' : Leading n p (k + j)) (whole : Leading (m + n) r l) :
    k ≤ l ∧ Leading (q * 2 ^ i + p * 2 ^ j) r (l + 52 - k) := by
  have place : k + i ≤ l := by
    rw [← whole.log2_eq]
    exact (Nat.le_log2 whole.pos.ne').mpr (Nat.le_trans h.two_pow_le (Nat.le_add_right m n))
  have le : k ≤ l := Nat.le_of_add_right_le place
  refine ⟨le, ?_, whole.low, whole.high⟩
  refine Nat.eq_of_mul_eq_mul_right (Nat.two_pow_pos k) ?_
  calc r * 2 ^ (l + 52 - k) * 2 ^ k = r * 2 ^ l * 2 ^ 52 := by
        rw [Nat.mul_assoc, ← Nat.pow_add, Nat.sub_add_cancel (by omega), Nat.pow_add,
          Nat.mul_assoc]
    _ = (m * 2 ^ 52 + n * 2 ^ 52) * 2 ^ 52 := by rw [whole.value, Nat.add_mul]
    _ = (q * 2 ^ (k + i) + p * 2 ^ (k + j)) * 2 ^ 52 := by rw [h.value, h'.value]
    _ = (q * 2 ^ i + p * 2 ^ j) * 2 ^ 52 * 2 ^ k := by ring

end Leading

/-! ## Rounding -/

section

variable (low : 2 ^ 52 ≤ q) (high : q < 2 ^ 53)

include low high

theorem log2_shifted (k : Nat) : (q * 2 ^ k).log2 = 52 + k := by
  have power : 0 < 2 ^ k := Nat.two_pow_pos k
  have pos : 0 < q * 2 ^ k := Nat.mul_pos (Nat.lt_of_lt_of_le (by decide) low) power
  rw [Nat.log2_eq_iff pos.ne', Nat.add_right_comm, Nat.pow_add, Nat.pow_add]
  exact ⟨Nat.mul_le_mul_right _ low, Nat.mul_lt_mul_of_pos_right high power⟩

omit low high in
/-- Shifting out zeros leaves nothing to be rounded. -/
theorem shiftRight_zeros (q k : Nat) :
    (⟨q * 2 ^ k, false, false⟩ : ExtendedMantissa) >>> k = ⟨q, false, false⟩ := by
  show Nat.repeat ExtendedMantissa.shiftRightOne k _ = _
  induction k generalizing q with
  | zero =>
    rw [Nat.pow_zero, Nat.mul_one]
    rfl
  | succ k ih =>
    have twice : q * 2 ^ (k + 1) = 2 * q * 2 ^ k := by ring
    rw [Nat.repeat, twice, ih, ExtendedMantissa.shiftRightOne]
    simp

theorem shiftToTargetExponent_zeros (least : -1074 ≤ e + k) :
    shiftToTargetExponent Format.binary64 (q * 2 ^ k) e .exact = (⟨q, false, false⟩, e + k) := by
  have target : Format.binary64.targetExponent (totalExponent (q * 2 ^ k) e) = e + k := by
    rw [totalExponent, log2_shifted low high, Format.targetExponent]
    show max (((52 + k : Nat) : Int) + 1 + e - 53) (-1074) = _
    omega
  have amount : (e + k - e).toNat = k := by omega
  rw [shiftToTargetExponent, target, shiftToExponent, amount]
  exact congrArg (·, e + (k : Int)) (shiftRight_zeros q k)

theorem roundWithAccuracy_zeros (sign : Sign) (pos : 0 < q) (least : -1074 ≤ e + k) :
    roundWithAccuracy Format.binary64 sign (q * 2 ^ k) e .exact = .finite sign q (e + k) pos := by
  have again := shiftToTargetExponent_zeros (k := 0) (e := e + k) low high (by omega)
  rw [Nat.pow_zero, Nat.mul_one] at again
  have rounded : (⟨q, false, false⟩ : ExtendedMantissa).roundedMantissa = q := rfl
  simp only [roundWithAccuracy, shiftToTargetExponent_zeros low high least, rounded, again]
  rw [dif_neg pos.ne']
  simp

end

theorem decreaseExponent_fst (m k : Nat) {target : Int} (amount : e - target = k) :
    (decreaseExponent m e target).1 = m * 2 ^ k := by
  rw [decreaseExponent, amount, Int.toNat_natCast, Nat.shiftLeft_eq]

/-- Rounding keeps a number whose bits fit the significand. -/
theorem round_leading (sign : Sign) (h : Leading m q i) (least : -1074 ≤ e + (i - 52 : Int)) :
    UnpackedFloat.round Format.binary64 sign m e =
      .finite sign q (e + (i - 52 : Int)) h.significand_pos := by
  have target : Format.binary64.targetExponent (totalExponent m e) = e + (i - 52 : Int) := by
    rw [totalExponent, h.log2_eq, Format.targetExponent]
    show max ((i : Int) + 1 + e - 53) (-1074) = _
    omega
  rw [UnpackedFloat.round, target, decreaseExponent]
  rcases Nat.le_total 52 i with wide | narrow
  · obtain ⟨k, rfl⟩ := Nat.exists_eq_add_of_le wide
    have amount : (e - (e + (((52 + k : Nat) : Int) - 52))).toNat = 0 := by omega
    have exponent : e + (((52 + k : Nat) : Int) - 52) = e + k := by omega
    simp only [exponent, h.eq_shifted] at least amount ⊢
    rw [amount]
    simpa using roundWithAccuracy_zeros h.low h.high sign h.significand_pos least
  · obtain ⟨k, narrow⟩ := Nat.exists_eq_add_of_le narrow
    have amount : (e - (e + ((i : Int) - 52))).toNat = k := by omega
    have exponent : e - k = e + ((i : Int) - 52) := by omega
    have rounded := roundWithAccuracy_zeros (k := 0) (e := e + ((i : Int) - 52)) h.low h.high sign
      h.significand_pos (by omega)
    simp only [amount, exponent, Nat.shiftLeft_eq, h.shifted_eq narrow.symm]
    simpa using rounded

theorem normalize_leading (h : Leading m q i) (least : -1074 ≤ e + (i - 52 : Int)) :
    UnpackedFloat.normalize Format.binary64 m e .positive =
      .finite .positive q (e + (i - 52 : Int)) h.significand_pos := by
  have greater : compare (m : Int) 0 = .gt := by
    rw [Int.compare_eq_gt]
    exact Int.natCast_pos.mpr h.pos
  rw [UnpackedFloat.normalize, greater]
  exact round_leading .positive h least

/-! ## Packing -/

/-- The leading bit of a significand is left out when it is packed. -/
theorem one_append_fraction (low : 2 ^ 52 ≤ q) (high : q < 2 ^ 53) :
    (1#1 ++ BitVec.ofNat 52 q).toNat = q := by
  have fraction : (BitVec.ofNat 52 q).toNat = q - 2 ^ 52 := by
    rw [BitVec.toNat_ofNat]
    omega
  rw [BitVec.toNat_append, fraction, ← Nat.shiftLeft_add_eq_or_of_lt]
  · show 1 <<< 52 + (q - 2 ^ 52) = q
    omega
  · omega

/-- A double with all 53 bits is packed without loss if its exponent `b - 1074` is in range. -/
theorem unpack_pack_normal (pos : 0 < q) (low : 2 ^ 52 ≤ q) (high : q < 2 ^ 53) {b : Nat}
    (below : b < 2046) :
    unpack Format.binary64 (pack Format.binary64 (.finite .positive q (b - 1074 : Int) pos)) =
      .finite .positive q (b - 1074 : Int) pos := by
  have biased : ((b : Int) - 1074 + (Format.binary64.exponentBias : Nat) +
      (Format.binary64.mantissaBitsWithoutImplicit : Nat)).toNat = b + 1 := by
    show ((b : Int) - 1074 + (1023 : Nat) + (52 : Nat)).toNat = b + 1
    omega
  have bits : q.log2 + 1 = Format.binary64.mantissaBits := by
    have log2 := log2_shifted low high 0
    rw [Nat.pow_zero, Nat.mul_one] at log2
    rw [log2]
    rfl
  have packed : pack Format.binary64 (.finite .positive q (b - 1074 : Int) pos) =
      packComponents Format.binary64 .positive (BitVec.ofNat 11 (b + 1)) (BitVec.ofNat 52 q) := by
    rw [UnpackedFloat.pack, biased, if_neg (by show ¬ 2048 ≤ b + 1 + 1; omega), if_pos bits]
  have exponent : (BitVec.ofNat 11 (b + 1)).toNat = b + 1 := by
    rw [BitVec.toNat_ofNat]
    omega
  have notSpecial : BitVec.ofNat 11 (b + 1) ≠ -1#11 := by
    intro same
    have special : b + 1 = 2047 := exponent.symm.trans (congrArg BitVec.toNat same)
    omega
  have notSubnormal : BitVec.ofNat 11 (b + 1) ≠ 0#11 := by
    intro same
    cases exponent.symm.trans (congrArg BitVec.toNat same)
  rw [packed]
  simp only [UnpackedFloat.unpack, unpackMantissa_packComponents, unpackExponent_packComponents,
    unpackSign_packComponents]
  rw [if_neg notSpecial, if_neg notSubnormal, UnpackedFloat.finite.injEq]
  refine ⟨rfl, one_append_fraction low high, ?_⟩
  rw [exponent]
  show ((b + 1 : Nat) : Int) - ((1023 : Nat) + (52 : Nat)) = _
  omega

/-! ## Exact operations -/

/-- What a double that holds a whole number unpacks to. -/
inductive Whole : Nat → UnpackedFloat → Prop where
  | zero : Whole 0 (.zero .positive)
  | leading {n q i : Nat} (h : Leading n q i) :
    Whole n (.finite .positive q (i - 52 : Int) h.significand_pos)

namespace Whole

variable {u v : UnpackedFloat}

theorem unique (hu : Whole n u) (hv : Whole n v) : u = v := by
  cases hu with
  | zero =>
    cases hv with
    | zero => rfl
    | leading h => exact absurd h.pos (Nat.lt_irrefl 0)
  | leading h =>
    cases hv with
    | zero => exact absurd h.pos (Nat.lt_irrefl 0)
    | leading h' =>
      obtain ⟨rfl, rfl⟩ := h.unique h'
      rfl

theorem normalize (le : n ≤ 2 ^ 53) :
    Whole n (UnpackedFloat.normalize Format.binary64 n 0 .positive) := by
  rcases Nat.eq_zero_or_pos n with rfl | pos
  · exact .zero
  · obtain ⟨q, i, h⟩ := Leading.exists_of_le pos le
    have rounded := normalize_leading (e := 0) h (by omega)
    rw [Int.zero_add] at rounded
    rw [rounded]
    exact .leading h

theorem mul (hu : Whole m u) (hv : Whole n v) (le : m * n ≤ 2 ^ 53) :
    Whole (m * n) (mul Format.binary64 u v) := by
  cases hu with
  | zero =>
    rw [Nat.zero_mul]
    cases hv <;> exact .zero
  | @leading m q i h =>
    cases hv with
    | zero => exact .zero
    | @leading n p j h' =>
      obtain ⟨r, l, whole⟩ := Leading.exists_of_le (Nat.mul_pos h.pos h'.pos) le
      obtain ⟨k, rfl, product⟩ := h.product h' whole
      have exponent : (i - 52 : Int) + (j - 52 : Int) + ((52 + k : Nat) : Int) =
          ((i + j + k : Nat) : Int) - 52 := by omega
      have rounded := roundWithAccuracy_zeros (k := 52 + k) (e := (i - 52 : Int) + (j - 52 : Int))
        whole.low whole.high .positive whole.significand_pos (by omega)
      show Whole (m * n) (roundWithAccuracy Format.binary64 .positive (q * p) _ .exact)
      rw [product, rounded]
      simp only [exponent]
      exact .leading whole

theorem add (hu : Whole m u) (hv : Whole n v) (le : m + n ≤ 2 ^ 53) :
    Whole (m + n) (add Format.binary64 u v) := by
  cases hu with
  | zero =>
    rw [Nat.zero_add]
    cases hv with
    | zero => exact .zero
    | leading h' => exact .leading h'
  | @leading m q i h =>
    cases hv with
    | zero => exact .leading h
    | @leading n p j h' =>
      obtain ⟨r, l, whole⟩ := Leading.exists_of_le (Nat.add_pos_left h.pos n) le
      -- both are aligned at the lower place, and one of them is there already
      obtain ⟨k, a, b, rfl, rfl, none⟩ : ∃ k a b, i = k + a ∧ j = k + b ∧ min a b = 0 :=
        ⟨min i j, i - min i j, j - min i j, by omega, by omega, by omega⟩
      obtain ⟨place, sum⟩ := h.sum h' whole
      have lower : min (((k + a : Nat) : Int) - 52) (((k + b : Nat) : Int) - 52) =
          (k : Int) - 52 := by omega
      have exponent : (k : Int) - 52 + (((l + 52 - k : Nat) : Int) - 52) = l - 52 := by omega
      have rounded := normalize_leading (e := (k : Int) - 52) sum (by omega)
      show Whole (m + n) (UnpackedFloat.normalize Format.binary64
        (((decreaseExponent q _ (min _ _)).1 : Int) + ((decreaseExponent p _ (min _ _)).1 : Int))
        (min _ _) .positive)
      rw [lower, decreaseExponent_fst q a (by omega), decreaseExponent_fst p b (by omega),
        ← Int.natCast_add, rounded]
      simp only [exponent]
      exact .leading whole

theorem unpack_pack (hu : Whole n u) (le : n ≤ 2 ^ 53) : (pack u).unpack = u := by
  cases hu with
  | zero => rfl
  | @leading n q i h =>
    have place : i ≤ 53 := h.place_le le
    have exponent : (i : Int) - 52 = ((i + 1022 : Nat) : Int) - 1074 := by omega
    have unpacked := unpack_pack_normal (b := i + 1022) h.significand_pos h.low h.high (by omega)
    simp only [← exponent] at unpacked
    exact unpacked

end Whole

/-! ## Doubles that hold whole numbers -/

/-- The double is the whole number, which is one of those without a gap between them. -/
structure Holds (x : Float) (n : Nat) : Prop where
  le : n ≤ 2 ^ 53
  packed : ∃ u, Whole n u ∧ x.toModel = Float.Model.pack u

namespace Holds

variable {x y : Float}

theorem unique (hx : Holds x n) (hy : Holds y n) : x = y := by
  obtain ⟨_, u, hu, model⟩ := hx
  obtain ⟨_, v, hv, model'⟩ := hy
  obtain rfl := hu.unique hv
  cases x
  cases y
  exact congrArg Float.ofModel (model.trans model'.symm)

theorem mul (hx : Holds x m) (hy : Holds y n) (le : m * n ≤ 2 ^ 53) : Holds (x * y) (m * n) := by
  obtain ⟨u, hu, model⟩ := hx.packed
  obtain ⟨v, hv, model'⟩ := hy.packed
  refine ⟨le, _, hu.mul hv le, ?_⟩
  show Float.Model.pack (UnpackedFloat.mul Format.binary64 x.toModel.unpack y.toModel.unpack) = _
  rw [model, model', hu.unpack_pack hx.le, hv.unpack_pack hy.le]

theorem add (hx : Holds x m) (hy : Holds y n) (le : m + n ≤ 2 ^ 53) : Holds (x + y) (m + n) := by
  obtain ⟨u, hu, model⟩ := hx.packed
  obtain ⟨v, hv, model'⟩ := hy.packed
  refine ⟨le, _, hu.add hv le, ?_⟩
  show Float.Model.pack (UnpackedFloat.add Format.binary64 x.toModel.unpack y.toModel.unpack) = _
  rw [model, model', hu.unpack_pack hx.le, hv.unpack_pack hy.le]

theorem isInf (h : Holds x n) : x.isInf = false := by
  obtain ⟨u, hu, model⟩ := h.packed
  show x.toModel.unpack.isInf = false
  rw [model, hu.unpack_pack h.le]
  cases hu <;> rfl

end Holds

/-- A whole number is converted to the double that holds it, also where the conversion goes by a
product with one. -/
theorem holds_ofNat (le : n ≤ 2 ^ 53) : Holds (Float.ofNat n) n := by
  have leading : Leading 1 (2 ^ 52) 0 := ⟨by decide, by decide, by decide⟩
  have one : Holds (Float.ofBits 0x3FF0000000000000) 1 := ⟨by decide, _, .leading leading, rfl⟩
  rcases Nat.lt_or_eq_of_le le with less | rfl
  · have byProduct : Float.ofNat n = n.toUInt64.toFloat * Float.ofBits 0x3FF0000000000000 := by
      show Float.ofScientific n false 0 = _
      rw [Float.ofScientific, dif_pos ⟨less, by decide⟩]
      rfl
    have converted : Holds n.toUInt64.toFloat n := by
      have same : n.toUInt64.toNat = n :=
        UInt64.toNat_ofNat_of_lt' (Nat.lt_trans less (by decide))
      refine ⟨le, _, .normalize le, ?_⟩
      show Float.Model.pack
        (UnpackedFloat.normalize Format.binary64 n.toUInt64.toNat 0 .positive) = _
      rw [same]
    have product := converted.mul one (by rwa [Nat.mul_one])
    rw [Nat.mul_one] at product
    rw [byProduct]
    exact product
  · have leading : Leading (2 ^ 53) (2 ^ 52) 53 := ⟨by decide, by decide, by decide⟩
    exact ⟨le, _, .leading leading, rfl⟩

end ComplexScript.Double
