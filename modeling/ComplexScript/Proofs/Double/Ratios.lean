import Mathlib.Algebra.Order.Floor.Semifield
import Mathlib.Data.Rat.Floor
import Mathlib.Tactic.NormNum
import ComplexScript.Double.Decimal
set_option autoImplicit false

/-!
# Fractions and decimals as rational numbers

The comparisons of fractions are those of the rational numbers they stand for (`less_iff`,
`atMost_iff`), and a decimal stands for its significand times a power of ten (`Decimal.value`).  The
decimal below a fraction is less than one step of its grid away (`gridBelow_le`,
`lt_gridBelow_succ`).
-/

namespace ComplexScript.Double

/-! ## Fractions -/

namespace Ratio

variable {a b : Ratio}

/-- The rational number that a fraction stands for. -/
def value (r : Ratio) : ℚ := r.numerator / r.denominator

/-- A fraction stands for a number if its denominator is not zero. -/
def Proper (r : Ratio) : Prop := 0 < r.denominator

theorem less_iff (ha : a.Proper) (hb : b.Proper) : a.less b = true ↔ a.value < b.value := by
  have pos : (0 : ℚ) < a.denominator := Nat.cast_pos.mpr ha
  have pos' : (0 : ℚ) < b.denominator := Nat.cast_pos.mpr hb
  rw [less, decide_eq_true_iff, value, value, div_lt_div_iff₀ pos pos']
  norm_cast

theorem atMost_iff (ha : a.Proper) (hb : b.Proper) : a.atMost b = true ↔ a.value ≤ b.value := by
  have pos : (0 : ℚ) < a.denominator := Nat.cast_pos.mpr ha
  have pos' : (0 : ℚ) < b.denominator := Nat.cast_pos.mpr hb
  rw [atMost, decide_eq_true_iff, value, value, div_le_div_iff₀ pos pos']
  norm_cast

theorem proper_ofPower {base : Nat} (pos : 0 < base) (n : Nat) (e : Int) :
    (ofPower n base e).Proper := by
  unfold ofPower Proper
  split
  · exact Nat.one_pos
  · exact Nat.pow_pos pos

theorem value_ofPower (n base : Nat) (e : Int) : (ofPower n base e).value = n * (base : ℚ) ^ e := by
  unfold ofPower value
  split
  · next nonneg =>
    obtain ⟨k, rfl⟩ := Int.eq_ofNat_of_zero_le nonneg
    simp
  · next negative =>
    obtain ⟨k, rfl⟩ := Int.exists_eq_neg_ofNat (Int.le_of_not_le negative)
    simp [div_eq_mul_inv]

end Ratio

/-! ## Decimals -/

/-- The rational number that a decimal stands for. -/
def Decimal.value (d : Decimal) : ℚ := d.significand * 10 ^ d.exponent

theorem Decimal.value_ratio (d : Decimal) : d.ratio.value = d.value :=
  Ratio.value_ofPower d.significand 10 d.exponent

theorem Decimal.proper_ratio (d : Decimal) : d.ratio.Proper :=
  Ratio.proper_ofPower (by decide) d.significand d.exponent

theorem Decimal.significand_pos {d : Decimal} (pos : 0 < d.value) : 0 < d.significand := by
  refine Nat.pos_of_ne_zero fun zero => ?_
  rw [value, zero, Nat.cast_zero, zero_mul] at pos
  exact lt_irrefl 0 pos

/-- The decimal that has one more step of the grid. -/
def Decimal.succ (d : Decimal) : Decimal := { d with significand := d.significand + 1 }

theorem Decimal.value_succ (d : Decimal) : d.succ.value = d.value + 10 ^ d.exponent := by
  rw [value, value, succ, Nat.cast_succ, add_mul, one_mul]

section

variable (r : Ratio) (e : Int)

theorem exponent_gridBelow : (gridBelow r e).exponent = e := by
  unfold gridBelow
  split <;> rfl

theorem significand_gridBelow : (gridBelow r e).significand = ⌊r.value / 10 ^ e⌋₊ := by
  unfold gridBelow Ratio.value
  split
  · next nonneg =>
    obtain ⟨k, rfl⟩ := Int.eq_ofNat_of_zero_le nonneg
    rw [← Nat.floor_div_eq_div (K := ℚ), div_div]
    simp
  · next negative =>
    obtain ⟨k, rfl⟩ := Int.exists_eq_neg_ofNat (Int.le_of_not_le negative)
    rw [← Nat.floor_div_eq_div (K := ℚ), div_right_comm]
    simp

theorem value_gridBelow : (gridBelow r e).value = ⌊r.value / 10 ^ e⌋₊ * 10 ^ e := by
  rw [Decimal.value, significand_gridBelow, exponent_gridBelow]

theorem gridBelow_le : (gridBelow r e).value ≤ r.value := by
  have step : (0 : ℚ) < 10 ^ e := zpow_pos (by norm_num) e
  have nonneg : 0 ≤ r.value := div_nonneg (Nat.cast_nonneg _) (Nat.cast_nonneg _)
  rw [value_gridBelow, ← le_div_iff₀ step]
  exact Nat.floor_le (div_nonneg nonneg step.le)

theorem lt_gridBelow_succ : r.value < (gridBelow r e).succ.value := by
  have step : (0 : ℚ) < 10 ^ e := zpow_pos (by norm_num) e
  rw [Decimal.value_succ, exponent_gridBelow, value_gridBelow, ← add_one_mul, ← div_lt_iff₀ step]
  exact Nat.lt_floor_add_one _

end

end ComplexScript.Double
