import Mathlib.Tactic.Linarith
import Mathlib.Tactic.Ring
import ComplexScript.Proofs.Double.Ratios
set_option autoImplicit false

/-!
# The shortest decimal reads back

The intervals of different doubles have no number in common (`ReadsBack.unique`): where one ends
the next begins, and only one of two neighbours has an even significand.  With seventeen digits a
decimal next to a double lies in its interval (`readsBack_of_step`), so the search for the fewest
digits finds a decimal that reads back (`shortest_readsBack`), and a double is known by the value of
that decimal (`writtenValue_injective`).
-/

namespace ComplexScript.Double

variable {m n : Nat} {q p : Int} {v : ℚ}

/-! ## Significands -/

/-- The exponent of the greatest double. -/
def greatestExponent : Int := 971

/-- The significand and exponent of a double: all exponents but the least have a significand of full
length. -/
structure Canonical (m : Nat) (q : Int) : Prop where
  least : leastExponent ≤ q
  greatest : q ≤ greatestExponent
  small : m < 2 * hiddenBit
  full : leastExponent < q → hiddenBit ≤ m

theorem canonical_viewBits {bits : Nat} {negative : Bool}
    (h : viewBits bits = .finite negative m q) : Canonical m q := by
  obtain ⟨small, least⟩ := viewBits_finite h
  have biased : bits / Nat.pow 2 52 % Nat.pow 2 11 < 2048 := Nat.mod_lt _ (by decide)
  have small : m < 2 * hiddenBit := small
  simp only [viewBits] at h
  split at h
  · split at h <;> cases h
  · split at h
    · cases h
      exact ⟨least, by decide, small, fun greater => absurd greater (Int.lt_irrefl _)⟩
    · cases h
      refine ⟨least, ?_, small, fun _ => Nat.le_add_left _ _⟩
      unfold leastExponent greatestExponent
      omega

/-- Zero has the least exponent. -/
theorem Canonical.exponent_zero (h : Canonical 0 q) : q = leastExponent := by
  by_contra other
  exact absurd (h.full (lt_of_le_of_ne h.least (Ne.symm other))) (by decide)

/-! ## Intervals -/

/-- How far the interval goes down, in quarters of the gap. -/
def reach (m : Nat) (q : Int) : Nat := if m = hiddenBit ∧ leastExponent < q then 1 else 2

theorem reach_le (m : Nat) (q : Int) : reach m q ≤ 2 := by
  unfold reach
  split <;> decide

/-- A rational number that reads back as `m * 2 ^ q`: it is in the interval, and not at an end if
the significand is odd. -/
structure ReadsBack (m : Nat) (q : Int) (v : ℚ) : Prop where
  lower : (4 * m - reach m q) * 2 ^ (q - 2) ≤ v
  upper : v ≤ (4 * m + 2) * 2 ^ (q - 2)
  inside : m % 2 = 1 → (4 * m - reach m q) * 2 ^ (q - 2) < v ∧ v < (4 * m + 2) * 2 ^ (q - 2)

section

variable (m q)

theorem value_center : (Interval.ofDouble m q).center.value = m * 2 ^ q := by
  have value : (Interval.ofDouble m q).center.value = ((4 * m : Nat) : ℚ) * 2 ^ (q - 2) :=
    Ratio.value_ofPower _ _ _
  rw [value, zpow_sub₀ (by norm_num)]
  push_cast
  ring

theorem value_upper : (Interval.ofDouble m q).upper.value = (4 * m + 2) * 2 ^ (q - 2) := by
  have value : (Interval.ofDouble m q).upper.value = ((4 * m + 2 : Nat) : ℚ) * 2 ^ (q - 2) :=
    Ratio.value_ofPower _ _ _
  rw [value]
  push_cast
  rfl

variable {m} in
theorem value_lower (pos : 0 < m) :
    (Interval.ofDouble m q).lower.value = (4 * m - reach m q) * 2 ^ (q - 2) := by
  have value : (Interval.ofDouble m q).lower.value =
      ((4 * m - reach m q : Nat) : ℚ) * 2 ^ (q - 2) := Ratio.value_ofPower _ _ _
  have le : reach m q ≤ 4 * m := by
    have reach := reach_le m q
    omega
  rw [value, Nat.cast_sub le]
  push_cast
  rfl

end

/-- A decimal in the interval of a double is one that reads back as it. -/
theorem contains_iff (pos : 0 < m) (d : Decimal) :
    (Interval.ofDouble m q).contains d = true ↔ ReadsBack m q d.value := by
  have properLower : (Interval.ofDouble m q).lower.Proper := Ratio.proper_ofPower (by decide) _ _
  have properUpper : (Interval.ofDouble m q).upper.Proper := Ratio.proper_ofPower (by decide) _ _
  have parity : (Interval.ofDouble m q).closed = true ↔ m % 2 = 0 := beq_iff_eq
  have lower := value_lower q pos
  have upper := value_upper m q
  unfold Interval.contains
  split
  · next closed =>
    rw [Bool.and_eq_true, Ratio.atMost_iff properLower d.proper_ratio,
      Ratio.atMost_iff d.proper_ratio properUpper, d.value_ratio, lower, upper]
    have even := parity.mp closed
    exact ⟨fun h => ⟨h.1, h.2, fun odd => by omega⟩, fun h => ⟨h.lower, h.upper⟩⟩
  · next opened =>
    rw [Bool.and_eq_true, Ratio.less_iff properLower d.proper_ratio,
      Ratio.less_iff d.proper_ratio properUpper, d.value_ratio, lower, upper]
    have odd : m % 2 = 1 := by
      have notEven := mt parity.mpr opened
      omega
    exact ⟨fun h => ⟨h.1.le, h.2.le, fun _ => h⟩, fun h => h.inside odd⟩

/-! ## Different doubles -/

theorem ReadsBack.pos (h : ReadsBack m q v) (pos : 0 < m) : 0 < v := by
  have gap : (0 : ℚ) < 2 ^ (q - 2) := zpow_pos (by norm_num) _
  have reach : (reach m q : ℚ) ≤ 2 := by exact_mod_cast reach_le m q
  have one : (1 : ℚ) ≤ m := by exact_mod_cast pos
  refine lt_of_lt_of_le (mul_pos ?_ gap) h.lower
  linarith

/-- Doubles with one exponent and different significands share no number. -/
theorem ReadsBack.not_of_lt (h : ReadsBack m q v) (h' : ReadsBack n q v) (less : m < n) :
    False := by
  have gap : (0 : ℚ) < 2 ^ (q - 2) := zpow_pos (by norm_num) _
  have reach : (reach n q : ℚ) ≤ 2 := by exact_mod_cast reach_le n q
  have ends := le_of_mul_le_mul_right (h'.lower.trans h.upper) gap
  -- the two are neighbours, which meet in one number, and one of them is odd
  obtain rfl : n = m + 1 := by
    have le : (n : ℚ) ≤ (m + 1 : Nat) := by
      push_cast
      linarith
    have le : n ≤ m + 1 := by exact_mod_cast le
    omega
  have apart : (4 * ((m + 1 : Nat) : ℚ) - Double.reach (m + 1) q) * 2 ^ (q - 2) <
      (4 * m + 2) * 2 ^ (q - 2) := by
    rcases Nat.mod_two_eq_zero_or_one m with even | odd
    · exact lt_of_lt_of_le (h'.inside (by omega)).1 h.upper
    · exact lt_of_le_of_lt h'.lower (h.inside odd).2
  have ends := lt_of_mul_lt_mul_right apart gap.le
  push_cast at ends
  linarith

/-- Doubles with different exponents share no number. -/
theorem ReadsBack.not_of_exponent_lt (h : ReadsBack m q v) (h' : ReadsBack n p v)
    (canonical : Canonical m q) (canonical' : Canonical n p) (less : q < p) : False := by
  have gap : (0 : ℚ) < 2 ^ (q - 2) := zpow_pos (by norm_num) _
  have greater : leastExponent < p := lt_of_le_of_lt canonical.least less
  have full := canonical'.full greater
  -- the gap of the greater double is at least twice as wide
  have gaps : (2 : ℚ) * 2 ^ (q - 2) ≤ 2 ^ (p - 2) := by
    rw [← zpow_one_add₀ (by norm_num)]
    exact zpow_le_zpow_right₀ (by norm_num) (by omega)
  have first : (4 * hiddenBit - 1 : ℚ) ≤ 4 * n - reach n p := by
    have first : 4 * hiddenBit + reach n p ≤ 4 * n + 1 := by
      unfold reach
      split <;> omega
    have first : (4 * hiddenBit + reach n p : ℚ) ≤ 4 * n + 1 := by exact_mod_cast first
    linarith
  have one : (1 : ℚ) ≤ hiddenBit := by exact_mod_cast Nat.one_le_two_pow
  have low : (8 * hiddenBit - 2 : ℚ) * 2 ^ (q - 2) ≤ v :=
    calc (8 * hiddenBit - 2 : ℚ) * 2 ^ (q - 2) = (4 * hiddenBit - 1) * (2 * 2 ^ (q - 2)) := by ring
      _ ≤ (4 * n - reach n p) * 2 ^ (p - 2) := mul_le_mul first gaps (by positivity) (by linarith)
      _ ≤ v := h'.lower
  have ends := le_of_mul_le_mul_right (low.trans h.upper) gap
  -- so the smaller one has the greatest significand, which is odd
  have last : m % 2 = 1 := by
    have le : (2 * hiddenBit : ℚ) ≤ m + 1 := by linarith
    have le : 2 * hiddenBit ≤ m + 1 := by exact_mod_cast le
    have small := canonical.small
    omega
  have ends := lt_of_mul_lt_mul_right (low.trans_lt (h.inside last).2) gap.le
  have small : (m + 1 : ℚ) ≤ 2 * hiddenBit := by exact_mod_cast canonical.small
  linarith

/-- No number reads back as two doubles. -/
theorem ReadsBack.unique (h : ReadsBack m q v) (h' : ReadsBack n p v)
    (canonical : Canonical m q) (canonical' : Canonical n p) : m = n ∧ q = p := by
  rcases lt_trichotomy q p with less | rfl | greater
  · exact (h.not_of_exponent_lt h' canonical canonical' less).elim
  · rcases lt_trichotomy m n with less | rfl | greater
    · exact (h.not_of_lt h' less).elim
    · exact ⟨rfl, rfl⟩
    · exact (h'.not_of_lt h greater).elim
  · exact (h'.not_of_exponent_lt h canonical' canonical greater).elim

/-! ## Powers of two and ten -/

/-- Thirty-one places are less than a hundred and three bits. -/
theorem ten_pow_le_two_pow {a b : Nat} (le : 103 * a ≤ 31 * b) : 10 ^ a ≤ 2 ^ b := by
  rw [← Nat.pow_le_pow_iff_left (n := 31) (by decide)]
  calc (10 ^ a) ^ 31 = (10 ^ 31) ^ a := Nat.pow_right_comm _ _ _
    _ ≤ (2 ^ 103) ^ a := Nat.pow_le_pow_left (by decide) a
    _ = 2 ^ (103 * a) := (Nat.pow_mul _ _ _).symm
    _ ≤ 2 ^ (31 * b) := Nat.pow_le_pow_right (by decide) le
    _ = (2 ^ b) ^ 31 := by rw [Nat.mul_comm, Nat.pow_mul]

/-- Ninety-three bits are less than twenty-eight places. -/
theorem two_pow_le_ten_pow {a b : Nat} (le : 28 * b ≤ 93 * a) : 2 ^ b ≤ 10 ^ a := by
  rw [← Nat.pow_le_pow_iff_left (n := 93) (by decide)]
  calc (2 ^ b) ^ 93 = (2 ^ 93) ^ b := Nat.pow_right_comm _ _ _
    _ ≤ (10 ^ 28) ^ b := Nat.pow_le_pow_left (by decide) b
    _ = 10 ^ (28 * b) := (Nat.pow_mul _ _ _).symm
    _ ≤ 10 ^ (93 * a) := Nat.pow_le_pow_right (by decide) le
    _ = (10 ^ a) ^ 93 := by rw [Nat.mul_comm, Nat.pow_mul]

/-- The estimate of a decimal exponent is at most one too great, for all exponents of doubles. -/
theorem ten_zpow_le_two_zpow {e k : Int} (low : -1074 ≤ e) (high : e ≤ 1023)
    (estimate : 100000 * k ≤ 30103 * e) : (10 : ℚ) ^ (k - 1) ≤ 2 ^ e := by
  rcases le_total 0 e with nonneg | negative
  · obtain ⟨b, rfl⟩ := Int.eq_ofNat_of_zero_le nonneg
    have one : (1 : ℚ) ≤ 2 ^ (b : Int) := one_le_zpow₀ (by norm_num) nonneg
    rcases le_total (k - 1) 0 with none | some
    · exact (zpow_le_one_of_nonpos₀ (by norm_num) none).trans one
    · obtain ⟨a, same⟩ := Int.eq_ofNat_of_zero_le some
      rw [same, zpow_natCast, zpow_natCast]
      exact_mod_cast ten_pow_le_two_pow (by omega)
  · obtain ⟨b, rfl⟩ := Int.exists_eq_neg_ofNat negative
    obtain ⟨a, same⟩ := Int.exists_eq_neg_ofNat (show k - 1 ≤ 0 by omega)
    rw [same, zpow_neg, zpow_neg, zpow_natCast, zpow_natCast]
    refine inv_anti₀ (by positivity) ?_
    exact_mod_cast two_pow_le_ten_pow (by omega)

/-! ## Seventeen digits -/

/-- The count of digits before the point is not too great. -/
theorem magnitude_le (canonical : Canonical m q) (pos : 0 < m) :
    (10 : ℚ) ^ (magnitude m q - 1) ≤ m * 2 ^ q := by
  have value : (Ratio.ofPower m 2 q).value = m * 2 ^ q := Ratio.value_ofPower m 2 q
  have proper : (Ratio.ofPower m 2 q).Proper := Ratio.proper_ofPower (by decide) m q
  have le_of_not_less (k : Int) (h : ¬ (Ratio.ofPower m 2 q).less (.ofPower 1 10 k) = true) :
      (10 : ℚ) ^ k ≤ m * 2 ^ q := by
    rw [Ratio.less_iff proper (Ratio.proper_ofPower (by decide) 1 k), value, Ratio.value_ofPower,
      not_lt] at h
    simpa using h
  have log2 : m.log2 < 53 := (Nat.log2_lt pos.ne').mpr canonical.small
  obtain ⟨least, greatest, _⟩ := canonical
  unfold leastExponent at least
  unfold greatestExponent at greatest
  simp only [magnitude]
  split
  · calc (10 : ℚ) ^ ((q + m.log2) * 30103 / 100000 - 1) ≤ 2 ^ (q + m.log2) :=
          ten_zpow_le_two_zpow (by omega) (by omega) (by omega)
      _ = 2 ^ m.log2 * 2 ^ q := by rw [zpow_add₀ (by norm_num), zpow_natCast, mul_comm]
      _ ≤ m * 2 ^ q := by
          refine mul_le_mul_of_nonneg_right ?_ (zpow_pos (by norm_num) q).le
          exact_mod_cast Nat.log2_self_le pos.ne'
  split
  · next notBelow _ =>
    rw [Int.add_sub_cancel]
    exact le_of_not_less _ notBelow
  · next notBelow =>
    have exponent : (q + m.log2) * 30103 / 100000 + 2 - 1 = (q + m.log2) * 30103 / 100000 + 1 := by
      omega
    rw [exponent]
    exact le_of_not_less _ notBelow

/-- On a grid that is fine enough, a number next to a double reads back as it. -/
theorem readsBack_of_step {below step : ℚ} (canonical : Canonical m q)
    (le : below ≤ m * 2 ^ q) (lt : m * 2 ^ q < below + step)
    (fine : step * 10 ^ 16 ≤ m * 2 ^ q) :
    ReadsBack m q below ∨ ReadsBack m q (below + step) := by
  have gap : (0 : ℚ) < 2 ^ (q - 2) := zpow_pos (by norm_num) _
  have center : (m : ℚ) * 2 ^ q = 4 * m * 2 ^ (q - 2) := by
    rw [zpow_sub₀ (by norm_num)]
    ring
  have quarter : (1 : ℚ) ≤ reach m q := by
    exact_mod_cast show 1 ≤ reach m q by unfold reach; split <;> decide
  -- the interval is wider than a step
  have wide : step < (reach m q + 2) * 2 ^ (q - 2) := by
    have bits : hiddenBit = 4503599627370496 := rfl
    have small := canonical.small
    have digits : 4 * m < (reach m q + 2) * 10 ^ 16 := by
      unfold reach
      split <;> omega
    have digits : (4 * m : ℚ) < (reach m q + 2) * 10 ^ 16 := by exact_mod_cast digits
    have less : step * 10 ^ 16 < (reach m q + 2) * 2 ^ (q - 2) * 10 ^ 16 :=
      calc step * 10 ^ 16 ≤ 4 * m * 2 ^ (q - 2) := center ▸ fine
        _ < (reach m q + 2) * 10 ^ 16 * 2 ^ (q - 2) := mul_lt_mul_of_pos_right digits gap
        _ = (reach m q + 2) * 2 ^ (q - 2) * 10 ^ 16 := by ring
    exact lt_of_mul_lt_mul_right less (by positivity)
  rw [center] at le lt
  by_cases inside : (4 * m - reach m q) * 2 ^ (q - 2) < below
  · have upper : below < (4 * m + 2) * 2 ^ (q - 2) := by linarith
    exact .inl ⟨inside.le, upper.le, fun _ => ⟨inside, upper⟩⟩
  · have lower : (4 * m - reach m q) * 2 ^ (q - 2) < below + step := by
      have reached : 0 < reach m q * (2 : ℚ) ^ (q - 2) := by positivity
      linarith
    have upper : below + step < (4 * m + 2) * 2 ^ (q - 2) := by linarith
    exact .inr ⟨lower.le, upper.le, fun _ => ⟨lower, upper⟩⟩

/-! ## The shortest decimal -/

theorem nearer_cases (r : Ratio) (low high : Decimal) :
    nearer r low high = low ∨ nearer r low high = high := by
  simp only [nearer]
  split
  · exact .inl rfl
  · exact .inr rfl

theorem contains_of_shortestAt {i : Interval} {k : Int} {digits : Nat} {d : Decimal}
    (found : shortestAt i k digits = some d) : i.contains d = true := by
  simp only [shortestAt] at found
  split at found
  · next low high =>
    obtain rfl := Option.some.inj found
    rcases nearer_cases i.center (gridBelow i.center (k - digits))
      (gridBelow i.center (k - digits)).succ with same | same
    · exact (congrArg i.contains same).trans low
    · exact (congrArg i.contains same).trans high
  · next low _ => exact Option.some.inj found ▸ low
  · next _ high => exact Option.some.inj found ▸ high
  · cases found

/-- The search ends with seventeen digits at the latest. -/
theorem shortestAt_most_ne_none (canonical : Canonical m q) (pos : 0 < m) :
    shortestAt (.ofDouble m q) (magnitude m q) mostDigits ≠ none := by
  have fine : (10 : ℚ) ^ (magnitude m q - mostDigits) * 10 ^ 16 ≤ m * 2 ^ q :=
    calc (10 : ℚ) ^ (magnitude m q - mostDigits) * 10 ^ 16
        = 10 ^ (magnitude m q - mostDigits + 16) := by rw [zpow_add₀ (by norm_num)]; rfl
      _ = 10 ^ (magnitude m q - 1) := by congr 1; unfold mostDigits; omega
      _ ≤ m * 2 ^ q := magnitude_le canonical pos
  have le := gridBelow_le (Interval.ofDouble m q).center (magnitude m q - mostDigits)
  have lt := lt_gridBelow_succ (Interval.ofDouble m q).center (magnitude m q - mostDigits)
  have step := (gridBelow (Interval.ofDouble m q).center (magnitude m q - mostDigits)).value_succ
  rw [exponent_gridBelow] at step
  rw [value_center] at le lt
  have near := readsBack_of_step canonical le (step ▸ lt) fine
  rw [← step] at near
  intro nothing
  simp only [shortestAt] at nothing
  split at nothing <;> try cases nothing
  next low high =>
    rcases near with near | near
    · cases low.symm.trans ((contains_iff pos _).mpr near)
    · cases high.symm.trans ((contains_iff pos _).mpr near)

/-- The shortest decimal reads back. -/
theorem shortest_readsBack (canonical : Canonical m q) (pos : 0 < m) :
    ReadsBack m q (shortest m q).value := by
  have found : ∃ d, (List.range mostDigits).findSome? (fun n =>
      shortestAt (.ofDouble m q) (magnitude m q) (n + 1)) = some d := by
    rw [← Option.isSome_iff_exists, ← Option.ne_none_iff_isSome]
    intro none
    rw [List.findSome?_eq_none_iff] at none
    exact shortestAt_most_ne_none canonical pos (none 16 (List.mem_range.mpr (by decide)))
  obtain ⟨d, found⟩ := found
  have shortest : shortest m q = d := by
    simp only [shortest]
    rw [found, Option.getD_some]
  obtain ⟨n, _, found⟩ := List.exists_of_findSome?_eq_some found
  rw [shortest, ← contains_iff pos]
  exact contains_of_shortestAt found

theorem value_shortest_pos (canonical : Canonical m q) (pos : 0 < m) : 0 < (shortest m q).value :=
  (shortest_readsBack canonical pos).pos pos

/-- The value that is written for a double: zero, or that of its shortest decimal. -/
def writtenValue (m : Nat) (q : Int) : ℚ := if m = 0 then 0 else (shortest m q).value

/-- A double is known by the value that is written for it. -/
theorem writtenValue_injective (canonical : Canonical m q) (canonical' : Canonical n p)
    (same : writtenValue m q = writtenValue n p) : m = n ∧ q = p := by
  unfold writtenValue at same
  rcases Nat.eq_zero_or_pos m with rfl | pos <;> rcases Nat.eq_zero_or_pos n with rfl | pos'
  · exact ⟨rfl, canonical.exponent_zero.trans canonical'.exponent_zero.symm⟩
  · rw [if_pos rfl, if_neg pos'.ne'] at same
    exact absurd same (value_shortest_pos canonical' pos').ne
  · rw [if_pos rfl, if_neg pos.ne'] at same
    exact absurd same (value_shortest_pos canonical pos).ne'
  · rw [if_neg pos.ne', if_neg pos'.ne'] at same
    exact (shortest_readsBack canonical pos).unique (same ▸ shortest_readsBack canonical' pos')
      canonical canonical'

end ComplexScript.Double
