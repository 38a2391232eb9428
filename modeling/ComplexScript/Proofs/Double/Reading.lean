import Mathlib.Data.List.DropRight
import Mathlib.Tactic.Ring
import ComplexScript.Proofs.Double.Ratios
set_option autoImplicit false

/-!
# Reading decimals back

A decimal is read by its digits, the places after its point and its exponent (`reading`).  However a
decimal is laid out, what is read is its value (`reading_decimal`): the zeros that are dropped or
filled in count nothing, and the point and the exponent make up for each other.
-/

namespace ComplexScript.Double

variable {cs ds whole fraction : List Char} {point exponent : Int}

/-! ## Reading -/

/-- The integer that a text spells, with its sign. -/
def integerOf : List Char → Int
  | '-' :: ds => -(Nat.ofDigitChars 10 ds 0)
  | ds => Nat.ofDigitChars 10 ds 0

/-- The number that digits with a point spell, moved by a power of ten. -/
def scaled (cs : List Char) (exponent : Int) : ℚ :=
  let fraction := (cs.dropWhile (· ≠ '.')).tail
  Nat.ofDigitChars 10 (cs.takeWhile (· ≠ '.') ++ fraction) 0 * 10 ^ (exponent - fraction.length)

/-- The number that a text without sign spells. -/
def reading (cs : List Char) : ℚ :=
  scaled (cs.takeWhile (· ≠ 'e')) (integerOf (cs.dropWhile (· ≠ 'e')).tail)

/-- All characters are digits. -/
def AllDigits (cs : List Char) : Prop := ∀ c ∈ cs, c.isDigit = true

theorem AllDigits.not_mem {c : Char} (h : AllDigits cs) (other : c.isDigit = false) : c ∉ cs :=
  fun mem => Bool.false_ne_true (other.symm.trans (h c mem))

theorem AllDigits.append (h : AllDigits cs) (h' : AllDigits ds) : AllDigits (cs ++ ds) :=
  List.forall_mem_append.mpr ⟨h, h'⟩

theorem allDigits_zeros (n : Nat) : AllDigits (List.replicate n '0') := by
  intro c mem
  rw [List.eq_of_mem_replicate mem]
  rfl

/-! ## Cutting a text at a mark -/

section

variable {a : Char}

theorem takeWhile_ne (h : a ∉ cs) : cs.takeWhile (· ≠ a) = cs ∧ cs.dropWhile (· ≠ a) = [] := by
  have all : ∀ c ∈ cs, decide (c ≠ a) = true := by
    intro c mem
    exact decide_eq_true fun same => h (same ▸ mem)
  exact ⟨List.takeWhile_eq_self_iff.mpr all, List.dropWhile_eq_nil_iff.mpr all⟩

theorem takeWhile_ne_append (h : a ∉ cs) (ds : List Char) :
    (cs ++ a :: ds).takeWhile (· ≠ a) = cs ∧ (cs ++ a :: ds).dropWhile (· ≠ a) = a :: ds := by
  have all : ∀ c ∈ cs, decide (c ≠ a) = true := by
    intro c mem
    exact decide_eq_true fun same => h (same ▸ mem)
  rw [List.takeWhile_append_of_pos all, List.dropWhile_append_of_pos all]
  simp

end

theorem scaled_whole (h : AllDigits whole) :
    scaled whole exponent = Nat.ofDigitChars 10 whole 0 * 10 ^ exponent := by
  obtain ⟨all, none⟩ := takeWhile_ne (h.not_mem (c := '.') rfl)
  rw [scaled, all, none]
  simp

theorem scaled_fraction (h : AllDigits whole) (fraction : List Char) :
    scaled (whole ++ '.' :: fraction) exponent =
      Nat.ofDigitChars 10 (whole ++ fraction) 0 * 10 ^ (exponent - fraction.length) := by
  obtain ⟨first, rest⟩ := takeWhile_ne_append (h.not_mem (c := '.') rfl) fraction
  rw [scaled, first, rest]
  rfl

theorem reading_plain (h : 'e' ∉ cs) : reading cs = scaled cs 0 := by
  obtain ⟨all, none⟩ := takeWhile_ne h
  rw [reading, all, none]
  rfl

theorem reading_exponent (h : 'e' ∉ cs) (ds : List Char) :
    reading (cs ++ 'e' :: ds) = scaled cs (integerOf ds) := by
  obtain ⟨first, rest⟩ := takeWhile_ne_append h ds
  rw [reading, first, rest]
  rfl

/-! ## Digits -/

theorem allDigits_digits (n : Nat) : AllDigits (digits n) := fun _ mem =>
  Nat.isDigit_of_mem_toDigits (by decide) (by decide) mem

theorem ofDigitChars_digits (n : Nat) : Nat.ofDigitChars 10 (digits n) 0 = n :=
  Nat.ofDigitChars_ten_toDigits

theorem integerOf_integer (n : Int) : integerOf (Layout.integer n) = n := by
  unfold Layout.integer
  split
  · next negative =>
    rw [integerOf, ofDigitChars_digits]
    omega
  · next nonneg =>
    have unsigned : integerOf (digits n.natAbs) = Nat.ofDigitChars 10 (digits n.natAbs) 0 := by
      have notMinus : '-' ∉ digits n.natAbs := (allDigits_digits _).not_mem rfl
      unfold integerOf
      split
      · next same =>
        rw [same] at notMinus
        exact absurd List.mem_cons_self notMinus
      · rfl
    rw [unsigned, ofDigitChars_digits]
    omega

/-- Zeros at the end shift the digits before them. -/
theorem ofDigitChars_append_zeros (cs : List Char) (n : Nat) :
    Nat.ofDigitChars 10 (cs ++ List.replicate n '0') 0 = 10 ^ n * Nat.ofDigitChars 10 cs 0 := by
  rw [Nat.ofDigitChars_append, Nat.ofDigitChars_replicate_zero]

/-- A power of ten makes up for that. -/
theorem shifted_mul_zpow (n k : Nat) (e : Int) :
    ((10 ^ n * k : Nat) : ℚ) * 10 ^ e = k * 10 ^ (n + e) := by
  rw [zpow_add₀ (by norm_num), zpow_natCast]
  push_cast
  ring

/-- Zeros at the beginning count nothing. -/
theorem ofDigitChars_zeros_append (n : Nat) (cs : List Char) :
    Nat.ofDigitChars 10 (List.replicate n '0' ++ cs) 0 = Nat.ofDigitChars 10 cs 0 := by
  rw [Nat.ofDigitChars_append, Nat.ofDigitChars_replicate_zero, Nat.mul_zero]

/-- What is dropped are zeros at the end. -/
theorem exists_zeros (cs : List Char) : ∃ n, cs = dropZeros cs ++ List.replicate n '0' := by
  have zeros : cs.rtakeWhile (· = '0') = List.replicate (cs.rtakeWhile (· = '0')).length '0' :=
    List.eq_replicate_of_mem fun c mem => by simpa using List.mem_rtakeWhile_imp mem
  refine ⟨(cs.rtakeWhile (· = '0')).length, ?_⟩
  rw [← zeros]
  exact List.rdropWhile_append_rtakeWhile.symm

/-! ## Layouts -/

/-- A digit or the point. -/
def isPlain (c : Char) : Bool := c.isDigit || c = '.'

/-- All characters are digits or the point. -/
def AllPlain (cs : List Char) : Prop := ∀ c ∈ cs, isPlain c = true

theorem AllDigits.plain (h : AllDigits cs) : AllPlain cs := by
  intro c mem
  rw [isPlain, h c mem, Bool.true_or]

theorem AllPlain.not_mem {c : Char} (h : AllPlain cs) (other : isPlain c = false) : c ∉ cs :=
  fun mem => Bool.false_ne_true (other.symm.trans (h c mem))

/-- Digits on both sides of a point. -/
theorem allPlain_pointed (h : AllDigits whole) (h' : AllDigits fraction) :
    AllPlain (whole ++ '.' :: fraction) :=
  List.forall_mem_append.mpr ⟨h.plain, List.forall_mem_cons.mpr ⟨rfl, h'.plain⟩⟩

section

variable {n : Nat}

/-- Up to the point there is one zero. -/
theorem positional_neg (cs : List Char) (n : Nat) :
    Layout.positional cs (-n) = ['0'] ++ '.' :: (List.replicate n '0' ++ cs) := by
  rw [Layout.positional, if_pos (by omega), Int.neg_neg, Int.toNat_natCast]
  rfl

/-- The point stands between two of the digits. -/
theorem positional_within (pos : 0 < n) (short : n < cs.length) :
    Layout.positional cs n = cs.take n ++ '.' :: cs.drop n := by
  have some : cs.drop n ≠ [] := by
    rw [Ne, List.drop_eq_nil_iff]
    omega
  simp only [Layout.positional]
  rw [if_neg (by omega), Int.toNat_natCast, Nat.sub_eq_zero_of_le short.le,
    if_neg (by simpa using some)]
  simp

/-- Zeros fill up to the point, and one more stands after it. -/
theorem positional_beyond (pos : 0 < cs.length + n) :
    Layout.positional cs ((cs.length + n : Nat) : Int) =
      cs ++ List.replicate n '0' ++ '.' :: ['0'] := by
  have long : cs.length ≤ cs.length + n := Nat.le_add_right _ _
  simp only [Layout.positional]
  rw [if_neg (by omega), Int.toNat_natCast, List.take_of_length_le long,
    List.drop_of_length_le long, Nat.add_sub_cancel_left]
  rfl

end

/-- A positional layout has its point between digits, so many places from the end as make up for
where the point belongs. -/
theorem positional_cases (h : AllDigits cs) (point : Int) :
    ∃ whole fraction, Layout.positional cs point = whole ++ '.' :: fraction ∧ AllDigits whole ∧
      AllDigits fraction ∧ whole ≠ [] ∧
      (Nat.ofDigitChars 10 (whole ++ fraction) 0 : ℚ) * 10 ^ (0 - (fraction.length : Int)) =
        Nat.ofDigitChars 10 cs 0 * 10 ^ (point - cs.length) := by
  rcases le_or_gt point 0 with before | inside
  · obtain ⟨n, rfl⟩ := Int.exists_eq_neg_ofNat before
    refine ⟨_, _, positional_neg cs n, allDigits_zeros 1, (allDigits_zeros n).append h, nofun, ?_⟩
    have digits : Nat.ofDigitChars 10 (['0'] ++ (List.replicate n '0' ++ cs)) 0 =
        Nat.ofDigitChars 10 cs 0 := ofDigitChars_zeros_append (n + 1) cs
    rw [digits, List.length_append, List.length_replicate]
    congr 2
    omega
  obtain ⟨n, rfl⟩ := Int.eq_ofNat_of_zero_le inside.le
  have pos : 0 < n := Int.natCast_pos.mp inside
  rcases Nat.lt_or_ge n cs.length with short | long
  · refine ⟨_, _, positional_within pos short, fun c mem => h c (List.mem_of_mem_take mem),
      fun c mem => h c (List.mem_of_mem_drop mem), ?_, ?_⟩
    · rw [Ne, List.take_eq_nil_iff]
      rintro (rfl | rfl)
      · exact Nat.lt_irrefl 0 pos
      · exact Nat.not_lt_zero n short
    · rw [List.take_append_drop, List.length_drop, Nat.cast_sub short.le]
      congr 2
      omega
  · obtain ⟨k, rfl⟩ := Nat.exists_eq_add_of_le long
    refine ⟨_, _, positional_beyond pos, h.append (allDigits_zeros k), allDigits_zeros 1, ?_, ?_⟩
    · rw [← List.length_pos_iff, List.length_append, List.length_replicate]
      exact pos
    · have zeros : cs ++ List.replicate k '0' ++ ['0'] = cs ++ List.replicate (k + 1) '0' := by
        rw [List.append_assoc, List.replicate_succ']
      rw [zeros, ofDigitChars_append_zeros, shifted_mul_zpow, List.length_singleton]
      congr 2
      omega

theorem reading_positional (h : AllDigits cs) (point : Int) :
    reading (Layout.positional cs point) =
      Nat.ofDigitChars 10 cs 0 * 10 ^ (point - cs.length) := by
  obtain ⟨whole, fraction, laid, digits, digits', _, value⟩ := positional_cases h point
  have plain : AllPlain (whole ++ '.' :: fraction) := allPlain_pointed digits digits'
  rw [laid, reading_plain (plain.not_mem rfl), scaled_fraction digits, value]

/-- A scientific layout has digits with a point before the mark, the first one in front of it, and
the power of ten that makes up for that after it. -/
theorem scientific_cases (h : AllDigits cs) (some : cs ≠ []) (point : Int) :
    ∃ mantissa, numberLayout.scientific cs point =
        mantissa ++ 'e' :: Layout.integer (point - 1) ∧ AllPlain mantissa ∧ mantissa ≠ [] ∧
      scaled mantissa (point - 1) = Nat.ofDigitChars 10 cs 0 * 10 ^ (point - cs.length) := by
  match cs, some with
  | [first], _ => exact ⟨[first], rfl, h.plain, nofun, scaled_whole h⟩
  | first :: second :: rest, _ =>
    obtain ⟨whole, fraction⟩ := List.forall_mem_cons.mp h
    have whole : AllDigits [first] := List.forall_mem_singleton.mpr whole
    refine ⟨[first] ++ '.' :: second :: rest, rfl, allPlain_pointed whole fraction, nofun, ?_⟩
    rw [scaled_fraction whole, List.length_cons (a := first), Nat.cast_succ]
    congr 2
    omega

theorem reading_scientific (h : AllDigits cs) (some : cs ≠ []) (point : Int) :
    reading (numberLayout.scientific cs point) =
      Nat.ofDigitChars 10 cs 0 * 10 ^ (point - cs.length) := by
  obtain ⟨mantissa, laid, plain, _, value⟩ := scientific_cases h some point
  rw [laid, reading_exponent (plain.not_mem rfl), integerOf_integer, value]

/-! ## Decimals -/

/-- The digits of a decimal without the zeros at the end, and where the point belongs. -/
theorem exists_digits {d : Decimal} (pos : 0 < d.significand) :
    ∃ cs point, AllDigits cs ∧ cs ≠ [] ∧
      (numberLayout.decimal d = Layout.positional cs point ∨
        numberLayout.decimal d = numberLayout.scientific cs point) ∧
      (Nat.ofDigitChars 10 cs 0 : ℚ) * 10 ^ (point - (cs.length : Int)) = d.value := by
  obtain ⟨n, zeros⟩ := exists_zeros (digits d.significand)
  have value : d.significand =
      10 ^ n * Nat.ofDigitChars 10 (dropZeros (digits d.significand)) 0 := by
    rw [← ofDigitChars_append_zeros, ← zeros, ofDigitChars_digits]
  have length : (digits d.significand).length = (dropZeros (digits d.significand)).length + n := by
    rw [← List.length_replicate (n := n) (a := '0'), ← List.length_append, ← zeros]
  refine ⟨dropZeros (digits d.significand), (digits d.significand).length + d.exponent, ?_, ?_, ?_,
    ?_⟩
  · intro c mem
    refine allDigits_digits d.significand c ?_
    rw [zeros]
    exact List.mem_append_left _ mem
  · intro none
    rw [none] at value
    exact absurd value pos.ne'
  · simp only [Layout.decimal]
    split
    · exact .inl rfl
    · exact .inr rfl
  · have exponent : ((digits d.significand).length : Int) + d.exponent -
        (dropZeros (digits d.significand)).length = n + d.exponent := by omega
    rw [exponent, ← shifted_mul_zpow, ← value, Decimal.value]

/-- What is read of a decimal is its value. -/
theorem reading_decimal {d : Decimal} (pos : 0 < d.significand) :
    reading (numberLayout.decimal d) = d.value := by
  obtain ⟨cs, point, digits, some, laid, value⟩ := exists_digits pos
  rcases laid with laid | laid
  · rw [laid, reading_positional digits, value]
  · rw [laid, reading_scientific digits some, value]

end ComplexScript.Double
