import ComplexScript.Number.Value
set_option autoImplicit false

/-!
# Numbers without an infinite part

A number is built by a check that compares its parts with the infinities, and that check is exact
(`isInf_iff`): it lets a number through exactly when no part is an infinity, and else it is an
overflow or an underflow (`Number.ofParts_eq`).  So every operator gives a bounded number or a
fault, whatever its operands are (`Number.bounded_of_apply`), and it is one of those two faults when
a part that it computes is an infinity (`Number.apply_out_of_range`).
-/

namespace ComplexScript

open ComplexScript.Program

/-! ## The check of a part -/

theorem unpack_infinity : infinity.toModel.unpack = .infinity .positive := by rfl

theorem unpack_neg_infinity : (-infinity).toModel.unpack = .infinity .negative := by rfl

/-- A double is an infinity exactly if it compares equal to one. -/
theorem isInf_iff (x : Float) :
    x.isInf = true ↔ (x == infinity) = true ∨ (x == -infinity) = true := by
  show x.toModel.unpack.isInf = true ↔ x.toModel.unpack.beq infinity.toModel.unpack = true ∨
    x.toModel.unpack.beq (-infinity).toModel.unpack = true
  rw [unpack_infinity, unpack_neg_infinity]
  rcases x.toModel.unpack with (_ | _) | _ | (_ | _) | ⟨_ | _, m, e, positive⟩
  case finite.negative | finite.positive => exact ⟨nofun, fun h => h.elim nofun nofun⟩
  all_goals decide

/-- The faults of a result that is too great. -/
def ArithmeticFault.OutOfRange (f : ArithmeticFault) : Prop := f = .overflow ∨ f = .underflow

theorem checkPart_of_isInf {x : Float} (h : x.isInf = true) :
    ∃ f, checkPart x = .error f ∧ f.OutOfRange := by
  unfold checkPart
  split
  · exact ⟨_, rfl, .inl rfl⟩
  · next notPositive =>
    rw [if_pos ((isInf_iff x).mp h |>.resolve_left notPositive)]
    exact ⟨_, rfl, .inr rfl⟩

theorem checkPart_of_not_isInf {x : Float} (h : x.isInf = false) : checkPart x = .ok x := by
  have neither := not_or.mp (mt (isInf_iff x).mpr (Bool.eq_false_iff.mp h))
  rw [checkPart, if_neg neither.1, if_neg neither.2]

/-! ## The check of a number -/

namespace Number

/-- Neither part is an infinity.  A part may be no number. -/
structure Bounded (z : Number) : Prop where
  re : z.re.isInf = false
  im : z.im.isInf = false

instance (z : Number) : Decidable z.Bounded :=
  decidable_of_iff (z.re.isInf = false ∧ z.im.isInf = false)
    ⟨fun h => ⟨h.1, h.2⟩, fun h => ⟨h.1, h.2⟩⟩

theorem bounded_zero : zero.Bounded := by decide +kernel

theorem bounded_one : one.Bounded := by decide +kernel

theorem bounded_ofBool (b : Bool) : (ofBool b).Bounded := by
  cases b
  · exact bounded_zero
  · exact bounded_one

section

variable {re im : Float}

/-- A number is built as it is asked for if it is bounded. -/
theorem ofParts_of_bounded (h : Bounded ⟨re, im⟩) : ofParts re im = .ok ⟨re, im⟩ := by
  rw [ofParts, checkPart_of_not_isInf h.re, checkPart_of_not_isInf h.im]

/-- A number that is not bounded is not built. -/
theorem ofParts_of_not_bounded (h : ¬ Bounded ⟨re, im⟩) :
    ∃ f, ofParts re im = .error f ∧ f.OutOfRange := by
  unfold ofParts
  cases infRe : re.isInf with
  | true =>
    obtain ⟨f, failed, range⟩ := checkPart_of_isInf infRe
    exact ⟨f, by rw [failed], range⟩
  | false =>
    have infIm : im.isInf = true := by
      rw [← Bool.not_eq_false]
      exact fun bounded => h ⟨infRe, bounded⟩
    obtain ⟨f, failed, range⟩ := checkPart_of_isInf infIm
    exact ⟨f, by rw [failed, checkPart_of_not_isInf infRe], range⟩

theorem bounded_of_ofParts {z : Number} (h : ofParts re im = .ok z) : z.Bounded := by
  by_cases bounded : Bounded ⟨re, im⟩
  · cases (ofParts_of_bounded bounded).symm.trans h
    exact bounded
  · obtain ⟨f, failed, _⟩ := ofParts_of_not_bounded bounded
    cases failed.symm.trans h

end

/-! ## Operators -/

/-- The product before it is checked. -/
def product (z w : Number) : Number :=
  ⟨z.re * w.re - z.im * w.im, z.re * w.im + z.im * w.re⟩

/-- The numbers that an operator computes before they are checked, its result last.  A quotient is
computed from the product with the conjugate; comparisons and connectives compute none. -/
def computed : Operator → Number → Number → List Number
  | .add, z, w => [⟨z.re + w.re, z.im + w.im⟩]
  | .subtract, z, w => [⟨z.re - w.re, z.im - w.im⟩]
  | .multiply, z, w => [product z w]
  | .divide, z, w =>
    let n := product z w.conj
    let d := w.re * w.re + w.im * w.im
    [n, ⟨n.re / d, n.im / d⟩]
  | .modulo, z, w => [⟨Double.remainder z.re w.re, 0.0⟩]
  | .power, z, w => [⟨z.re.pow w.re, 0.0⟩]
  | _, _, _ => []

/-- The operators that have no result for a divisor that is zero. -/
def Divides (op : Operator) : Prop := op = .divide ∨ op = .modulo

/-- Whatever an operator is applied to, its result is bounded. -/
theorem bounded_of_apply {op : Operator} {z w v : Number} (h : z.apply op w = .ok v) :
    v.Bounded := by
  cases op with
  | add | subtract | multiply | power => exact bounded_of_ofParts h
  | divide =>
    simp only [apply, div] at h
    split at h
    · cases h
    split at h
    · cases h
    · exact bounded_of_ofParts h
  | modulo =>
    simp only [apply, rem] at h
    split at h
    · cases h
    · exact bounded_of_ofParts h
  | _ =>
    cases h
    exact bounded_ofBool _

/-- An operator that computes an infinite part gives an overflow or an underflow. -/
theorem apply_out_of_range {op : Operator} {z w : Number}
    (divisor : Divides op → w.equal zero = false) (h : ∃ v ∈ computed op z w, ¬ v.Bounded) :
    ∃ f, z.apply op w = .error f ∧ f.OutOfRange := by
  obtain ⟨v, mem, unbounded⟩ := h
  cases op with
  | add | subtract | multiply | power =>
    obtain rfl := List.mem_singleton.mp mem
    exact ofParts_of_not_bounded unbounded
  | divide =>
    simp only [apply, div, divisor (.inl rfl), Bool.false_eq_true, if_false]
    by_cases product : (product z w.conj).Bounded
    · have quotient := (List.mem_cons.mp mem).resolve_left fun same => unbounded (same ▸ product)
      obtain rfl := List.mem_singleton.mp quotient
      have built : z.mul w.conj = .ok _ := ofParts_of_bounded product
      rw [built]
      exact ofParts_of_not_bounded unbounded
    · obtain ⟨f, failed, range⟩ := ofParts_of_not_bounded product
      have failed : z.mul w.conj = .error f := failed
      rw [failed]
      exact ⟨f, rfl, range⟩
  | modulo =>
    simp only [apply, rem, divisor (.inr rfl), Bool.false_eq_true, if_false]
    obtain rfl := List.mem_singleton.mp mem
    exact ofParts_of_not_bounded unbounded
  | _ => cases mem

end Number

/-! ## Values -/

/-- The number of a value, if it has one, is bounded. -/
def Value.Bounded (v : Value) : Prop := ∀ z, v.number? = some z → z.Bounded

namespace Value

variable {v l r : Value} {op : Operator}

theorem bounded_number {z : Number} (h : z.Bounded) : (number z).Bounded := by
  rintro _ ⟨⟩
  exact h

theorem bounded_none : none.Bounded := nofun

theorem Bounded.numberOrZero (h : v.Bounded) : v.numberOrZero.Bounded := by
  cases v with
  | number z => exact h z rfl
  | none => exact Number.bounded_zero

theorem bounded_negate (v : Value) : v.negate.Bounded := by
  cases v with
  | number z => exact bounded_number (Number.bounded_ofBool _)
  | none => exact bounded_none

theorem bounded_of_binary (left : l.Bounded) (h : binary op l r = .ok v) : v.Bounded := by
  cases l with
  | none =>
    rw [binary_none_left] at h
    cases h
    exact bounded_none
  | number z =>
    cases r with
    | none =>
      cases h
      unfold withoutRight
      split
      case h_7 => exact bounded_number (Number.bounded_ofBool _)
      case h_8 => exact bounded_none
      all_goals exact left
    | number w =>
      rw [binary] at h
      cases applied : z.apply op w with
      | ok u =>
        rw [applied] at h
        cases h
        exact bounded_number (Number.bounded_of_apply applied)
      | error f =>
        rw [applied] at h
        cases h

end Value

end ComplexScript
