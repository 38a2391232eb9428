import ComplexScript.Number.Basic
import ComplexScript.Program.Operator
set_option autoImplicit false

/-!
# Values

A value is a number or nothing: statements such as a conditional, and functions that end without
a result, give nothing.  Nothing has its own rules under the operators: on the left it stays
nothing, on the right it leaves the other operand of an arithmetic operator as it is.
-/

namespace ComplexScript

open ComplexScript.Program

/-- The result of a binary operator on two numbers. -/
def Number.apply (op : Operator) (z w : Number) : Except ArithmeticFault Number :=
  match op with
  | .add => z.add w
  | .subtract => z.sub w
  | .multiply => z.mul w
  | .divide => z.div w
  | .modulo => z.rem w
  | .power => z.pow w
  | .and => .ok (.ofBool (z.isTruthy && w.isTruthy))
  | .or => .ok (.ofBool (z.isTruthy || w.isTruthy))
  | .less => .ok (.ofBool (z.re < w.re))
  | .lessOrEqual => .ok (.ofBool (z.re ≤ w.re))
  | .greater => .ok (.ofBool (w.re < z.re))
  | .greaterOrEqual => .ok (.ofBool (w.re ≤ z.re))
  | .equal => .ok (.ofBool (z.equal w))
  | .notEqual => .ok (.ofBool (!z.equal w))

/-- What evaluation yields. -/
inductive Value where
  /-- a number -/
  | number (z : Number)
  /-- no value -/
  | none
  deriving DecidableEq, Repr, Inhabited

namespace Value

/-- The number of a value, if it has one. -/
def number? : Value → Option Number
  | .number z => some z
  | .none => Option.none

/-- The number that a value counts as where one is needed: nothing counts as zero. -/
def numberOrZero (v : Value) : Number := v.number?.getD .zero

/-- Nothing is not true. -/
def isTruthy : Value → Bool
  | .number z => z.isTruthy
  | .none => false

/-- Logical negation; nothing stays nothing. -/
def negate : Value → Value
  | .number z => .number (.ofBool !z.isTruthy)
  | .none => .none

/-- Equality of values; nothing equals nothing. -/
def equal : Value → Value → Bool
  | .number z, .number w => z.equal w
  | .none, .none => true
  | _, _ => false

/-- What an operator gives for a number on the left and nothing on the right. -/
def withoutRight (op : Operator) (z : Number) : Value :=
  match op with
  | .add | .subtract | .multiply | .divide | .modulo | .power => .number z
  | .and => .number (.ofBool z.isTruthy)
  | _ => .none

/-- The result of a binary operator. -/
def binary (op : Operator) : Value → Value → Except ArithmeticFault Value
  | .none, _ => .ok .none
  | .number z, .none => .ok (withoutRight op z)
  | .number z, .number w => (z.apply op w).map .number

/-- The text of a value. -/
def render : Value → String
  | .number z => z.render
  | .none => "none"

@[simp] theorem binary_none_left (op : Operator) (v : Value) : binary op .none v = .ok .none := by
  cases v <;> rfl

end Value

end ComplexScript
