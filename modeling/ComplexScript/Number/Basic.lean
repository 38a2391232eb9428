import ComplexScript.Double.Decimal
set_option autoImplicit false

/-!
# Complex numbers

Every number of the language is complex, with two doubles as its parts.  No part is ever infinite:
`ofParts` is the only way results are built, and an infinite part is a fault there (`checkPart`).  A
part can be no number, which compares unequal to everything.
-/

namespace ComplexScript

/-- Why an arithmetic operation has no result. -/
inductive ArithmeticFault where
  /-- a part would be positive infinity -/
  | overflow
  /-- a part would be negative infinity -/
  | underflow
  /-- the divisor is zero -/
  | divisionByZero
  deriving DecidableEq, Repr, Inhabited

/-- The message for an arithmetic fault. -/
def ArithmeticFault.message : ArithmeticFault → String
  | .overflow => "arithmetic overflow"
  | .underflow => "arithmetic underflow"
  | .divisionByZero => "division by zero"

/-- A complex number by its real and imaginary part. -/
structure Number where
  re : Float
  im : Float
  deriving DecidableEq, Repr, Inhabited

/-- Positive infinity, which is no part of a number. -/
def infinity : Float := 1.0 / 0.0

/-- Let a part pass unless it is infinite.  The sign of the infinity tells overflow from
underflow. -/
def checkPart (x : Float) : Except ArithmeticFault Float :=
  if x == infinity then .error .overflow
  else if x == -infinity then .error .underflow
  else .ok x

namespace Number

/-- The number with the given parts, the real part checked first. -/
def ofParts (re im : Float) : Except ArithmeticFault Number :=
  match checkPart re, checkPart im with
  | .ok re, .ok im => .ok ⟨re, im⟩
  | .error e, _ => .error e
  | .ok _, .error e => .error e

/-- A real number. -/
def ofReal (re : Float) : Except ArithmeticFault Number := ofParts re 0.0

/-- An imaginary number. -/
def ofImaginary (im : Float) : Except ArithmeticFault Number := ofParts 0.0 im

/-- Zero, which also stands for false. -/
def zero : Number := ⟨0.0, 0.0⟩

/-- One, which stands for true. -/
def one : Number := ⟨1.0, 0.0⟩

/-- The number that a truth value is written as. -/
def ofBool (b : Bool) : Number := if b then one else zero

/-- A number counts as true when its real part is positive. -/
def isTruthy (z : Number) : Bool := 0.0 < z.re

/-- Equality of numbers: of their parts, as doubles compare. -/
def equal (z w : Number) : Bool := z.re == w.re && z.im == w.im

/-- The conjugate. -/
def conj (z : Number) : Number := ⟨z.re, -z.im⟩

/-- The sum. -/
def add (z w : Number) : Except ArithmeticFault Number :=
  ofParts (z.re + w.re) (z.im + w.im)

/-- The difference. -/
def sub (z w : Number) : Except ArithmeticFault Number :=
  ofParts (z.re - w.re) (z.im - w.im)

/-- The product. -/
def mul (z w : Number) : Except ArithmeticFault Number :=
  ofParts (z.re * w.re - z.im * w.im) (z.re * w.im + z.im * w.re)

/-- The quotient: the product with the conjugate of the divisor, over the square of its size. -/
def div (z w : Number) : Except ArithmeticFault Number :=
  if w.equal zero then .error .divisionByZero
  else
    match z.mul w.conj with
    | .error e => .error e
    | .ok n =>
      let d := w.re * w.re + w.im * w.im
      ofParts (n.re / d) (n.im / d)

/-- The remainder of the real parts. -/
def rem (z w : Number) : Except ArithmeticFault Number :=
  if w.equal zero then .error .divisionByZero else ofReal (Double.remainder z.re w.re)

/-- The real part raised to the power of the other real part. -/
def pow (z w : Number) : Except ArithmeticFault Number := ofReal (z.re.pow w.re)

/-- The square root of the real part. -/
def sqrt (z : Number) : Except ArithmeticFault Number := ofReal z.re.sqrt

/-- The text of a number: the real part alone if the imaginary part is zero, the imaginary part
alone if the real part is, else both, with the sign of the imaginary part between them. -/
def render (z : Number) : String :=
  if z.im == 0.0 then Double.text z.re
  else if z.re == 0.0 then Double.text z.im ++ "i"
  else if z.im < 0.0 then Double.text z.re ++ "-" ++ Double.text (-z.im) ++ "i"
  else Double.text z.re ++ "+" ++ Double.text z.im ++ "i"

end Number

end ComplexScript
