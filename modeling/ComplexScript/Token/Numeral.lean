import ComplexScript.Double.Exact
set_option autoImplicit false

/-!
# Number literals

A literal is written in one of four bases, with an optional fraction.  Its value is built up digit
by digit in doubles, from the first digit on: whole digits by `Base.extend`, fraction digits by
`Base.addPlaces`, and a fraction is rounded to as many decimal places as it was written with
(`roundHalfUp`).
-/

namespace ComplexScript.Token

/-- The value of a digit, letters going on after nine. -/
def digit? (c : Char) : Option Nat :=
  if '0' ≤ c ∧ c ≤ '9' then some (c.toNat - '0'.toNat)
  else if 'a' ≤ c ∧ c ≤ 'z' then some (c.toNat - 'a'.toNat + 10)
  else if 'A' ≤ c ∧ c ≤ 'Z' then some (c.toNat - 'A'.toNat + 10)
  else none

/-- The value of a digit, as a double. -/
def digitValue (c : Char) : Float := Float.ofNat ((digit? c).getD 0)

/-- The base of a literal. -/
inductive Base where
  | binary | octal | decimal | hexadecimal
  deriving DecidableEq, Repr, Inhabited

namespace Base

/-- The number of digits of a base. -/
def radix : Base → Nat
  | binary => 2
  | octal => 8
  | decimal => 10
  | hexadecimal => 16

/-- Whether a character is a digit of a base. -/
def isDigit (b : Base) (c : Char) : Bool :=
  match digit? c with
  | some d => d < b.radix
  | none => false

/-- What the first two characters of a literal say. -/
inductive Opening where
  /-- the literal is the zero alone -/
  | zero
  /-- the base, with the second character still to be read as part of the digits -/
  | plain (base : Base)
  /-- the base, marked by the second character -/
  | marked (base : Base)
  deriving DecidableEq, Repr, Inhabited

/-- The base of a literal.  After a leading zero the next character decides: `x` and `b` mark base
16 and 2, an octal digit means base 8, a point or the imaginary suffix base 10; before any other
character the literal is just zero. -/
def opening (first second : Char) : Opening :=
  if first = '0' then
    if second = 'x' then .marked hexadecimal
    else if second = 'b' then .marked binary
    else if octal.isDigit second then .plain octal
    else if second = '.' ∨ second = 'i' then .plain decimal
    else .zero
  else .plain decimal

/-- The value of more whole digits after `v`. -/
def extend (b : Base) (v : Float) (cs : List Char) : Float :=
  cs.foldl (fun v c => v * Float.ofNat b.radix + digitValue c) v

/-- The value of fraction digits after the whole part `v`: each is divided by its power of the
base, which is built up beside the sum. -/
def addPlaces (b : Base) (v : Float) (cs : List Char) : Float :=
  let radix := Float.ofNat b.radix
  (cs.foldl (fun (s : Float × Float) c => (s.1 + digitValue c / s.2, s.2 * radix)) (v, radix)).1

end Base

/-- Fractions with at least so many digits are left as they are. -/
def maxRoundedPlaces : Nat := 16

/-- Round to a number of decimal places, a half upwards; a value too great for it is left as it
is. -/
def roundHalfUp (v : Float) (places : Nat) : Float :=
  if places = 0 ∨ maxRoundedPlaces ≤ places then v
  else
    let scale := Float.ofNat (Nat.pow 10 places)
    let rounded := Double.floor (v * scale + 0.5) / scale
    if rounded.isFinite then rounded else v

@[simp] theorem Base.extend_nil (b : Base) (v : Float) : b.extend v [] = v := rfl

@[simp] theorem Base.extend_cons (b : Base) (v : Float) (c : Char) (cs : List Char) :
    b.extend v (c :: cs) = b.extend (v * Float.ofNat b.radix + digitValue c) cs := rfl

theorem Base.extend_append (b : Base) (v : Float) (cs ds : List Char) :
    b.extend v (cs ++ ds) = b.extend (b.extend v cs) ds := by
  simp [Base.extend]

end ComplexScript.Token
