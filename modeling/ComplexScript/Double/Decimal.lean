import ComplexScript.Double.Exact
set_option autoImplicit false

/-!
# Doubles in decimal

A double is written with the fewest digits that read back as it.  The decimals that read back are
those in its rounding interval: from half way to the double below to half way to the double above,
the ends included when the significand is even.  For one digit, two digits and so on the two
decimals next to the double are tried; the first that lie in the interval win, of two the nearer,
and of two equally near the one of greater magnitude.

How the digits are laid out is decided in one place, `numberLayout`.
-/

namespace ComplexScript.Double

/-- The number `significand * 10 ^ exponent`. -/
structure Decimal where
  significand : Nat
  exponent : Int
  deriving DecidableEq, Repr, Inhabited

/-! ## Exact comparison -/

/-- The fraction `numerator / denominator`; the denominator is never zero here. -/
structure Ratio where
  numerator : Nat
  denominator : Nat
  deriving DecidableEq, Repr, Inhabited

namespace Ratio

/-- Whether one fraction is below another. -/
def less (a b : Ratio) : Bool := a.numerator * b.denominator < b.numerator * a.denominator

/-- Whether one fraction is no greater than another. -/
def atMost (a b : Ratio) : Bool := a.numerator * b.denominator ≤ b.numerator * a.denominator

/-- The multiple `n * base ^ exponent` of a power, exactly. -/
def ofPower (n base : Nat) (exponent : Int) : Ratio :=
  if 0 ≤ exponent then ⟨n * Nat.pow base exponent.toNat, 1⟩
  else ⟨n, Nat.pow base (-exponent).toNat⟩

end Ratio

/-- The value of a decimal. -/
def Decimal.ratio (d : Decimal) : Ratio := .ofPower d.significand 10 d.exponent

/-! ## The rounding interval -/

/-- The decimals that read back as one positive double. -/
structure Interval where
  /-- The double itself. -/
  center : Ratio
  /-- Half way to the double below. -/
  lower : Ratio
  /-- Half way to the double above. -/
  upper : Ratio
  /-- Whether the two ends read back as the double. -/
  closed : Bool
  deriving DecidableEq, Repr, Inhabited

namespace Interval

/-- The interval of `m * 2 ^ q`.  In units of a quarter gap the double is `4 * m` and the upper end
two units above; the lower end is two units below, or one where the gap below is half as wide. -/
def ofDouble (m : Nat) (q : Int) : Interval :=
  let below := if m = hiddenBit ∧ leastExponent < q then 1 else 2
  { center := .ofPower (4 * m) 2 (q - 2)
    lower := .ofPower (4 * m - below) 2 (q - 2)
    upper := .ofPower (4 * m + 2) 2 (q - 2)
    closed := m % 2 == 0 }

/-- Whether a decimal reads back as the double. -/
def contains (i : Interval) (d : Decimal) : Bool :=
  if i.closed then i.lower.atMost d.ratio && d.ratio.atMost i.upper
  else i.lower.less d.ratio && d.ratio.less i.upper

end Interval

/-! ## The fewest digits -/

/-- The number of digits that the whole part of `m * 2 ^ q` has, counted as a power of ten: the
least `k` with `m * 2 ^ q < 10 ^ k`.  The binary logarithm gives it up to one or two. -/
def magnitude (m : Nat) (q : Int) : Int :=
  let value := Ratio.ofPower m 2 q
  let estimate := (q + m.log2) * 30103 / 100000
  if value.less (.ofPower 1 10 estimate) then estimate
  else if value.less (.ofPower 1 10 (estimate + 1)) then estimate + 1
  else estimate + 2

/-- The decimal just below a fraction (or equal to it) on the grid of the multiples of
`10 ^ exponent`. -/
def gridBelow (r : Ratio) (exponent : Int) : Decimal :=
  if 0 ≤ exponent then ⟨r.numerator / (r.denominator * Nat.pow 10 exponent.toNat), exponent⟩
  else ⟨r.numerator * Nat.pow 10 (-exponent).toNat / r.denominator, exponent⟩

/-- The nearer of two decimals around a fraction; the upper one of two equally near. -/
def nearer (r : Ratio) (low high : Decimal) : Decimal :=
  -- twice the fraction against the sum of the two, on their grid
  let middle := Decimal.mk (low.significand + high.significand) low.exponent
  if (Ratio.mk (2 * r.numerator) r.denominator).less middle.ratio then low else high

/-- The decimals with `n` digits next to the double, tried in its interval. -/
def shortestAt (i : Interval) (k : Int) (n : Nat) : Option Decimal :=
  let low := gridBelow i.center (k - n)
  let high := { low with significand := low.significand + 1 }
  match i.contains low, i.contains high with
  | true, true => some (nearer i.center low high)
  | true, false => some low
  | false, true => some high
  | false, false => none

/-- Seventeen digits tell all doubles apart. -/
def mostDigits : Nat := 17

/-- The shortest decimal that reads back as `m * 2 ^ q`. -/
def shortest (m : Nat) (q : Int) : Decimal :=
  let i := Interval.ofDouble m q
  let k := magnitude m q
  ((List.range mostDigits).findSome? fun n => shortestAt i k (n + 1)).getD
    (gridBelow i.center (k - mostDigits))

/-! ## Layout -/

/-- How decimals are laid out. -/
structure Layout where
  /-- Decimals with fewer zeros than this between the point and the first digit are positional. -/
  leadingZeros : Nat
  /-- Decimals with no more digits than this before the point are positional. -/
  wholeDigits : Nat
  /-- The mark before the exponent of the others. -/
  exponentMark : Char
  /-- The text of what is no number. -/
  nan : String
  /-- The text of the infinities, without sign. -/
  infinity : String
  deriving DecidableEq, Repr, Inhabited

/-- Numbers from 0.0001 up to below ten to the sixteenth are positional, with a digit on both sides
of the point; the others have one digit before the point and an exponent after `e`. -/
def numberLayout : Layout :=
  { leadingZeros := 4, wholeDigits := 16, exponentMark := 'e', nan := "NaN", infinity := "inf" }

/-- The decimal digits of a number, first digit first. -/
def digits (n : Nat) : List Char := Nat.toDigits 10 n

/-- Drop the zeros at the end. -/
def dropZeros (cs : List Char) : List Char := (cs.reverse.dropWhile (· = '0')).reverse

namespace Layout

/-- Lay out the digits of a number so that the point stands after the first `point` of them, with
at least one digit on both sides. -/
def positional (cs : List Char) (point : Int) : List Char :=
  if point ≤ 0 then '0' :: '.' :: (List.replicate (-point).toNat '0' ++ cs)
  else
    let whole := cs.take point.toNat
    let fraction := cs.drop point.toNat
    whole ++ List.replicate (point.toNat - cs.length) '0' ++
      '.' :: (if fraction.isEmpty then ['0'] else fraction)

/-- Lay out an integer. -/
def integer (n : Int) : List Char :=
  if n < 0 then '-' :: digits n.natAbs else digits n.natAbs

/-- Lay out the digits of a number with one of them before the point, and the power of ten that
this takes. -/
def scientific (l : Layout) (cs : List Char) (point : Int) : List Char :=
  let mantissa :=
    match cs with
    | first :: rest@(_ :: _) => first :: '.' :: rest
    | cs => cs
  mantissa ++ l.exponentMark :: integer (point - 1)

/-- Lay out a decimal that is not zero. -/
def decimal (l : Layout) (d : Decimal) : List Char :=
  let all := digits d.significand
  let point := all.length + d.exponent
  let cs := dropZeros all
  if -(l.leadingZeros : Int) < point ∧ point ≤ l.wholeDigits then positional cs point
  else l.scientific cs point

/-- Write what a double denotes. -/
def view (l : Layout) : View → List Char
  | .nan => l.nan.toList
  | .infinite negative => (if negative then ['-'] else []) ++ l.infinity.toList
  | .finite negative m q =>
    (if negative then ['-'] else []) ++
      if m = 0 then positional ['0'] 1 else l.decimal (shortest m q)

end Layout

/-- The text of a double. -/
def text (x : Float) : String := String.ofList (numberLayout.view (view x))

end ComplexScript.Double
