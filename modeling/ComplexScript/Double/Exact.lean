set_option autoImplicit false

/-!
# Doubles as exact numbers

A finite double is a significand times a power of two.  `view` takes a double apart and `assemble`
puts one together, so that what has to be exact (the remainder, the floor, the decimal digits) is
done in integers.  The significand of a finite double is below `2 ^ 53` and its exponent at least
the exponent of the smallest double (`viewBits_finite`).
-/

namespace ComplexScript.Double

/-- What a double denotes. -/
inductive View where
  /-- no number -/
  | nan
  /-- an infinity, with its sign -/
  | infinite (negative : Bool)
  /-- `significand * 2 ^ exponent`, with its sign; zero has a sign too -/
  | finite (negative : Bool) (significand : Nat) (exponent : Int)
  deriving DecidableEq, Repr, Inhabited

/-- The exponent of the smallest double above zero. -/
def leastExponent : Int := -1074

/-- The significand of the doubles at a power of two, from which the gap downwards is half the gap
upwards. -/
def hiddenBit : Nat := Nat.pow 2 52

/-- Take apart the 64 bits of a double: a sign, 11 bits of exponent, 52 bits of fraction. -/
def viewBits (bits : Nat) : View :=
  let negative := bits / Nat.pow 2 63 % 2 == 1
  let biased : Nat := bits / Nat.pow 2 52 % Nat.pow 2 11
  let fraction := bits % Nat.pow 2 52
  if biased = 2047 then
    if fraction = 0 then .infinite negative else .nan
  else if biased = 0 then .finite negative fraction leastExponent
  else .finite negative (fraction + hiddenBit) (leastExponent + ((biased : Int) - 1))

/-- Take a double apart. -/
def view (x : Float) : View := viewBits x.toBits.toNat

/-- The 64 bits of `significand * 2 ^ exponent`, for a number that a double can hold with an
exponent no less than the least one. -/
def assembleBits (negative : Bool) (significand : Nat) (exponent : Int) : Nat :=
  let sign := if negative then Nat.pow 2 63 else 0
  let top := significand.log2
  let position := exponent + top - leastExponent
  if significand = 0 then sign
  else if position < 52 then sign + significand * Nat.pow 2 (exponent - leastExponent).toNat
  else
    let fraction :=
      if top ≤ 52 then significand * Nat.pow 2 (52 - top) else significand / Nat.pow 2 (top - 52)
    sign + (position - 51).toNat * Nat.pow 2 52 + (fraction - hiddenBit)

/-- Put a double together. -/
def assemble (negative : Bool) (significand : Nat) (exponent : Int) : Float :=
  Float.ofBits (UInt64.ofNat (assembleBits negative significand exponent))

/-- The remainder of a division that truncates, exact and with the sign of the dividend.  There is
none for an infinite dividend or a zero divisor, and an infinite divisor leaves the dividend. -/
def remainder (x y : Float) : Float :=
  match view x, view y with
  | .finite negative m q, .finite _ n p =>
    if n = 0 then 0.0 / 0.0
    else
      let e := min q p
      assemble negative (m * Nat.pow 2 (q - e).toNat % (n * Nat.pow 2 (p - e).toNat)) e
  | .finite .., .infinite _ => x
  | _, _ => 0.0 / 0.0

/-- The greatest whole number that is not above a double, with the sign of the double.  What is not
finite is left as it is, and so is what has no places after the point. -/
def floor (x : Float) : Float :=
  match view x with
  | .finite negative m q =>
    if 0 ≤ q then x
    else
      let unit := Nat.pow 2 (-q).toNat
      assemble negative (if negative then (m + (unit - 1)) / unit else m / unit) 0
  | _ => x

/-- The parts of a finite double are in range. -/
theorem viewBits_finite {bits : Nat} {negative : Bool} {m : Nat} {q : Int}
    (h : viewBits bits = .finite negative m q) : m < Nat.pow 2 53 ∧ leastExponent ≤ q := by
  have hf : bits % Nat.pow 2 52 < Nat.pow 2 52 := Nat.mod_lt _ (by decide)
  simp only [viewBits] at h
  split at h
  · split at h <;> cases h
  · split at h
    · cases h
      exact ⟨Nat.lt_trans hf (by decide), Int.le_refl _⟩
    · cases h
      constructor
      · have two : Nat.pow 2 53 = Nat.pow 2 52 + Nat.pow 2 52 := by decide
        unfold hiddenBit
        omega
      · omega

end ComplexScript.Double
