import Mathlib.Data.Nat.Digits.Defs
import ComplexScript.Proofs.Number.Whole
import ComplexScript.Proofs.Token.Numerals
set_option autoImplicit false

/-!
# The values of whole literals

The value of a literal is built up in doubles, digit by digit.  Up to `2 ^ 53` this is exact
(`Base.holds_extend`), so a literal without a point has the value that its digits spell in its base
(`Base.value`), in whatever base and at whatever length it is written (`Scan.next_wholeLiteral`).
-/

namespace ComplexScript.Token

open ComplexScript.Text
open Double (Holds holds_ofNat)

namespace Base

variable {b : Base} {ds : List Char}

/-- The whole number that digits spell, the first one counting most. -/
def value (b : Base) (ds : List Char) : Nat :=
  Nat.ofDigits b.radix (ds.reverse.map fun d => (digit? d).getD 0)

/-- The digits that a whole literal has after its lead: some, unless a letter marks the base, and no
leading zero in a decimal. -/
structure Whole (b : Base) (ds : List Char) : Prop where
  digits : ∀ d ∈ ds, b.isDigit d = true
  nonempty : b = .decimal ∨ b = .octal → ds ≠ []
  noZero : b = .decimal → ds.head? ≠ some '0'

theorem value_concat (b : Base) (ds : List Char) (d : Char) :
    b.value (ds ++ [d]) = b.value ds * b.radix + (digit? d).getD 0 := by
  rw [value, List.reverse_concat, List.map_cons, Nat.ofDigits_cons, Nat.add_comm, Nat.mul_comm]
  rfl

example : hexadecimal.value ['1', 'F'] = 31 := rfl

/-- Whole digits add up in doubles without rounding. -/
theorem holds_extend (b : Base) (ds : List Char) (small : b.value ds ≤ 2 ^ 53) :
    Holds (b.extend 0.0 ds) (b.value ds) := by
  induction ds using List.reverseRecOn with
  | nil => exact holds_ofNat (Nat.zero_le _)
  | append_singleton ds d ih =>
    rw [value_concat] at small ⊢
    have before : b.value ds ≤ b.value ds * b.radix := Nat.le_mul_of_pos_right _ b.radix_le.1
    rw [extend_append, extend_cons, extend_nil]
    have shifted := (ih (by omega)).mul (holds_ofNat b.radix_le.2) (by omega)
    exact shifted.add (holds_ofNat (by omega)) small

/-- A whole literal is a literal without places. -/
theorem Whole.valid (h : b.Whole ds) (imaginary : Bool) : Literal.Valid ⟨b, ds, [], imaginary⟩ where
  whole := h.digits
  places := nofun
  nonempty := h.nonempty
  zero decimal zero := absurd zero (h.noZero decimal)

end Base

/-- The character does not go on with a whole literal.  After the suffix none does. -/
def Base.Ends (b : Base) (imaginary : Bool) (stop : Char) : Prop :=
  imaginary = false → b.isDigit stop = false ∧ stop ≠ '.' ∧ stop ≠ 'i'

namespace Scan

variable {c : Cursor} {b : Base} {ds rest : List Char} {stop : Char} {imaginary : Bool}

/-- A whole literal with value up to `2 ^ 53` is one number token without a fault, with that value
as its real or its imaginary part, wherever it stands and whatever comes after it that does not go
on with it.  The double is the value itself (`Double.holds_ofNat`).  The character after the literal
is still to be read. -/
theorem next_wholeLiteral {bs : List Char} (whole : b.Whole ds) (small : b.value ds ≤ 2 ^ 53)
    (ends : b.Ends imaginary stop) (sound : c.Sound) (blanks : ∀ x ∈ bs, isBlank x = true)
    (ahead : c.ahead = bs ++ (b.lead ++ ds ++ imaginarySuffix imaginary ++ stop :: rest)) :
    (next c).1 =
        .number (b.lead ++ ds ++ imaginarySuffix imaginary) (afterBlanks c).position
          (onePart imaginary (Float.ofNat (b.value ds))) ∧
      (next c).2.Sound ∧ (next c).2.ahead = stop :: rest := by
  have holds : Holds (Literal.sum ⟨b, ds, [], imaginary⟩) (b.value ds) := b.holds_extend ds small
  have stops : Literal.Ends ⟨b, ds, [], imaginary⟩ stop := fun noSuffix =>
    ⟨(ends noSuffix).1, (ends noSuffix).2.2, fun _ => (ends noSuffix).2.1⟩
  have text : Literal.text ⟨b, ds, [], imaginary⟩ =
      b.lead ++ ds ++ imaginarySuffix imaginary :=
    congrArg (· ++ _) (List.append_nil (b.lead ++ ds))
  obtain ⟨token, after⟩ :=
    next_literal (whole.valid imaginary) stops sound blanks (text ▸ ahead)
  refine ⟨token.trans ?_, next_sound sound, after⟩
  have value : Literal.value ⟨b, ds, [], imaginary⟩ = Float.ofNat (b.value ds) :=
    holds.unique (holds_ofNat small)
  rw [Literal.lexeme, text, value, Lexeme.ofValue, (holds_ofNat small).isInf]
  rfl

/-- The greatest value, before a digit that the suffix keeps out of the literal. -/
theorem greatestWhole_read :
    let c : Cursor := .ofFeed (.ofString " 0x20000000000000i7")
    (next c).1 = .number "0x20000000000000i".toList ⟨0, 2, 2⟩ ⟨0.0, Float.ofNat (2 ^ 53)⟩ ∧
      (next c).2.ahead = ['7', '\n'] := by
  intro c
  have digits : ∀ d ∈ "20000000000000".toList, Base.hexadecimal.isDigit d = true := by
    rw [← List.all_eq_true]
    decide +kernel
  have whole : Base.hexadecimal.Whole "20000000000000".toList :=
    ⟨digits, fun marked => marked.elim nofun nofun, nofun⟩
  have value : Base.hexadecimal.value "20000000000000".toList = 2 ^ 53 := by decide +kernel
  have ends : Base.hexadecimal.Ends true '7' := nofun
  have blanks : ∀ x ∈ [' '], isBlank x = true := List.forall_mem_singleton.mpr rfl
  have start : (afterBlanks c).position = ⟨0, 2, 2⟩ := by decide +kernel
  have ahead : c.ahead = [' '] ++ (Base.hexadecimal.lead ++ "20000000000000".toList ++
      imaginarySuffix true ++ '7' :: ['\n']) := by decide +kernel
  obtain ⟨token, -, rest⟩ :=
    next_wholeLiteral whole value.le ends (Cursor.sound_ofFeed _) blanks ahead
  rw [value, start] at token
  exact ⟨token, rest⟩

end Scan

end ComplexScript.Token
