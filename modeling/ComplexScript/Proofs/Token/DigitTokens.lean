import ComplexScript.Proofs.Text.Stored
import ComplexScript.Proofs.Token.Numerals
set_option autoImplicit false

/-!
# Tokens that start with a digit

A token that starts with a digit is a literal, or the zero alone, or a literal whose point has no
digit after it (`Scan.next_atDigit`).  So what `Scan.next_literal` says of literals is all that is
to be said of the values that are read.
-/

namespace ComplexScript.Token

open ComplexScript.Text

namespace Scan

variable {c : Cursor} {b : Base} {bs cs ds whole places more : List Char} {ch first : Char}

/-! ## Runs that end -/

/-- What is ahead of a sound cursor ends with a line break or the end of the text. -/
theorem ahead_last (sound : c.Sound) (last : c.ahead.getLast? = some ch) :
    ch = '\n' ∨ ch = endOfText := by
  rw [Cursor.ahead, Cursor.upcoming, ← List.append_assoc, List.getLast?_append,
    Option.or_eq_some_iff] at last
  rcases last with last | ⟨_, last⟩
  · split at last
    · cases last
    · rcases getLast?_joined c.feed.replies with nothing | ends
      · rw [Feed.text, nothing] at last
        cases last
      · rw [Feed.text, ends] at last
        exact .inl (Option.some.inj last).symm
  · exact sound ch last

/-- After a character that is neither the last of its line nor of the text any run ends. -/
theorem exists_run_after {p : Char → Bool} (stops : Cursor.Stops p) (sound : c.Sound)
    (inLine : ch ≠ '\n') (inText : ch ≠ endOfText) (ahead : c.ahead = cs ++ ch :: more) :
    ∃ ds stop rest, more = ds ++ stop :: rest ∧ (∀ d ∈ ds, p d = true) ∧ p stop = false := by
  obtain ⟨last, ends⟩ : ∃ last, more.getLast? = some last := by
    cases more with
    | nil =>
      have last : c.ahead.getLast? = some ch := by rw [ahead, List.getLast?_concat]
      exact ((ahead_last sound last).elim inLine inText).elim
    | cons x xs => exact ⟨_, List.getLast?_cons⟩
  have last' : c.ahead.getLast? = some last := by
    rw [ahead, List.getLast?_append, List.getLast?_cons, ends]
    rfl
  refine exists_run (List.mem_of_getLast? ends) ?_
  rcases ahead_last sound last' with rfl | rfl
  · exact stops.1
  · exact stops.2

/-! ## The token at a digit -/

/-- What is read where blanks and then a digit are ahead. -/
inductive AtDigit (c : Cursor) : Lexeme → Prop where
  | literal (l : Literal) (here : l.Next c) : AtDigit c (l.lexeme (afterBlanks c).position)
  | zero : AtDigit c (.number ['0'] (afterBlanks c).position .zero)
  | malformed (text : List Char) : AtDigit c
    (.faulty (.malformedFraction (String.ofList text)) text (afterBlanks c).position)

/-- Digits are a literal, with the suffix if it comes after them. -/
theorem atDigit_of_places (sound : c.Sound) (blanks : ∀ x ∈ bs, isBlank x = true)
    (inBase : ∀ d ∈ whole, b.isDigit d = true) (inBase' : ∀ d ∈ places, b.isDigit d = true)
    (nonempty : b = .decimal ∨ b = .octal → whole ≠ [])
    (decimal : b = .decimal → whole.head? = some '0' → whole = ['0'] ∧ (places ≠ [] ∨ ch = 'i'))
    (notDigit : b.isDigit ch = false) (notPoint : places = [] → ch ≠ '.')
    (ahead : c.ahead = bs ++ (b.lead ++ whole ++ fraction places ++ ch :: more)) :
    AtDigit c (next c).1 := by
  have literal (l : Literal) (stop : Char) (rest : List Char) (valid : l.Valid) (ends : l.Ends stop)
      (ahead : c.ahead = bs ++ (l.text ++ stop :: rest)) : AtDigit c (next c).1 := by
    rw [(next_literal valid ends sound blanks ahead).1]
    exact .literal l ⟨valid, bs, stop, rest, blanks, ends, ahead⟩
  by_cases suffix : ch = 'i'
  · subst suffix
    have goesOn : more ≠ [] := by
      rw [← List.append_assoc] at ahead
      obtain ⟨_, _, _, rfl, _⟩ :=
        exists_run_after stops_isBlank sound (by decide) (by decide) ahead
      exact List.append_ne_nil_of_right_ne_nil _ (List.cons_ne_nil _ _)
    obtain ⟨stop, rest, rfl⟩ := List.exists_cons_of_ne_nil goesOn
    refine literal ⟨b, whole, places, true⟩ stop rest ⟨inBase, inBase', nonempty, ?_⟩ nofun ?_
    · exact fun isDecimal zero => ⟨(decimal isDecimal zero).1, .inr rfl⟩
    · rw [ahead, List.append_cons]
      rfl
  · refine literal ⟨b, whole, places, false⟩ ch more ⟨inBase, inBase', nonempty, ?_⟩ ?_ ?_
    · intro isDecimal zero
      obtain ⟨alone, marked⟩ := decimal isDecimal zero
      exact ⟨alone, .inl (marked.resolve_right suffix)⟩
    · exact fun _ => ⟨notDigit, suffix, notPoint⟩
    · rw [ahead, Literal.text, imaginarySuffix, if_neg Bool.false_ne_true, List.append_nil]

/-- Digits with something else after them are a literal, or their point has no digit after it. -/
theorem atDigit_of_whole (sound : c.Sound) (blanks : ∀ x ∈ bs, isBlank x = true)
    (inBase : ∀ d ∈ whole, b.isDigit d = true)
    (nonempty : b = .decimal ∨ b = .octal → whole ≠ [])
    (decimal : b = .decimal → whole.head? = some '0' → whole = ['0'] ∧ (ch = '.' ∨ ch = 'i'))
    (notDigit : b.isDigit ch = false)
    (ahead : c.ahead = bs ++ (b.lead ++ whole ++ ch :: more)) : AtDigit c (next c).1 := by
  by_cases point : ch = '.'
  · subst point
    have ahead' := ahead
    rw [← List.append_assoc] at ahead'
    obtain ⟨places, x, rest, rfl, inBase', notDigit'⟩ :=
      exists_run_after (stops_isDigit b) sound (by decide) (by decide) ahead'
    cases places with
    | nil =>
      have decimal' (isDecimal : b = .decimal) (zero : whole.head? = some '0') :
          whole = ['0'] ∧ Base.opening '0' '.' = .plain .decimal :=
        ⟨(decimal isDecimal zero).1, rfl⟩
      obtain ⟨opening, ds, v, d, here, _, _, inBase, sound', ahead'⟩ :=
        next_eq_digits inBase nonempty decimal' sound blanks ahead
      rw [here, digits_malformed inBase notDigit' sound' ahead']
      exact .malformed _
    | cons p ps =>
      have fractional : c.ahead =
          bs ++ (b.lead ++ whole ++ fraction (p :: ps) ++ x :: rest) := by
        rw [ahead, List.append_assoc (b.lead ++ whole)]
        rfl
      refine atDigit_of_places sound blanks inBase inBase' nonempty ?_ notDigit' nofun fractional
      exact fun isDecimal zero => ⟨(decimal isDecimal zero).1, .inl (List.cons_ne_nil p ps)⟩
  · have unbroken : c.ahead = bs ++ (b.lead ++ whole ++ fraction [] ++ ch :: more) := by
      rw [ahead, fraction, List.append_nil]
    refine atDigit_of_places sound blanks inBase (List.forall_mem_nil _) nonempty ?_ notDigit
      (fun _ => point) unbroken
    intro isDecimal zero
    obtain ⟨alone, marked⟩ := decimal isDecimal zero
    exact ⟨alone, .inr (marked.resolve_left point)⟩

theorem isDigit_of_isDecimalDigit (digit : isDecimalDigit ch = true) :
    Base.decimal.isDigit ch = true := by
  have range : '0' ≤ ch ∧ ch ≤ '9' := by
    simpa [isDecimalDigit] using digit
  rw [Base.isDigit, digit?, if_pos range]
  have value : ch.toNat ≤ 57 := range.2
  show decide (ch.toNat - 48 < 10) = true
  rw [decide_eq_true_iff]
  omega

/-- After a zero the next character decides on the base. -/
theorem next_atZero (sound : c.Sound) (blanks : ∀ x ∈ bs, isBlank x = true)
    (ahead : c.ahead = bs ++ '0' :: ch :: more) : AtDigit c (next c).1 := by
  have ahead' : c.ahead = (bs ++ ['0']) ++ ch :: more := by rw [ahead, List.append_cons]
  have marked (b : Base) (mark : Char) (lead : b.lead = ['0', mark])
      (letter : ¬ (b = .decimal ∨ b = .octal)) (inLine : mark ≠ '\n') (inText : mark ≠ endOfText)
      (is : ch = mark) : AtDigit c (next c).1 := by
    subst is
    obtain ⟨ds, stop, rest, rfl, inBase, notDigit⟩ :=
      exists_run_after (stops_isDigit b) sound inLine inText ahead'
    have digits : c.ahead = bs ++ (b.lead ++ ds ++ stop :: rest) := by
      rw [ahead, lead]
      rfl
    exact atDigit_of_whole sound blanks inBase (fun bare => absurd bare letter)
      (fun isDecimal => absurd (.inl isDecimal) letter) notDigit digits
  by_cases isX : ch = 'x'
  · exact marked .hexadecimal 'x' rfl (by decide) (by decide) (by decide) isX
  by_cases isB : ch = 'b'
  · exact marked .binary 'b' rfl (by decide) (by decide) (by decide) isB
  by_cases isOctal : Base.octal.isDigit ch = true
  · obtain ⟨ds, stop, rest, same, inBase, notDigit⟩ :=
      exists_run_after (stops_isDigit .octal) sound (by decide) (by decide) ahead
    cases ds with
    | nil =>
      cases (List.cons.inj same).1
      cases isOctal.symm.trans notDigit
    | cons d ds =>
      rw [same] at ahead
      exact atDigit_of_whole sound blanks inBase (fun _ => List.cons_ne_nil d ds) nofun notDigit
        ahead
  by_cases goesOn : ch = '.' ∨ ch = 'i'
  · have notDigit : Base.decimal.isDigit ch = false := by rcases goesOn with rfl | rfl <;> rfl
    have inBase : ∀ d ∈ ['0'], Base.decimal.isDigit d = true := List.forall_mem_singleton.mpr rfl
    exact atDigit_of_whole sound blanks inBase (fun _ => List.cons_ne_nil _ _)
      (fun _ _ => ⟨rfl, goesOn⟩) notDigit ahead
  · obtain ⟨held, there⟩ := afterBlanks_held sound ahead blanks (by decide)
    have shown : (afterBlanks c).release.peek.1 = ch :=
      (Cursor.peek_of_ahead (Cursor.release_of_ahead held there)).1
    have opened : Base.opening '0' ch = .zero := by
      rw [Base.opening, if_pos rfl, if_neg isX, if_neg isB, if_neg isOctal, if_neg goesOn]
    rw [next_of_digit held rfl]
    simp only [afterDigit, bind, StateT.bind, peek, shown, opened]
    exact .zero

/-- Where blanks and then a digit are ahead, nothing is read but a literal, the zero alone, or a
literal whose point has no digit after it. -/
theorem next_atDigit (sound : c.Sound) (blanks : ∀ x ∈ bs, isBlank x = true)
    (digit : isDecimalDigit first = true) (ahead : c.ahead = bs ++ first :: cs) :
    AtDigit c (next c).1 := by
  have inLine : first ≠ '\n' := by
    rintro rfl
    cases digit
  have inText : first ≠ endOfText := by
    rintro rfl
    cases digit
  obtain ⟨ds, stop, rest, rfl, inBase, notDigit⟩ :=
    exists_run_after (stops_isDigit .decimal) sound inLine inText ahead
  by_cases zero : first = '0'
  · subst zero
    cases ds with
    | nil => exact next_atZero sound blanks ahead
    | cons d ds => exact next_atZero sound blanks ahead
  · have whole : ∀ d ∈ first :: ds, Base.decimal.isDigit d = true :=
      List.forall_mem_cons.mpr ⟨isDigit_of_isDecimalDigit digit, inBase⟩
    refine atDigit_of_whole sound blanks whole (fun _ => List.cons_ne_nil _ _) ?_ notDigit ahead
    exact fun _ head => absurd (Option.some.inj head) zero

end Scan

end ComplexScript.Token
