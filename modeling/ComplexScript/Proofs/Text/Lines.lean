import Mathlib.Data.List.Induction
import ComplexScript.Text.Position
set_option autoImplicit false

/-!
# Positions and lines

The position reached over a text says where the text ends: on the line of that number, after as many
characters of it as the column says (`line?_advanceOver`).  So a word whose first character is
counted by a position is found on the line of the position from its column on (`StandsAt.line`).
-/

namespace ComplexScript.Text

variable {text word : List Char} {p : Position}

theorem takeWhile_append_of_noBreak {cs : List Char} (noBreak : '\n' ∉ cs) (ds : List Char) :
    (cs ++ ds).takeWhile (· ≠ '\n') = cs ++ ds.takeWhile (· ≠ '\n') := by
  refine List.takeWhile_append_of_pos fun ch mem => decide_eq_true ?_
  rintro rfl
  exact noBreak mem

theorem dropWhile_append_of_noBreak {cs : List Char} (noBreak : '\n' ∉ cs) (ds : List Char) :
    (cs ++ ds).dropWhile (· ≠ '\n') = ds.dropWhile (· ≠ '\n') := by
  refine List.dropWhile_append_of_pos fun ch mem => decide_eq_true ?_
  rintro rfl
  exact noBreak mem

/-- A text ends in the line that its position counts to: `here` is the part of that line before the
end, and whatever follows goes on there. -/
theorem line?_advanceOver (before : List Char) :
    ∃ here, '\n' ∉ here ∧ here.length = (Position.origin.advanceOver before).column ∧
      ∀ k rest, line? ((Position.origin.advanceOver before).line + k) (before ++ rest) =
        line? k (here ++ rest) := by
  induction before using List.reverseRecOn with
  | nil =>
    refine ⟨[], List.not_mem_nil, rfl, fun k rest => ?_⟩
    rw [show (Position.origin.advanceOver []).line = 0 from rfl, Nat.zero_add]
  | append_singleton before ch ih =>
    obtain ⟨here, noBreak, length, lines⟩ := ih
    rw [Position.advanceOver_append, Position.advanceOver_cons, Position.advanceOver_nil]
    by_cases isBreak : ch = '\n'
    · subst isBreak
      rw [Position.advance_lineBreak]
      refine ⟨[], List.not_mem_nil, rfl, fun k rest => ?_⟩
      have further := lines (k + 1) ('\n' :: rest)
      rw [line?_succ, dropWhile_append_of_noBreak noBreak] at further
      rw [List.append_assoc, Nat.add_assoc, Nat.add_comm 1 k]
      exact further
    · rw [Position.advance_of_ne isBreak]
      refine ⟨here ++ [ch], ?_, ?_, fun k rest => ?_⟩
      · simp [noBreak, Ne.symm isBreak]
      · rw [List.length_append, length]
        rfl
      · rw [List.append_assoc, List.append_assoc]
        exact lines k ([ch] ++ rest)

/-- A word stands in a text with its first character at a position, on one line. -/
def StandsAt (text : List Char) (p : Position) (word : List Char) : Prop :=
  ∃ before first rest after, word = first :: rest ∧ '\n' ∉ word ∧
    text = before ++ word ++ after ∧ p = Position.origin.advanceOver (before ++ [first])

/-- A word stays where it stands when the text goes on. -/
theorem StandsAt.append (h : StandsAt text p word) (more : List Char) :
    StandsAt (text ++ more) p word := by
  obtain ⟨before, first, rest, after, word, noBreak, text, position⟩ := h
  exact ⟨before, first, rest, after ++ more, word, noBreak, by simp [text], position⟩

/-- A word is found on the line of its position, from the column on. -/
theorem StandsAt.line (h : StandsAt text p word) :
    ∃ here after, line? p.line text = some (here ++ word ++ after) ∧
      p.column = here.length + 1 := by
  obtain ⟨before, first, rest, after, rfl, noBreak, rfl, rfl⟩ := h
  obtain ⟨here, noBreakHere, length, lines⟩ := line?_advanceOver before
  have inLine : first ≠ '\n' := by
    rintro rfl
    exact noBreak List.mem_cons_self
  rw [Position.advanceOver_append, Position.advanceOver_cons, Position.advanceOver_nil,
    Position.advance_of_ne inLine]
  refine ⟨here, after.takeWhile (· ≠ '\n'), ?_, by rw [length]⟩
  have found := lines 0 (first :: rest ++ after)
  rw [line?_zero, takeWhile_append_of_noBreak noBreakHere, takeWhile_append_of_noBreak noBreak,
    ← List.append_assoc, ← List.append_assoc] at found
  exact found

end ComplexScript.Text
