set_option autoImplicit false

/-!
# Positions inside an entry

A position counts what has been read since the entry began, so the first character of every
entry stands at line 0, column 1.  A line break belongs to the line it opens: it is the
character at column 0.  The main facts are how one character moves a position
(`advance_lineBreak`, `advance_of_ne`) and that moving over a text is moving over its parts in
order (`advanceOver_append`).
-/

namespace ComplexScript.Text

/-- Where a character stands, counted from the start of its entry. -/
structure Position where
  /-- Line breaks read so far. -/
  line : Nat := 0
  /-- Characters read since the last line break; the first of a line is 1, the break itself 0. -/
  column : Nat := 0
  /-- Characters read so far, line breaks left out. -/
  offset : Nat := 0
  deriving DecidableEq, Repr, Inhabited

namespace Position

/-- The origin, before any character. -/
def origin : Position := {}

/-- The position after reading one more character. -/
def advance (p : Position) (c : Char) : Position :=
  if c = '\n' then { p with line := p.line + 1, column := 0 }
  else { p with column := p.column + 1, offset := p.offset + 1 }

/-- The position after reading a run of characters. -/
def advanceOver (p : Position) (cs : List Char) : Position :=
  cs.foldl advance p

/-- The text shown for a position. -/
def render (p : Position) : String :=
  "line: " ++ toString p.line ++ ", column: " ++ toString p.column

@[simp] theorem advance_lineBreak (p : Position) :
    p.advance '\n' = { p with line := p.line + 1, column := 0 } := by
  simp [advance]

theorem advance_of_ne {c : Char} (h : c ≠ '\n') (p : Position) :
    p.advance c = { p with column := p.column + 1, offset := p.offset + 1 } := by
  simp [advance, h]

@[simp] theorem advanceOver_nil (p : Position) : p.advanceOver [] = p := rfl

@[simp] theorem advanceOver_cons (p : Position) (c : Char) (cs : List Char) :
    p.advanceOver (c :: cs) = (p.advance c).advanceOver cs := rfl

theorem advanceOver_append (p : Position) (cs ds : List Char) :
    p.advanceOver (cs ++ ds) = (p.advanceOver cs).advanceOver ds := by
  simp [advanceOver]

end Position

/-! ## Lines of a text -/

/-- The line of a text with the given number, without its break; `none` past the last one.
A text always has a line 0, and one more after each break. -/
def line? : Nat → List Char → Option (List Char)
  | 0, cs => some (cs.takeWhile (· ≠ '\n'))
  | n + 1, cs =>
    match cs.dropWhile (· ≠ '\n') with
    | [] => none
    | _ :: rest => line? n rest

@[simp] theorem line?_zero (cs : List Char) :
    line? 0 cs = some (cs.takeWhile (· ≠ '\n')) := rfl

theorem line?_succ (n : Nat) (cs : List Char) :
    line? (n + 1) cs =
      match cs.dropWhile (· ≠ '\n') with
      | [] => none
      | _ :: rest => line? n rest := rfl

end ComplexScript.Text
