import ComplexScript.Text.Position
import ComplexScript.Text.Feed
set_option autoImplicit false

/-!
# Cursors

A cursor reads a feed one character at a time and lazily: `release` only marks the character under
the cursor as used, and the next `peek` fetches another.  So a reader can look at a character
without using it, and a line is asked for only when a character of it is wanted.

Beside the text still to come a cursor keeps the text of the entry being read (`raw`) and the
position of the character under it.  Both grow together, in `peek` alone: `peek_position` and
`peek_raw` say how.  The end of the text is shown as `endOfText`, which adds to neither.
-/

namespace ComplexScript.Text

/-- The character shown under a cursor once the text has ended. -/
def endOfText : Char := '\x00'

/-- A reading position in the text of a feed. -/
structure Cursor where
  /-- Where further lines come from. -/
  feed : Feed
  /-- Characters of the current line that have not been under the cursor yet. -/
  line : List Char := []
  /-- The character under the cursor; `none` when the next look has to fetch one. -/
  held : Option Char := none
  /-- The feed has ended or failed and is not asked again. -/
  ended : Bool := false
  /-- Position of the last character fetched. -/
  position : Position := {}
  /-- Text fetched since the entry began. -/
  raw : String := ""
  /-- The failure that ended the feed, until it is taken. -/
  failure : Option String := none
  deriving DecidableEq, Repr, Inhabited

namespace Cursor

/-- The next character of the text, from the current line or else from a new one. -/
def fetch (c : Cursor) : Char × Cursor :=
  match c.line with
  | ch :: rest => (ch, { c with line := rest })
  | [] =>
    if c.ended then (endOfText, c)
    else
      match c.feed.next (!c.raw.isEmpty) with
      | (.line text, feed) =>
        ((normalized text.toList).headD '\n',
          { c with feed := feed, line := (normalized text.toList).tail })
      | (.endOfInput, feed) => (endOfText, { c with feed := feed, ended := true })
      | (.failure cause, feed) =>
        (endOfText, { c with feed := feed, ended := true, failure := some cause })

/-- Count a fetched character to the entry and put it under the cursor.  The end of the text is
no part of an entry. -/
def hold (ch : Char) (c : Cursor) : Cursor :=
  if ch = endOfText then { c with held := some ch }
  else
    { c with held := some ch, position := c.position.advance ch, raw := c.raw.push ch }

/-- The character under the cursor, fetched first if the last one has been released. -/
def peek (c : Cursor) : Char × Cursor :=
  match c.held with
  | some ch => (ch, c)
  | none =>
    let r := c.fetch
    (r.1, r.2.hold r.1)

/-- Mark the character under the cursor as used. -/
def release (c : Cursor) : Cursor := { c with held := none }

/-- Use the character under the cursor and look at the next one. -/
def advance (c : Cursor) : Char × Cursor := c.release.peek

/-- Begin a new entry: forget the text of the last one and count from the origin. -/
def beginEntry (c : Cursor) : Cursor := { c with raw := "", position := .origin }

/-- Take the failure that ended the feed, if there is one; it is given once. -/
def takeFailure (c : Cursor) : Option String × Cursor :=
  (c.failure, { c with failure := none })

/-- A cursor at the start of a feed. -/
def ofFeed (feed : Feed) : Cursor := { feed := feed }

/-- An upper bound, cheap to compute, on the characters still to come. -/
def size (c : Cursor) : Nat := c.line.length + c.feed.size + 1

/-! ## Looking -/

@[simp] theorem peek_of_held {c : Cursor} {ch : Char} (h : c.held = some ch) :
    c.peek = (ch, c) := by
  simp [peek, h]

theorem peek_of_released {c : Cursor} (h : c.held = none) :
    c.peek = (c.fetch.1, c.fetch.2.hold c.fetch.1) := by
  simp [peek, h]

@[simp] theorem hold_held (ch : Char) (c : Cursor) : (c.hold ch).held = some ch := by
  unfold hold; split <;> rfl

/-- After a look the character seen is under the cursor. -/
@[simp] theorem peek_held (c : Cursor) : c.peek.2.held = some c.peek.1 := by
  cases h : c.held with
  | none => simp [peek_of_released h]
  | some ch => simp [h]

/-- Looking twice is looking once. -/
@[simp] theorem peek_peek (c : Cursor) : c.peek.2.peek = c.peek := by
  rw [peek_of_held (peek_held c)]

@[simp] theorem release_held (c : Cursor) : c.release.held = none := rfl

@[simp] theorem release_line (c : Cursor) : c.release.line = c.line := rfl

@[simp] theorem release_raw (c : Cursor) : c.release.raw = c.raw := rfl

@[simp] theorem release_position (c : Cursor) : c.release.position = c.position := rfl

@[simp] theorem fetch_position (c : Cursor) : c.fetch.2.position = c.position := by
  unfold fetch; split
  · rfl
  · split
    · rfl
    · split <;> rfl

@[simp] theorem fetch_raw (c : Cursor) : c.fetch.2.raw = c.raw := by
  unfold fetch; split
  · rfl
  · split
    · rfl
    · split <;> rfl

/-- What a look fetches: nothing when a character is held or the text has ended, else the
character now under the cursor. -/
def fetched (c : Cursor) : List Char :=
  match c.held with
  | some _ => []
  | none => if c.fetch.1 = endOfText then [] else [c.fetch.1]

/-- A look adds what it fetches to the text of the entry. -/
theorem peek_raw (c : Cursor) : c.peek.2.raw.toList = c.raw.toList ++ c.fetched := by
  cases h : c.held with
  | some ch => simp [fetched, h]
  | none =>
    simp only [peek_of_released h, fetched, h, hold]
    split <;> simp

/-- A look moves the position over what it fetches. -/
theorem peek_position (c : Cursor) : c.peek.2.position = c.position.advanceOver c.fetched := by
  cases h : c.held with
  | some ch => simp [fetched, h]
  | none =>
    simp only [peek_of_released h, fetched, h, hold]
    split <;> simp

/-! ## Runs of characters -/

/-- Use characters while they satisfy `p`, at most as many as `bound` has. -/
def takeWhile (p : Char → Bool) : List Char → Cursor → List Char × Cursor
  | [], c => ([], c)
  | _ :: bound, c =>
    let r := c.peek
    if p r.1 then
      let rest := takeWhile p bound r.2.release
      (r.1 :: rest.1, rest.2)
    else ([], r.2)

/-- Use characters while they satisfy `p`.  The bound is the character under the cursor and the
rest of its line: a line ends with a line break, so a run of other characters ends within it. -/
def takeRun (p : Char → Bool) (c : Cursor) : List Char × Cursor :=
  let r := c.peek
  takeWhile p (r.1 :: r.2.line) r.2

/-- A run holds only characters that belong to it. -/
theorem of_mem_takeWhile (p : Char → Bool) (bound : List Char) (c : Cursor) {ch : Char}
    (h : ch ∈ (takeWhile p bound c).1) : p ch = true := by
  induction bound generalizing c with
  | nil => simp [takeWhile] at h
  | cons _ _ ih =>
    simp only [takeWhile] at h
    split at h
    · next hp =>
      rcases List.mem_cons.mp h with rfl | h
      · exact hp
      · exact ih _ h
    · simp at h

end Cursor

end ComplexScript.Text
