set_option autoImplicit false

/-!
# Line feeds

A feed hands out program text one line at a time.  It is held as the list of the replies it has
still to give, so that everything read from it is a function of that list.  A feed also keeps the
list of what it was asked: whether the entry being read already had text when the next line was
wanted, which is what an interactive feed picks its prompt by.

`normalized` gives the characters of a line as the reader sees them: they always end with a line
break (`getLast?_normalized`), so no run of other characters reaches over the end of a line.
`Feed.text` is all that a reader gets from a feed, and `Feed.size` bounds its length
(`Feed.length_text_le`).
-/

namespace ComplexScript.Text

/-- One reply of a feed. -/
inductive Reply where
  /-- a line, with its terminator if it has one -/
  | line (text : String)
  /-- reading failed, with the cause as the device words it -/
  | failure (cause : String)
  /-- the input has ended -/
  | endOfInput
  deriving DecidableEq, Repr, Inhabited

/-- The replies a feed has still to give, and the questions it has been asked. -/
structure Feed where
  /-- Replies to come; once there are none, the input has ended. -/
  replies : List Reply
  /-- For each request so far, whether the entry being read already had text; newest first. -/
  asked : List Bool := []
  deriving DecidableEq, Repr, Inhabited

namespace Feed

/-- The next reply, asked for with or without text already read. -/
def next (continuation : Bool) (f : Feed) : Reply × Feed :=
  match f.replies with
  | [] => (.endOfInput, { f with asked := continuation :: f.asked })
  | r :: rest => (r, { replies := rest, asked := continuation :: f.asked })

@[simp] theorem next_nil (b : Bool) (asked : List Bool) :
    next b ⟨[], asked⟩ = (.endOfInput, ⟨[], b :: asked⟩) := rfl

@[simp] theorem next_cons (b : Bool) (r : Reply) (rest : List Reply) (asked : List Bool) :
    next b ⟨r :: rest, asked⟩ = (r, ⟨rest, b :: asked⟩) := rfl

end Feed

/-! ## Feeds over stored text -/

/-- Cut a list after every element that satisfies `p`, with `piece` the part of the next piece
already passed and `pieces` the pieces already cut, both newest first. -/
def cutAfter.go {α : Type} (p : α → Bool) : List α → List α → List (List α) → List (List α)
  | [], [], pieces => pieces.reverse
  | [], piece, pieces => (piece.reverse :: pieces).reverse
  | a :: as, piece, pieces =>
    if p a then go p as [] ((a :: piece).reverse :: pieces) else go p as (a :: piece) pieces

/-- Cut a list after every element that satisfies `p`; the last piece may lack one. -/
def cutAfter {α : Type} (p : α → Bool) (as : List α) : List (List α) :=
  cutAfter.go p as [] []

theorem flatten_cutAfter_go {α : Type} (p : α → Bool) (as piece : List α)
    (pieces : List (List α)) :
    (cutAfter.go p as piece pieces).flatten = pieces.reverse.flatten ++ piece.reverse ++ as := by
  induction as generalizing piece pieces with
  | nil => cases piece <;> simp [cutAfter.go]
  | cons a as ih =>
    simp only [cutAfter.go]
    split <;> simp [ih]

/-- Cutting loses nothing. -/
theorem flatten_cutAfter {α : Type} (p : α → Bool) (as : List α) :
    (cutAfter p as).flatten = as := by
  simp [cutAfter, flatten_cutAfter_go]

/-- The lines of a text, each with its terminator. -/
def Feed.ofString (text : String) : Feed :=
  ⟨(cutAfter (· = '\n') text.toList).map fun cs => .line (String.ofList cs), []⟩

/-- The wording of the failure to read a line that is not text. -/
def invalidText : String := "stream did not contain valid UTF-8"

/-- The reply for the bytes of one line: a line that is not UTF-8 cannot be read. -/
def Reply.ofBytes (bytes : List UInt8) : Reply :=
  match String.fromUTF8? (ByteArray.mk bytes.toArray) with
  | some text => .line text
  | none => .failure invalidText

/-- The lines of a stored file, cut at the bytes of line breaks. -/
def Feed.ofBytes (bytes : List UInt8) : Feed :=
  ⟨(cutAfter (· = 10) bytes).map Reply.ofBytes, []⟩

/-! ## Line ends -/

/-- The characters of a line as they are read: a carriage return before the final line break is
dropped, and a line without a final break gets one. -/
def normalized (cs : List Char) : List Char :=
  match cs.reverse with
  | '\n' :: '\r' :: rest => (('\n' :: rest) : List Char).reverse
  | '\n' :: _ => cs
  | _ => cs ++ ['\n']

/-- A line read always ends with a line break. -/
theorem getLast?_normalized (cs : List Char) : (normalized cs).getLast? = some '\n' := by
  unfold normalized
  split
  · simp
  · next h => rw [← List.head?_reverse, h]; rfl
  · simp

theorem normalized_ne_nil (cs : List Char) : normalized cs ≠ [] := by
  intro h
  have := getLast?_normalized cs
  simp [h] at this

/-! ## What a feed still holds -/

/-- The characters a reader gets from replies: the lines before the first end or failure,
normalized. -/
def joined : List Reply → List Char
  | .line text :: rest => normalized text.toList ++ joined rest
  | _ => []

/-- The characters that a feed has still to give. -/
def Feed.text (f : Feed) : List Char := joined f.replies

/-- An upper bound, cheap to compute, on the characters that a reply gives. -/
def Reply.size : Reply → Nat
  | .line text => text.utf8ByteSize + 1
  | _ => 0

/-- An upper bound, cheap to compute, on the characters that a feed has still to give. -/
def Feed.size (f : Feed) : Nat := f.replies.foldl (fun n r => n + r.size) 0

/-- A line is normalized to at most one character more. -/
theorem length_normalized_le (cs : List Char) : (normalized cs).length ≤ cs.length + 1 := by
  unfold normalized
  split
  · next h =>
    have := congrArg List.length h
    simp at this
    simp
    omega
  · simp
  · simp

/-- A character takes at least one byte. -/
theorem length_le_bytes (text : String) : text.toList.length ≤ text.utf8ByteSize := by
  induction text using String.push_induction with
  | empty => simp
  | push text c ih =>
    have := c.utf8Size_pos
    simp at ih ⊢
    omega

theorem add_length_joined_le (n : Nat) (replies : List Reply) :
    n + (joined replies).length ≤ replies.foldl (fun n r => n + r.size) n := by
  induction replies generalizing n with
  | nil => simp [joined]
  | cons r rest ih =>
    have next := ih (n + r.size)
    cases r with
    | line text =>
      have line := length_normalized_le text.toList
      have bytes := length_le_bytes text
      simp only [joined, List.length_append, List.foldl_cons, Reply.size] at next ⊢
      omega
    | failure _ =>
      simp only [joined, List.length_nil, List.foldl_cons, Reply.size] at next ⊢
      omega
    | endOfInput =>
      simp only [joined, List.length_nil, List.foldl_cons, Reply.size] at next ⊢
      omega

/-- The bound holds: no more characters come than it says. -/
theorem Feed.length_text_le (f : Feed) : f.text.length ≤ f.size := by
  simpa [Feed.text, Feed.size] using add_length_joined_le 0 f.replies

end ComplexScript.Text
