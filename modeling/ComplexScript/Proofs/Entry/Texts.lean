import ComplexScript.Proofs.Entry.Ending
import ComplexScript.Proofs.Text.Tape
import ComplexScript.Proofs.Token.Covering
set_option autoImplicit false

/-!
# The texts of entries

The entries of a program share out its text in order: what has been shown for the first of them is
the beginning of the text (`textsUpTo`), and all of it once the end of the text has been seen.  An
entry that is given up keeps its part.  `readers_faithful` says this together with what is behind
it, that the cursor is faithful to the text of its feed.
-/

namespace ComplexScript.Entry

open ComplexScript.Text
open ComplexScript.Token (Kind Scan)
open Read

/-- The texts of the first `n` entries of a program, one after another. -/
def textsUpTo (limits : Limits) (feed : Feed) (n : Nat) : List Char :=
  (List.range n).flatMap fun m => (nth limits m (.ofFeed feed)).text.toList

theorem textsUpTo_succ (limits : Limits) (feed : Feed) (n : Nat) :
    textsUpTo limits feed (n + 1) =
      textsUpTo limits feed n ++ (nth limits n (.ofFeed feed)).text.toList := by
  rw [textsUpTo, List.range_succ, List.flatMap_append, List.flatMap_cons, List.flatMap_nil,
    List.append_nil]
  rfl

/-! ## Reading from a tape -/

/-- The cursor is on the tape of the feed's text, in an entry that began there. -/
def Since (feed : Feed) (begun : Nat) (c : Cursor) : Prop :=
  ∃ t : Tape, t.begun = begun ∧ Cursor.Tracks feed t c

section

variable {feed : Feed} {begun : Nat} {c : Cursor} {r : Reader} {limits : Limits}

/-- A look does not begin an entry. -/
theorem Since.peek (h : Since feed begun c) : Since feed begun c.peek.2 := by
  obtain ⟨t, rfl, tracks⟩ := h
  refine ⟨t.peek.2, ?_, tracks.peek.2.1⟩
  unfold Tape.peek
  split <;> rfl

theorem Since.release (h : Since feed begun c) : Since feed begun c.release := by
  obtain ⟨t, began, tracks⟩ := h
  exact ⟨t.release, began, tracks.release⟩

theorem bisimulation_since (feed : Feed) (begun : Nat) :
    Cursor.Bisimulation fun c c' => c = c' ∧ Since feed begun c :=
  Cursor.bisimulation_of_invariant (fun _ ⟨_, _, tracks⟩ => tracks.sound) (fun _ h => h.peek)
    fun _ h => h.release

/-- Where the end of the text is under the cursor, all of the text has been shown. -/
theorem length_le_shown {t : Tape} (tracks : Cursor.Tracks feed t c)
    (held : c.held = some endOfText) : feed.text.length ≤ t.shown := by
  have shown : t.char (t.shown - 1) = endOfText := by
    have same := tracks.held.symm.trans held
    split at same
    · exact Option.some.inj same
    · cases same
  rw [← tracks.text]
  by_contra less
  have inside : t.shown - 1 < t.text.length := by omega
  rw [Tape.char, List.getElem?_eq_getElem inside] at shown
  exact tracks.inText (shown ▸ List.getElem_mem inside)

/-- A reader in an entry that began there.  It waits at the end of the text, if at all, with the
end of the text under its cursor, but where a word ends the program. -/
structure Reads (feed : Feed) (begun : Nat) (r : Reader) : Prop where
  sane : r.Sane
  cursor : Since feed begun r.cursor
  ended : ∀ t, r.lookahead = some t → t.kind = .endOfInput → t.text ≠ Kind.exitWord →
    r.cursor.held = some endOfText

/-- A token that ends a program has the end of the text under the cursor, if it is not the word for
that. -/
theorem held_of_end (isEnd : (Scan.next c).1.token.kind = .endOfInput)
    (notExit : (Scan.next c).1.token.text ≠ Kind.exitWord) :
    (Scan.next c).2.held = some endOfText := by
  rcases Scan.next_cases c with ⟨_, _, _, token⟩ | ⟨held, token⟩ | placed
  · rw [token] at isEnd
    cases isEnd
  · rw [token]
    exact held
  · exact absurd (placed.exit isEnd) notExit

theorem Reads.looked (h : Reads feed begun r) : Reads feed begun r.looked := by
  have sane := invariant_sane.look r h.sane
  unfold Reader.looked at sane ⊢
  cases found : r.lookahead with
  | some t => exact h
  | none =>
    rw [found] at sane
    obtain ⟨_, _, since⟩ := Scan.next_sim (bisimulation_since feed begun) _ _ ⟨rfl, h.cursor⟩
    refine ⟨sane, since, ?_⟩
    rintro _ ⟨⟩ isEnd notExit
    exact held_of_end isEnd notExit

theorem invariant_reads (feed : Feed) (begun : Nat) : Invariant (Reads feed begun) where
  sane _ h := h.sane
  look _ h := h.looked
  use r h := ⟨invariant_sane.use r h.sane, h.cursor, nofun⟩
  report r d h := by
    unfold Reader.reported
    split
    · exact h
    · exact ⟨h.sane, h.cursor, h.ended⟩
  giveUp r t h _ := ⟨h.sane, h.cursor, h.ended⟩

/-! ## Between entries -/

/-- A reader between two entries: the entries so far have this much of the text. -/
structure Between (feed : Feed) (shown : Nat) (r : Reader) : Prop extends Reads feed shown r where
  /-- The end of the text is shown after all of it. -/
  whole : r.cursor.held = some endOfText → feed.text.length ≤ shown

/-- An entry has the text that is shown while it is read. -/
theorem next_shown (limits : Limits) (h : Between feed begun r) :
    ∃ shown, begun ≤ shown ∧ Between feed shown (next limits r).2 ∧
      (next limits r).1.text.toList = (feed.text.take shown).drop begun := by
  obtain ⟨_, began, tracks⟩ := h.cursor
  obtain ⟨node, s, run, read, _⟩ := next_read limits tracks.sound
  have start : Reads feed begun { r with abandoned := false } := ⟨h.sane, h.cursor, h.ended⟩
  have after := entry_invariant (invariant_reads feed begun) start run
  obtain ⟨t, began, tracks⟩ := after.cursor
  rw [read]
  refine ⟨t.shown, began ▸ tracks.started, ⟨⟨after.sane, ?_, after.ended⟩, ?_⟩, ?_⟩
  · exact ⟨t.beginEntry, rfl, tracks.beginEntry⟩
  · exact fun held => length_le_shown tracks held
  · rw [← began, ← tracks.text]
    exact tracks.raw

/-- The first entries of a program have the beginning of its text. -/
theorem between_after (limits : Limits) (inText : endOfText ∉ feed.text) (n : Nat) :
    ∃ shown, Between feed shown (.after limits n (.ofFeed feed)) ∧
      textsUpTo limits feed n = feed.text.take shown := by
  induction n with
  | zero => exact ⟨0, ⟨⟨nofun, ⟨_, rfl, Cursor.tracks_ofFeed inText⟩, nofun⟩, nofun⟩, rfl⟩
  | succ n ih =>
    obtain ⟨begun, before, texts⟩ := ih
    obtain ⟨shown, le, after, text⟩ := next_shown limits before
    refine ⟨shown, after, ?_⟩
    have first : feed.text.take begun = (feed.text.take shown).take begun := by
      rw [List.take_take, Nat.min_eq_left le]
    rw [textsUpTo_succ, texts, nth, text, first, List.take_append_drop]

/-- Where an entry is the end of the program and the word for that is not there, the text is all
shared out. -/
theorem textsUpTo_of_end (limits : Limits) (inText : endOfText ∉ feed.text) {n : Nat}
    (isEnd : (nth limits n (.ofFeed feed)).isEnd = true)
    (notExit : (Reader.after limits n (.ofFeed feed)).token.text ≠ Kind.exitWord) :
    textsUpTo limits feed (n + 1) = feed.text := by
  have kind : (Reader.after limits n (.ofFeed feed)).token.kind = .endOfInput := by
    by_contra notEnd
    have goesOn : (nth limits n (.ofFeed feed)).isEnd = false :=
      (next_uses (after_ready limits feed n) notEnd).1
    cases goesOn.symm.trans isEnd
  obtain ⟨shown, between, texts⟩ := between_after limits inText (n + 1)
  have waiting : (Reader.after limits (n + 1) (.ofFeed feed)).lookahead =
      some (Reader.after limits n (.ofFeed feed)).token := by
    rw [Reader.after, next_at_end kind]
    exact Reader.looked_lookahead _
  rw [texts, List.take_of_length_le (between.whole (between.ended _ waiting kind notExit))]

end

/-- What the lines of a feed do not hold does not come up in its text. -/
theorem inText_of_lines {replies : List Reply}
    (inText : ∀ line, .line line ∈ replies → endOfText ∉ line.toList) :
    endOfText ∉ joined replies := by
  induction replies with
  | nil => exact List.not_mem_nil
  | cons reply rest ih =>
    cases reply with
    | failure | endOfInput => exact List.not_mem_nil
    | line text =>
      intro mem
      rcases List.mem_append.mp mem with first | mem
      · rcases mem_normalized first with first | isBreak
        · exact inText text List.mem_cons_self first
        · exact absurd isBreak (by decide)
      · exact ih (fun line mem => inText line (List.mem_cons_of_mem _ mem)) mem

/-- A cursor is faithful to the text of its feed, however that is cut into lines, and the entries of
a program share out the text in order, those given up included: the first of them have the beginning
of it, and with the end of the program, if no word ends it, they have all of it. -/
theorem readers_faithful (feed : Feed)
    (inText : ∀ line, .line line ∈ feed.replies → endOfText ∉ line.toList) :
    (∀ requests, Cursor.Faithful feed requests) ∧
    (∀ other : Feed, other.text = feed.text → ∀ requests,
      (Cursor.moves.answers requests (.ofFeed other)).1 =
        (Cursor.moves.answers requests (.ofFeed feed)).1) ∧
    ∀ limits n, textsUpTo limits feed n <+: feed.text ∧
      ((nth limits n (.ofFeed feed)).isEnd = true →
        (Reader.after limits n (.ofFeed feed)).token.text ≠ Kind.exitWord →
        textsUpTo limits feed (n + 1) = feed.text) := by
  have inText : endOfText ∉ feed.text := inText_of_lines inText
  refine ⟨Cursor.faithful inText, fun other same requests => ?_, fun limits n => ⟨?_, ?_⟩⟩
  · have there := (Cursor.faithful (same ▸ inText) requests).answers
    rw [there, (Cursor.faithful inText requests).answers, same]
  · obtain ⟨shown, _, texts⟩ := between_after limits inText n
    rw [texts]
    exact List.take_prefix shown feed.text
  · exact textsUpTo_of_end limits inText

/-- A feed that fails after two lines, one with a carriage return and one without an end. -/
def failing : Feed := ⟨[.line "if((x))\r\n", .line "y", .failure "gone", .line "z\n"], []⟩

/-- The same text in lines that are cut otherwise. -/
def lasting : Feed := ⟨[.line "if((x))\n", .line "y\r\n"], []⟩

theorem failing_faithful :
    Cursor.Faithful failing [.peek, .advance, .beginEntry, .advance, .raw, .position] ∧
      (∀ requests, (Cursor.moves.answers requests (.ofFeed lasting)).1 =
        (Cursor.moves.answers requests (.ofFeed failing)).1) ∧
      (nth ⟨0, 0⟩ 0 (.ofFeed failing)).diagnostics.map (·.cause) = [.nestingTooDeep] ∧
      (nth ⟨0, 0⟩ 2 (.ofFeed failing)).isEnd = true ∧
      textsUpTo ⟨0, 0⟩ failing 3 = "if((x))\ny\n".toList := by
  have inText : ∀ line, .line line ∈ failing.replies → endOfText ∉ line.toList := by
    simp [failing, endOfText]
  obtain ⟨faithful, same, texts⟩ := readers_faithful failing inText
  have tooDeep : (nth ⟨0, 0⟩ 0 (.ofFeed failing)).diagnostics.map (·.cause) =
      [.nestingTooDeep] := by decide +kernel
  have isEnd : (nth ⟨0, 0⟩ 2 (.ofFeed failing)).isEnd = true := by decide +kernel
  have notExit : (Reader.after ⟨0, 0⟩ 2 (.ofFeed failing)).token.text ≠ Kind.exitWord := by
    decide +kernel
  have whole := (texts ⟨0, 0⟩ 2).2 isEnd notExit
  exact ⟨faithful _, same lasting (by decide), tooDeep, isEnd, whole.trans (by decide)⟩

end ComplexScript.Entry
