import ComplexScript.Proofs.Text.Delivery
set_option autoImplicit false

/-!
# Lines on a tape

The lines of a feed, normalized and put together, are one text (`Feed.text`).  To read it takes no
more than two places in it: how far it has been shown, and where the entry began (`Tape`).  A cursor
answers any requests in any order as that does (`Cursor.faithful`), so the answers do not tell how a
text is cut into lines.  Only a look may ask the feed, and it does so when all that the feed has
given has been shown (`Cursor.Asks`).
-/

namespace ComplexScript.Text

/-! ## Requests -/

/-- What can be done with something that shows a text one character at a time. -/
structure Moves (σ : Type) where
  /-- Look at the next character that has not been used. -/
  peek : σ → Char × σ
  /-- Use it. -/
  release : σ → σ
  position : σ → Position
  /-- The text of the entry. -/
  raw : σ → List Char
  beginEntry : σ → σ

/-- What a reader asks for. -/
inductive Request where
  | peek
  | advance
  | release
  | position
  | raw
  | beginEntry
  deriving DecidableEq, Repr, Inhabited

/-- What a reader is told. -/
inductive Answer where
  | char (ch : Char)
  | position (p : Position)
  | raw (cs : List Char)
  /-- nothing but that it was done -/
  | done
  deriving DecidableEq, Repr, Inhabited

namespace Moves

variable {σ τ : Type}

/-- Answer a request. -/
def answer (m : Moves σ) (request : Request) (s : σ) : Answer × σ :=
  match request with
  | .peek => (.char (m.peek s).1, (m.peek s).2)
  | .advance => (.char (m.peek (m.release s)).1, (m.peek (m.release s)).2)
  | .release => (.done, m.release s)
  | .position => (.position (m.position s), s)
  | .raw => (.raw (m.raw s), s)
  | .beginEntry => (.done, m.beginEntry s)

/-- Answer requests one after another. -/
def answers (m : Moves σ) : List Request → σ → List Answer × σ
  | [], s => ([], s)
  | request :: requests, s =>
    let first := m.answer request s
    let rest := m.answers requests first.2
    (first.1 :: rest.1, rest.2)

/-- A relation that no move tells apart or breaks. -/
structure InStep (m : Moves σ) (n : Moves τ) (R : σ → τ → Prop) : Prop where
  peek : ∀ {s t}, R s t → (m.peek s).1 = (n.peek t).1 ∧ R (m.peek s).2 (n.peek t).2
  release : ∀ {s t}, R s t → R (m.release s) (n.release t)
  position : ∀ {s t}, R s t → m.position s = n.position t
  raw : ∀ {s t}, R s t → m.raw s = n.raw t
  beginEntry : ∀ {s t}, R s t → R (m.beginEntry s) (n.beginEntry t)

namespace InStep

variable {m : Moves σ} {n : Moves τ} {R : σ → τ → Prop} {s : σ} {t : τ}

theorem answer (inStep : InStep m n R) (related : R s t) (request : Request) :
    (m.answer request s).1 = (n.answer request t).1 ∧
      R (m.answer request s).2 (n.answer request t).2 := by
  cases request with
  | peek => exact (inStep.peek related).imp_left (congrArg Answer.char)
  | advance => exact (inStep.peek (inStep.release related)).imp_left (congrArg Answer.char)
  | release => exact ⟨rfl, inStep.release related⟩
  | position => exact ⟨congrArg Answer.position (inStep.position related), related⟩
  | raw => exact ⟨congrArg Answer.raw (inStep.raw related), related⟩
  | beginEntry => exact ⟨rfl, inStep.beginEntry related⟩

/-- In step, all requests are answered the same. -/
theorem answers (inStep : InStep m n R) (related : R s t) (requests : List Request) :
    (m.answers requests s).1 = (n.answers requests t).1 ∧
      R (m.answers requests s).2 (n.answers requests t).2 := by
  induction requests generalizing s t with
  | nil => exact ⟨rfl, related⟩
  | cons request requests ih =>
    obtain ⟨first, after⟩ := inStep.answer related request
    obtain ⟨rest, last⟩ := ih after
    exact ⟨congr (congrArg List.cons first) rest, last⟩

end InStep

end Moves

/-! ## Tapes -/

/-- A text, and how far it has been read. -/
structure Tape where
  text : List Char
  /-- How many characters have been shown.  After those of the text these are its end, over and over
  again. -/
  shown : Nat := 0
  /-- How many of them had been shown when the entry began. -/
  begun : Nat := 0
  /-- Whether the last one is still to be used. -/
  held : Bool := false
  deriving DecidableEq, Repr, Inhabited

namespace Tape

/-- The characters of the text, and the end of it from there on. -/
def char (t : Tape) (n : Nat) : Char := t.text[n]?.getD endOfText

/-- The character shown last if it is still to be used, else the next one. -/
def peek (t : Tape) : Char × Tape :=
  if t.held then (t.char (t.shown - 1), t)
  else (t.char t.shown, { t with shown := t.shown + 1, held := true })

def release (t : Tape) : Tape := { t with held := false }

/-- The characters of the text shown since the entry began. -/
def raw (t : Tape) : List Char := (t.text.take t.shown).drop t.begun

def position (t : Tape) : Position := Position.origin.advanceOver t.raw

def beginEntry (t : Tape) : Tape := { t with begun := t.shown }

def moves : Moves Tape := ⟨peek, release, position, raw, beginEntry⟩

/-- A text of which nothing has been shown. -/
def ofText (text : List Char) : Tape := { text := text }

/-- A text after requests. -/
def after (text : List Char) (requests : List Request) : Tape :=
  (moves.answers requests (ofText text)).2

variable {t : Tape}

/-- One character more is shown of the entry, if there is one. -/
theorem raw_succ (started : t.begun ≤ t.shown) :
    (t.text.take (t.shown + 1)).drop t.begun = t.raw ++ t.text[t.shown]?.toList := by
  rw [List.take_add_one, raw]
  cases more : t.text[t.shown]? with
  | none => rw [Option.toList_none, List.append_nil, List.append_nil]
  | some ch =>
    obtain ⟨inside, _⟩ := List.getElem?_eq_some_iff.mp more
    refine List.drop_append_of_le_length ?_
    rw [List.length_take]
    omega

theorem raw_beginEntry (t : Tape) : t.beginEntry.raw = [] := by
  refine List.drop_eq_nil_of_le ?_
  rw [List.length_take]
  exact Nat.min_le_left t.shown t.text.length

end Tape

namespace Cursor

variable {feed : Feed} {t : Tape} {c : Cursor} {read : List Char}

def moves : Moves Cursor := ⟨peek, release, position, fun c => c.raw.toList, beginEntry⟩

/-- The cursor on a feed after requests. -/
def after (feed : Feed) (requests : List Request) : Cursor :=
  (moves.answers requests (ofFeed feed)).2

/-! ## What the feed has given -/

/-- As long as the feed has not ended it has given lines only, and they hold what has been read and
what is left of the last one. -/
structure Told (feed : Feed) (read : List Char) (c : Cursor) : Prop where
  ended : c.ended = true → c.line = []
  lines : c.ended = false → ∃ lines : List String, Taken feed (lines.map .line) c ∧
    read ++ c.line = lines.flatMap fun line => normalized line.toList

/-- What the feed is asked on the way from one cursor to another: nothing, or for the line after
those it has given, all of which have been read, and whether the entry has text already. -/
inductive Asks (feed : Feed) (read : List Char) (c c' : Cursor) : Prop where
  | nothing (same : c'.feed = c.feed)
  | line {lines : List String} (taken : Taken feed (lines.map .line) c)
    (shown : (lines.flatMap fun line => normalized line.toList) = read)
    (asked : c'.feed = (c.feed.next (!c.raw.isEmpty)).2)

/-- One more line has been taken. -/
theorem Taken.next {line : String} {rest : List Reply} {asked : List Bool}
    {lines : List String} {d : Cursor} (h : Taken feed (lines.map .line) c)
    (same : c.feed = ⟨.line line :: rest, asked⟩) (q : Bool) (there : d.feed = ⟨rest, q :: asked⟩) :
    Taken feed ((lines ++ [line]).map .line) d := by
  obtain ⟨replies, questions⟩ := h
  rw [same] at replies questions
  rw [Taken, there, List.map_append, List.append_assoc, List.length_append, ← Nat.add_assoc,
    ← questions]
  exact ⟨replies, rfl⟩

theorem told_ofFeed (feed : Feed) : Told feed [] (ofFeed feed) where
  ended := nofun
  lines _ := ⟨[], ⟨rfl, rfl⟩, rfl⟩

theorem told_of_ended (ended : c.ended = true) (noLine : c.line = []) : Told feed read c where
  ended _ := noLine
  lines goesOn := absurd (goesOn.symm.trans ended) Bool.false_ne_true

/-- A character is read off the line, or the first one off the line that is asked for. -/
theorem Told.fetch (h : Told feed read c) :
    Told feed (read ++ c.upcoming.head?.toList) c.fetch.2 ∧ Asks feed read c c.fetch.2 := by
  obtain ⟨⟨replies, asked⟩, line, held, ended, position, raw, failure⟩ := c
  obtain ⟨noLine, given⟩ := h
  cases line with
  | cons ch rest =>
    refine ⟨⟨fun isEnd => (nomatch noLine isEnd), fun goesOn => ?_⟩, .nothing rfl⟩
    obtain ⟨lines, taken, given⟩ := given goesOn
    exact ⟨lines, taken, (List.append_assoc read [ch] rest).trans given⟩
  | nil =>
    cases ended with
    | true => exact ⟨told_of_ended rfl rfl, .nothing rfl⟩
    | false =>
      obtain ⟨lines, taken, given⟩ := given rfl
      have allRead : read = lines.flatMap fun line => normalized line.toList :=
        (List.append_nil read).symm.trans given
      have asks : ∀ c' : Cursor, c'.feed = (Feed.next (!raw.isEmpty) ⟨replies, asked⟩).2 →
          Asks feed read ⟨⟨replies, asked⟩, [], held, false, position, raw, failure⟩ c' :=
        fun _ => .line taken allRead.symm
      rcases replies with _ | ⟨text | cause | _, rest⟩
      · exact ⟨told_of_ended rfl rfl, asks _ rfl⟩
      · refine ⟨⟨nofun, fun _ => ⟨lines ++ [text], taken.next rfl _ rfl, ?_⟩⟩, asks _ rfl⟩
        obtain ⟨first, others, chars⟩ := List.exists_cons_of_ne_nil (normalized_ne_nil text.toList)
        simpa [upcoming, fetch, Feed.text, joined, chars] using allRead
      · exact ⟨told_of_ended rfl rfl, asks _ rfl⟩
      · exact ⟨told_of_ended rfl rfl, asks _ rfl⟩

theorem hold_feed (ch : Char) (c : Cursor) : (c.hold ch).feed = c.feed := by
  unfold hold
  split <;> rfl

theorem Told.hold (h : Told feed read c) (ch : Char) : Told feed read (c.hold ch) := by
  unfold Cursor.hold
  split
  · exact ⟨h.ended, h.lines⟩
  · exact ⟨h.ended, h.lines⟩

theorem Asks.hold {c' : Cursor} (h : Asks feed read c c') (ch : Char) :
    Asks feed read c (c'.hold ch) := by
  cases h with
  | nothing same => exact .nothing ((hold_feed ch c').trans same)
  | line taken shown asked => exact .line taken shown ((hold_feed ch c').trans asked)

/-! ## The cursor on a tape -/

/-- A fetch gives the first of the characters to come, and the end of the text where none is. -/
theorem fetch_of_released (released : c.held = none) (inText : endOfText ∉ c.upcoming) :
    c.fetch.1 = c.upcoming.head?.getD endOfText ∧ c.fetch.2.upcoming = c.upcoming.tail ∧
      c.fetched = c.upcoming.head?.toList := by
  have fetched : c.fetched = if c.fetch.1 = endOfText then [] else [c.fetch.1] := by
    rw [Cursor.fetched, released]
  rw [fetched]
  rcases fetch_upcoming c with ⟨nothing, isEnd, rest⟩ | first
  · rw [nothing, isEnd, rest, if_pos rfl]
    exact ⟨rfl, rfl, rfl⟩
  · rw [first] at inText ⊢
    rw [if_neg (Ne.symm (List.ne_of_not_mem_cons inText))]
    exact ⟨rfl, rfl, rfl⟩

/-- The cursor has read the text of a feed as far as the tape says. -/
structure Tracks (feed : Feed) (t : Tape) (c : Cursor) : Prop where
  text : t.text = feed.text
  inText : endOfText ∉ t.text
  started : t.begun ≤ t.shown
  sound : c.Sound
  held : c.held = if t.held then some (t.char (t.shown - 1)) else none
  raw : c.raw.toList = t.raw
  position : c.position = t.position
  upcoming : c.upcoming = t.text.drop t.shown
  told : Told feed (t.text.take t.shown) c

theorem tracks_ofFeed (inText : endOfText ∉ feed.text) :
    Tracks feed (.ofText feed.text) (ofFeed feed) where
  text := rfl
  inText := inText
  started := Nat.le_refl 0
  sound := sound_ofFeed feed
  held := rfl
  raw := rfl
  position := rfl
  upcoming := rfl
  told := told_ofFeed feed

namespace Tracks

theorem release (h : Tracks feed t c) : Tracks feed t.release c.release where
  text := h.text
  inText := h.inText
  started := h.started
  sound := h.sound.release
  held := rfl
  raw := h.raw
  position := h.position
  upcoming := h.upcoming
  told := ⟨h.told.ended, h.told.lines⟩

theorem beginEntry (h : Tracks feed t c) : Tracks feed t.beginEntry c.beginEntry where
  text := h.text
  inText := h.inText
  started := Nat.le_refl t.shown
  sound := h.sound
  held := h.held
  raw := t.raw_beginEntry.symm
  position := congrArg Position.origin.advanceOver t.raw_beginEntry.symm
  upcoming := h.upcoming
  told := ⟨h.told.ended, h.told.lines⟩

/-- A look at what is held changes nothing, and any other takes the next character off the tape. -/
theorem peek (h : Tracks feed t c) :
    c.peek.1 = t.peek.1 ∧ Tracks feed t.peek.2 c.peek.2 ∧
      Asks feed (t.text.take t.shown) c c.peek.2 := by
  have held := h.held
  unfold Tape.peek
  cases isHeld : t.held with
  | true =>
    rw [isHeld, if_pos rfl] at held
    rw [peek_of_held held]
    exact ⟨rfl, h, .nothing rfl⟩
  | false =>
    rw [isHeld, if_neg Bool.false_ne_true] at held
    have inText : endOfText ∉ c.upcoming := by
      rw [h.upcoming]
      exact fun mem => h.inText (List.mem_of_mem_drop mem)
    obtain ⟨shown, rest, fetched⟩ := fetch_of_released held inText
    obtain ⟨told, asks⟩ := h.told.fetch
    rw [h.upcoming, List.head?_drop] at shown fetched told
    rw [h.upcoming, List.tail_drop] at rest
    rw [← List.take_add_one] at told
    have raw : c.peek.2.raw.toList = (t.text.take (t.shown + 1)).drop t.begun := by
      rw [peek_raw, fetched, h.raw, Tape.raw_succ h.started]
    have position : c.peek.2.position =
        Position.origin.advanceOver ((t.text.take (t.shown + 1)).drop t.begun) := by
      rw [peek_position, fetched, h.position, Tape.raw_succ h.started,
        Position.advanceOver_append]
      rfl
    have sound := h.sound.peek
    rw [peek_of_released held] at raw position sound ⊢
    refine ⟨shown, ⟨h.text, h.inText, Nat.le_succ_of_le h.started, sound, ?_, raw, position, ?_,
      told.hold _⟩, asks.hold _⟩
    · rw [hold_held, shown]
      rfl
    · exact (hold_upcoming _ _).trans rest

/-- Only a look may ask the feed for a line, and it counts what has been shown before it. -/
theorem asks (h : Tracks feed t c) (request : Request) :
    Asks feed (t.text.take t.shown) c (moves.answer request c).2 := by
  cases request with
  | peek => exact h.peek.2.2
  | advance =>
    cases h.release.peek.2.2 with
    | nothing same => exact .nothing same
    | line taken shown asked => exact .line taken shown asked
  | release | position | raw | beginEntry => exact .nothing rfl

end Tracks

/-- No move tells a cursor from the tape it is on. -/
theorem inStep_tape (feed : Feed) : Moves.InStep moves Tape.moves fun c t => Tracks feed t c where
  peek h := ⟨h.peek.1, h.peek.2.1⟩
  release := Tracks.release
  position h := h.position
  raw h := h.raw
  beginEntry := Tracks.beginEntry

/-- A cursor on a feed stays on the tape of the feed's text, and answers as the tape does. -/
theorem tracks_after (inText : endOfText ∉ feed.text) (requests : List Request) :
    (moves.answers requests (ofFeed feed)).1 =
        (Tape.moves.answers requests (.ofText feed.text)).1 ∧
      Tracks feed (.after feed.text requests) (after feed requests) :=
  (inStep_tape feed).answers (tracks_ofFeed inText) requests

/-- What is said of a cursor on a feed that has been given some requests. -/
structure Faithful (feed : Feed) (requests : List Request) : Prop where
  /-- The text alone gives the same answers. -/
  answers : (moves.answers requests (ofFeed feed)).1 =
    (Tape.moves.answers requests (.ofText feed.text)).1
  /-- The text of the entry is what has been shown since it began. -/
  raw : (after feed requests).raw.toList = (Tape.after feed.text requests).raw
  position : (after feed requests).position =
    Position.origin.advanceOver (after feed requests).raw.toList
  /-- One request more asks the feed for nothing, or for one line when all the others have been
  shown. -/
  asks (request : Request) : Asks feed (feed.text.take (Tape.after feed.text requests).shown)
    (after feed requests) (moves.answer request (after feed requests)).2

/-- Cursors are faithful to the texts of their feeds. -/
theorem faithful (inText : endOfText ∉ feed.text) (requests : List Request) :
    Faithful feed requests := by
  obtain ⟨answers, tracks⟩ := tracks_after inText requests
  have asks := tracks.asks
  rw [tracks.text] at asks
  exact ⟨answers, tracks.raw, tracks.position.trans (congrArg _ tracks.raw.symm), asks⟩

end Cursor

end ComplexScript.Text
