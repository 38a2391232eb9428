import ComplexScript.Proofs.Entry.Alike
import ComplexScript.Proofs.Text.Delivery
set_option autoImplicit false

/-!
# Entries are independent of each other

An entry that was not given up ends right after its terminator, with no token and no character
waiting, or at the end of the text (`ItemEnd`).  So it has read no further than it must, and the
entries after it are those of a new reader of the characters that are left
(`entries_independent`).  An entry that was given up can leave a token of the next one waiting, so
such entries are left out.
-/

namespace ComplexScript.Entry

open ComplexScript.Program
open ComplexScript.Text
open ComplexScript.Token (Kind)
open Read

/-! ## How an item ends -/

/-- The kinds of tokens that end a statement wherever it stands. -/
def terminators : List Kind := [.lineBreak, .semicolon]

/-- How a top-level item leaves a reader: given up, at the end of the text, or right after a
terminator. -/
def ItemEnd (I : Reader → Prop) (s : Reader) : Prop :=
  s.abandoned = true ∨ (∃ t, s.lookahead = some t ∧ t.kind = .endOfInput) ∨
    ∃ r, I r ∧ r.token.kind ∈ terminators ∧ s = r.looked.used

section

variable {I : Reader → Prop} (invariant : Invariant I) {fuel : Nat} {ctx : Context}

theorem itemEnd_of_endOfInput {r : Reader} (isEnd : r.token.kind = .endOfInput) :
    ItemEnd I r.looked := .inr (.inl ⟨r.token, r.looked_lookahead, isEnd⟩)

theorem itemEnd_of_terminator {r : Reader} (before : I r) (kind : r.token.kind ∈ terminators) :
    ItemEnd I r.looked.used := .inr (.inr ⟨r, before, kind, rfl⟩)

/-- Statements, and what is run together with them, end as items do. -/
def ItemsEnd (I : Reader → Prop) (fuel : Nat) : Prop :=
  ∀ {ctx : Context} {r s : Reader} {tree : Node}, I r →
    (statement fuel ctx false r = some (tree, s) → ItemEnd I s) ∧
      ∀ node, terminated fuel ctx false node r = some (tree, s) → ItemEnd I s

include invariant

theorem ItemsEnd.statement (ih : ItemsEnd I fuel) {r s : Reader} {tree : Node} (before : I r)
    (run : statement (fuel + 1) ctx false r = some (tree, s)) : ItemEnd I s := by
  rw [statement_succ] at run
  split at run
  · next kind =>
    cases run
    exact itemEnd_of_terminator before (by simp [terminators, kind])
  split at run
  · next kind =>
    cases run
    exact itemEnd_of_terminator before (by simp [terminators, kind])
  split at run
  · next isEnd =>
    cases run
    exact itemEnd_of_endOfInput isEnd
  obtain ⟨node, t, here, there⟩ := bind_eq_some.mp run
  have sim := invariant.simulation
  obtain ⟨_, after⟩ := (Rule.sim sim (Nat.le_refl fuel) .instruction (.refl _ ctx)).self
    (invariant.look r before) here
  exact (ih after).2 node there

theorem ItemsEnd.terminated (ih : ItemsEnd I fuel) {r s : Reader} {tree : Node} (before : I r)
    (node : Node) (run : terminated (fuel + 1) ctx false node r = some (tree, s)) :
    ItemEnd I s := by
  rw [terminated_succ] at run
  split at run
  · next kind =>
    cases run
    exact itemEnd_of_terminator before (by simp [terminators, kind])
  split at run
  · next kind =>
    cases run
    exact itemEnd_of_terminator before (by simp [terminators, kind])
  split at run
  · next isEnd =>
    cases run
    exact itemEnd_of_endOfInput isEnd
  split at run
  · next abandoned =>
    cases run
    exact .inl (r.looked_abandoned.trans abandoned)
  rw [Bool.false_and, if_neg Bool.false_ne_true] at run
  obtain ⟨rest, t, here, there⟩ := bind_eq_some.mp run
  cases there
  unfold chained at here
  split at here
  · obtain ⟨_, t, gaveUp, there⟩ := bind_eq_some.mp here
    cases there
    exact .inl (giveUp_abandoned gaveUp)
  · exact (ih (invariant.report _ _ (invariant.look r before))).1 here

theorem itemsEnd (fuel : Nat) : ItemsEnd I fuel := by
  induction fuel with
  | zero =>
    intro ctx r s tree _
    constructor
    · intro run
      cases run
    · intro node run
      cases run
  | succ fuel ih =>
    intro ctx r s tree before
    exact ⟨ih.statement invariant before, ih.terminated invariant before⟩

/-- An entry ends as items do. -/
theorem entry_itemEnd {r s : Reader} {node : Node} (before : I r)
    (run : entry fuel ctx r = some (node, s)) : ItemEnd I s := by
  have sim := invariant.simulation
  have looked : I r.looked := invariant.look r before
  rw [entry, acceptOr_eq] at run
  split at run
  · obtain ⟨function, t, here, there⟩ := bind_eq_some.mp run
    have after := (definition_sim sim (Nat.le_refl fuel) (.refl _ ctx)).self
      (invariant.use _ looked) here
    exact (itemsEnd invariant fuel after.2).2 function there
  · exact (itemsEnd invariant fuel looked).1 run

end

/-! ## What a reader has taken from its feed -/

/-- The characters that end a statement. -/
def terminatorCharacters : List Char := ['\n', '\r', ';']

/-- Right after a terminator: nothing is held, and the character released last is the terminator. -/
def AfterTerminator (feed : Feed) (c : Cursor) : Prop :=
  ∃ d : Cursor, d.Follows feed ∧ (∃ ch ∈ terminatorCharacters, d.held = some ch) ∧ c = d.release

/-- Nothing after the terminator has been read. -/
theorem AfterTerminator.last {feed : Feed} {c : Cursor} (h : AfterTerminator feed c) :
    c.held = none ∧ c.ended = false ∧ ∃ ch ∈ terminatorCharacters,
      c.raw.toList.getLast? = some ch ∧ Cursor.InLine feed (ch :: c.line) c := by
  obtain ⟨d, follows, ⟨ch, is, held⟩, rfl⟩ := h
  have inText : ch ≠ endOfText := by
    rintro rfl
    revert is
    decide
  obtain ⟨goesOn, last, inLine⟩ := follows.held ch held inText
  exact ⟨rfl, goesOn, ch, is, last, inLine⟩

/-- A reader that has read from a feed no further than it was moved. -/
structure Reading (feed : Feed) (r : Reader) : Prop where
  sane : r.Sane
  cursor : r.cursor.Follows feed
  terminator : ∀ t, r.lookahead = some t → t.kind ∈ terminators → AfterTerminator feed r.cursor
  abandoned : r.abandoned = true → ∃ d ∈ r.diagnostics, d.cause = .nestingTooDeep

theorem Reading.looked {feed : Feed} {r : Reader} (h : Reading feed r) : Reading feed r.looked := by
  obtain ⟨sane, abandoned⟩ := invariant_candid.look r ⟨h.sane, h.abandoned⟩
  unfold Reader.looked at sane abandoned ⊢
  cases found : r.lookahead with
  | some t => exact h
  | none =>
    rw [found] at sane abandoned
    obtain ⟨_, _, follows⟩ := Token.Scan.next_sim (Cursor.bisimulation_follows feed) _ _
      ⟨rfl, h.cursor⟩
    refine ⟨sane, follows, ?_, abandoned⟩
    rintro _ ⟨⟩ kind
    obtain ⟨_, blanks⟩ := Token.Scan.afterBlanks_related
      (Cursor.bisimulation_follows feed).toCoupling ⟨rfl, h.cursor⟩
    obtain ⟨ch, is, held, released⟩ :=
      (Token.Scan.next_scanned r.cursor).terminator (by simpa [terminators] using kind)
    exact ⟨_, blanks, ⟨ch, is, held⟩, released⟩

theorem invariant_reading (feed : Feed) : Invariant (Reading feed) where
  sane _ h := h.sane
  look _ h := h.looked
  use r h := ⟨invariant_sane.use r h.sane, h.cursor, nofun, h.abandoned⟩
  report r d h := by
    unfold Reader.reported
    split
    · exact h
    · next notYet => exact ⟨h.sane, h.cursor, h.terminator, fun given => absurd given notYet⟩
  giveUp r t h _ := by
    refine ⟨h.sane, h.cursor, h.terminator, fun _ => ⟨⟨t, .nestingTooDeep⟩, ?_, rfl⟩⟩
    exact List.mem_append_right _ (List.mem_singleton_self _)

/-! ## Between entries -/

/-- An entry begins, with nothing read of it. -/
structure Begun (feed : Feed) (r : Reader) : Prop where
  cursor : r.cursor.Follows feed
  held : r.cursor.held = none
  goesOn : r.cursor.ended = false
  position : r.cursor.position = .origin
  raw : r.cursor.raw = ""
  lookahead : r.lookahead = none
  diagnostics : r.diagnostics = []
  abandoned : r.abandoned = false

theorem begun_ofFeed (feed : Feed) : Begun feed (.ofFeed feed) :=
  ⟨Cursor.follows_ofFeed feed, rfl, rfl, rfl, rfl, rfl, rfl, rfl⟩

theorem Begun.reading {feed : Feed} {r : Reader} (h : Begun feed r) : Reading feed r where
  sane _ found := nomatch h.lookahead.symm.trans found
  cursor := h.cursor
  terminator _ found := nomatch h.lookahead.symm.trans found
  abandoned given := nomatch h.abandoned.symm.trans given

/-- The end of the text has been looked at. -/
structure Ended (r : Reader) : Prop where
  lookahead : ∃ t, r.lookahead = some t ∧ t.kind = .endOfInput
  raw : r.cursor.raw = ""
  diagnostics : r.diagnostics = []

/-- The entry that the end of a text is read as. -/
def endEntry : Entry := ⟨.endOfInput, [], ""⟩

section

variable {limits : Limits} {feed : Feed} {r : Reader}

/-- Where the end of the text comes next, it is the entry, and stays the next token. -/
theorem next_at_end (isEnd : r.token.kind = .endOfInput) :
    next limits r = (⟨.endOfInput, r.looked.diagnostics, r.looked.cursor.raw⟩,
      { r.looked with
        abandoned := false, diagnostics := [], cursor := r.looked.cursor.beginEntry }) := by
  have looked : Reader.looked { r with abandoned := false } =
      { r.looked with abandoned := false } := by
    obtain ⟨cursor, lookahead, diagnostics, abandoned⟩ := r
    cases lookahead <;> rfl
  have token : Reader.token { r with abandoned := false } = r.token := rfl
  obtain ⟨fuel, enough⟩ : ∃ fuel, budget r = fuel + 1 := ⟨32 * (r.cursor.size + 1) + 31, rfl⟩
  have run : entry (budget r) { limits := limits } { r with abandoned := false } =
      some (.endOfInput, { r.looked with abandoned := false }) := by
    rw [enough, entry, acceptOr_eq, token, isEnd, if_neg (by decide), statement_succ,
      Reader.token_looked, token, isEnd, if_neg (by decide), if_neg (by decide), if_pos rfl,
      Reader.looked_looked, looked]
  rw [next_of_entry run]

/-- Where nothing else was read for it, the end of the text is all of the entry. -/
theorem next_of_endOfInput (isEnd : r.token.kind = .endOfInput) (raw : r.looked.cursor.raw = "")
    (diagnostics : r.looked.diagnostics = []) :
    (next limits r).1 = endEntry ∧ Ended (next limits r).2 := by
  rw [next_at_end isEnd, endEntry, diagnostics, raw]
  exact ⟨rfl, ⟨r.token, r.looked_lookahead, isEnd⟩, rfl, rfl⟩

theorem next_ended (h : Ended r) : (next limits r).1 = endEntry ∧ Ended (next limits r).2 := by
  obtain ⟨⟨t, found, isEnd⟩, raw, diagnostics⟩ := h
  have token : r.token = t := by
    rw [Reader.token, found]
    rfl
  have looked : r.looked = r := Reader.looked_of_some found
  exact next_of_endOfInput (token ▸ isEnd) (looked.symm ▸ raw) (looked.symm ▸ diagnostics)

theorem nth_ended (h : Ended r) (n : Nat) : nth limits n r = endEntry := by
  have ended : Ended (r.after limits n) := by
    induction n with
    | zero => exact h
    | succ n ih => exact (next_ended ih).2
  exact (next_ended ended).1

/-- The text of the entry ends with a terminator, and nothing after it has been read. -/
def ReadThrough (feed : Feed) (e : Entry) (r : Reader) : Prop :=
  ∃ ch ∈ terminatorCharacters, e.text.toList.getLast? = some ch ∧
    Cursor.InLine feed (ch :: r.cursor.line) r.cursor

/-- An entry that is not given up is read through its terminator and no further, or ends with the
text. -/
theorem next_begun (h : Begun feed r)
    (clean : ∀ d ∈ (next limits r).1.diagnostics, d.cause ≠ .nestingTooDeep) :
    Begun feed (next limits r).2 ∧ ReadThrough feed (next limits r).1 (next limits r).2 ∨
      Ended (next limits r).2 := by
  obtain ⟨node, t, run, read, _⟩ := next_read limits h.cursor.sound
  have start : Reading feed { r with abandoned := false } := by
    have reading := h.reading
    rw [← h.abandoned]
    exact reading
  have after := entry_invariant (invariant_reading feed) start run
  have ending := entry_itemEnd (invariant_reading feed) start run
  rw [read] at clean ⊢
  have notAbandoned : t.abandoned = false := by
    cases abandoned : t.abandoned with
    | false => rfl
    | true =>
      obtain ⟨d, mem, tooDeep⟩ := after.abandoned abandoned
      exact absurd tooDeep (clean d mem)
  rcases ending with abandoned | found | ⟨s, reading, kind, rfl⟩
  · cases notAbandoned.symm.trans abandoned
  · exact .inr ⟨found, rfl, rfl⟩
  · have closed := reading.looked.terminator _ s.looked_lookahead kind
    obtain ⟨free, goesOn, ch, is, last, inLine⟩ := closed.last
    have begun := after.cursor.beginEntry free
    exact .inl ⟨⟨begun, free, goesOn, rfl, rfl, rfl, rfl, notAbandoned⟩, ch, is, last, inLine⟩

theorem begun_or_ended (limits : Limits) (feed : Feed) (n : Nat)
    (clean : ∀ m < n, ∀ d ∈ (nth limits m (.ofFeed feed)).diagnostics, d.cause ≠ .nestingTooDeep) :
    Begun feed (Reader.after limits n (.ofFeed feed)) ∨
      Ended (Reader.after limits n (.ofFeed feed)) := by
  induction n with
  | zero => exact .inl (begun_ofFeed feed)
  | succ n ih =>
    rcases ih fun m less => clean m (Nat.lt_succ_of_lt less) with begun | ended
    · exact (next_begun begun (clean n (Nat.lt_succ_self n))).imp And.left id
    · exact .inr (next_ended ended).2

/-- An entry is closed: its text ends with a terminator, nothing after it has been read, and no
line after that of the terminator has been asked for.  The entries to come are those of a new reader
of the characters that are left. -/
structure Closed (limits : Limits) (feed : Feed) (e : Entry) (r : Reader) : Prop where
  readThrough : ReadThrough feed e r
  lookahead : r.lookahead = none
  held : r.cursor.held = none
  deliverable : ∃ rest : Feed, rest.text = r.cursor.line ++ r.cursor.feed.text
  independent : ∀ rest : Feed, rest.text = r.cursor.line ++ r.cursor.feed.text →
    ∀ m, nth limits m r = nth limits m (.ofFeed rest)

theorem Begun.closed {e : Entry} (h : Begun feed r) (readThrough : ReadThrough feed e r) :
    Closed limits feed e r where
  readThrough := readThrough
  lookahead := h.lookahead
  held := h.held
  deliverable := h.cursor.exists_text_eq
  independent rest same := by
    refine nth_alike limits ⟨⟨⟨?_, h.held, h.cursor.sound, ?_⟩, h.position, h.raw⟩, h.lookahead,
      h.diagnostics, h.abandoned, h.reading.sane⟩
    · rw [Cursor.upcoming, h.goesOn]
      exact same.symm
    · exact Cursor.sound_ofFeed rest

end

/-- Entries are independent of each other, as long as none was given up as nested too deep.  Each is
closed, or it ends with the text and all that follow are empty. -/
theorem entries_independent (limits : Limits) (feed : Feed) (n : Nat)
    (clean : ∀ m ≤ n, ∀ d ∈ (nth limits m (.ofFeed feed)).diagnostics,
      d.cause ≠ .nestingTooDeep) :
    Closed limits feed (nth limits n (.ofFeed feed)) (Reader.after limits (n + 1) (.ofFeed feed)) ∨
      Ended (Reader.after limits (n + 1) (.ofFeed feed)) ∧
        ∀ m, nth limits m (Reader.after limits (n + 1) (.ofFeed feed)) = endEntry := by
  have before := begun_or_ended limits feed n fun m less => clean m (Nat.le_of_lt less)
  have after : Ended (Reader.after limits (n + 1) (.ofFeed feed)) →
      ∀ m, nth limits m (Reader.after limits (n + 1) (.ofFeed feed)) = endEntry := nth_ended
  rcases before with begun | ended
  · rcases next_begun begun (clean n (Nat.le_refl n)) with ⟨begun, readThrough⟩ | ended
    · exact .inl (begun.closed readThrough)
    · exact .inr ⟨ended, after ended⟩
  · exact .inr ⟨(next_ended ended).2, after (next_ended ended).2⟩

/-- Two statements run together on one line with a third. -/
def runTogether : Feed := ⟨[.line "x y;z\n"], []⟩

theorem runTogether_closed :
    (nth {} 0 (.ofFeed runTogether)).diagnostics ≠ [] ∧
      Closed {} runTogether (nth {} 0 (.ofFeed runTogether))
        (Reader.after {} 1 (.ofFeed runTogether)) := by
  have complaint : (nth {} 0 (.ofFeed runTogether)).diagnostics ≠ [] := by decide +kernel
  have clean : ∀ m ≤ 0, ∀ d ∈ (nth {} m (.ofFeed runTogether)).diagnostics,
      d.cause ≠ .nestingTooDeep := by decide +kernel
  have used : (Reader.after {} 1 (.ofFeed runTogether)).lookahead = none := by decide +kernel
  refine ⟨complaint, ?_⟩
  rcases entries_independent {} runTogether 0 clean with closed | ⟨ended, _⟩
  · exact closed
  · obtain ⟨t, found, _⟩ := ended.lookahead
    cases used.symm.trans found

-- An entry that was given up can leave a token of the line after it waiting.
example :
    let r := Reader.after ⟨0, 0⟩ 1 (.ofFeed ⟨[.line "if((x))\n", .line "y\n"], []⟩)
    r.lookahead.isSome := by decide +kernel

end ComplexScript.Entry
