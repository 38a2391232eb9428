import ComplexScript.Proofs.Text.Lines
import ComplexScript.Proofs.Text.Taking
import ComplexScript.Proofs.Token.Edges
import ComplexScript.Proofs.Token.Scanning
set_option autoImplicit false

/-!
# Where tokens stand

The text of a token is what the scanner takes from its first character on (`Scan.next_placed`), so
it is part of the text of the entry, at the position of the token (`Placed.stands`).  The end of the
text and a line break are left out: the one takes nothing, the other is always shown as the same
character.
-/

namespace ComplexScript.Token.Scan

open ComplexScript.Text

variable {c d : Cursor} {ch : Char} {opening : List Char} {start : Position}

/-- The scanner takes the rest of a token after the characters `opening`. -/
def Completes (opening : List Char) (start : Position) (m : Scan Lexeme) : Prop :=
  ∀ c, ∃ cs, c.Takes cs (m c).2 ∧ (∀ x ∈ cs, isInner x = true) ∧
    (m c).1.token.text = String.ofList (opening ++ cs) ∧ (m c).1.token.position = start

/-- A finished token. -/
theorem Completes.pure {x : Lexeme} (text : x.token.text = String.ofList opening)
    (position : x.token.position = start) : Completes opening start (pure x) := by
  intro c
  refine ⟨[], .nothing c, List.forall_mem_nil _, ?_, position⟩
  rw [List.append_nil]
  exact text

/-- A run of characters in the middle of a token. -/
theorem Completes.run {p : Char → Bool} (stops : Cursor.Stops p)
    (inWord : ∀ ch, p ch = true → isWordCharacter ch = true) {f : List Char → Scan Lexeme}
    (h : ∀ cs, Completes (opening ++ cs) start (f cs)) :
    Completes opening start (takeRun p >>= f) := by
  intro c
  have run := Cursor.takes_takeRun stops.2 c
  have inner (x : Char) (mem : x ∈ (c.takeRun p).1) : isInner x = true :=
    isInner_of_isWordCharacter x (inWord x (Cursor.of_mem_takeWhile p _ _ mem))
  obtain ⟨cs, taken, inner', text, position⟩ := h (c.takeRun p).1 (c.takeRun p).2
  refine ⟨_, run.trans taken, ?_, ?_, position⟩
  · rw [List.forall_mem_append]
    exact ⟨inner, inner'⟩
  · rw [← List.append_assoc]
    exact text

/-- A look at the next character, which is taken if it is the one wanted. -/
theorem Completes.peek {want : Char} (inText : want ≠ endOfText) (is : isInner want = true)
    {yes : Scan Lexeme} {no : Scan Lexeme} (taken : Completes (opening ++ [want]) start yes)
    (left : Completes opening start no) :
    Completes opening start (Scan.peek >>= fun ch => if ch = want then release >>= fun _ => yes
      else no) := by
  intro c
  by_cases same : c.peek.1 = want
  · have held : c.peek.2.held = some want := same ▸ c.peek_held
    obtain ⟨cs, taken, inner, text, position⟩ := taken c.peek.2.release
    simp only [bind, StateT.bind, Scan.peek, release, if_pos same]
    refine ⟨want :: cs, .peek (.release held inText taken), ?_, ?_, position⟩
    · rw [List.forall_mem_cons]
      exact ⟨is, inner⟩
    · rw [text, List.append_assoc, List.singleton_append]
  · obtain ⟨cs, taken, inner, text, position⟩ := left c.peek.2
    simp only [bind, StateT.bind, Scan.peek, if_neg same]
    exact ⟨cs, .peek taken, inner, text, position⟩

/-- A look that decides how to go on, and takes nothing. -/
theorem Completes.see {f : Char → Scan Lexeme} (h : ∀ ch, Completes opening start (f ch)) :
    Completes opening start (Scan.peek >>= f) := by
  intro c
  obtain ⟨cs, taken, inner, text, position⟩ := h c.peek.1 c.peek.2
  exact ⟨cs, .peek taken, inner, text, position⟩

theorem ofLiteral_text (text : List Char) (start : Position)
    (value : Except ArithmeticFault Number) :
    (Lexeme.ofLiteral text start value).token.text = String.ofList text ∧
      (Lexeme.ofLiteral text start value).token.position = start := by
  cases value with
  | ok z => exact ⟨rfl, rfl⟩
  | error f => exact ⟨rfl, rfl⟩

theorem suffix_completes (text : List Char) (v : Float) (start : Position) :
    Completes text start (suffix text v start) := by
  refine .peek (by decide) (by decide) (.pure ?_ ?_) (.pure ?_ ?_)
  · exact (ofLiteral_text _ start _).1
  · exact (ofLiteral_text _ start _).2
  · exact (ofLiteral_text _ start _).1
  · exact (ofLiteral_text _ start _).2

theorem digits_completes (b : Base) (opening : List Char) (v : Float) (start : Position) :
    Completes opening start (digits b opening v start) := by
  refine .run (stops_isDigit b) (isWordCharacter_of_isDigit b) fun whole => ?_
  refine .peek (by decide) (by decide) (.see fun digit => ?_) (suffix_completes _ _ start)
  split
  · refine .run (stops_isDigit b) (isWordCharacter_of_isDigit b) fun places => ?_
    rw [← List.append_cons]
    exact suffix_completes _ _ start
  · exact .pure rfl rfl

/-- The base is marked by a character of its own. -/
theorem opening_marked {first second : Char} {b : Base}
    (h : Base.opening first second = .marked b) : second = 'x' ∨ second = 'b' := by
  unfold Base.opening at h
  by_cases isHexadecimal : second = 'x'
  · exact .inl isHexadecimal
  by_cases isBinary : second = 'b'
  · exact .inr isBinary
  rw [if_neg isHexadecimal, if_neg isBinary] at h
  repeat' split at h
  all_goals cases h

/-- What is taken of a token from its first character on, which is under the cursor. -/
structure Placed (d : Cursor) (r : Lexeme × Cursor) : Prop where
  taken : d.Takes r.1.token.text.toList r.2
  first : ∃ ch rest, d.held = some ch ∧ ch ≠ endOfText ∧ r.1.token.text.toList = ch :: rest
  inner : ∀ x ∈ r.1.token.text.toList.tail, isInner x = true
  inLine : '\n' ∉ r.1.token.text.toList
  position : r.1.token.position = d.position

/-- A token is placed if its first character is under the cursor and the rest is taken after it. -/
theorem placed_of_completes {m : Scan Lexeme} (held : d.held = some ch) (inText : ch ≠ endOfText)
    (inLine : '\n' ≠ ch) (h : Completes [ch] d.position m) : Placed d (m d.release) := by
  obtain ⟨cs, taken, inner, text, position⟩ := h d.release
  have chars : (m d.release).1.token.text.toList = ch :: cs := by
    rw [text, String.toList_ofList, List.singleton_append]
  refine ⟨?_, ⟨ch, cs, held, inText, chars⟩, ?_, ?_, position⟩
  · rw [chars]
    exact .release held inText taken
  · rw [chars]
    exact inner
  · rw [chars, List.mem_cons]
    refine not_or.mpr ⟨inLine, fun mem => ?_⟩
    cases inner '\n' mem

/-- A number after its first digit. -/
def afterDigit (first : Char) (start : Position) : Scan Lexeme := do
  let second ← peek
  match Base.opening first second with
  | .zero => return .number [first] start .zero
  | .plain b => digits b [first] (digitValue first) start
  | .marked b =>
    release
    digits b [first, second] (digitValue first) start

theorem number_eq (first : Char) (start : Position) (c : Cursor) :
    number first start c = afterDigit first start c.release := rfl

/-- An operator after its first character. -/
def afterOperator (first : Char) (p : Pairing) (start : Position) : Scan Lexeme := do
  if (← peek) = p.second then
    release
    return .plain p.paired [first, p.second] start
  else
    match p.alone with
    | some kind => return .plain kind [first] start
    | none => return .faulty (.unmatchedOperator first) [first] start

theorem pair_eq (first : Char) (p : Pairing) (start : Position) (c : Cursor) :
    pair first p start c = afterOperator first p start c.release := rfl

theorem number_placed (held : d.held = some ch) (is : isDecimalDigit ch = true) :
    Placed d (number ch d.position d) := by
  have notEnd : ch ≠ endOfText := by
    rintro rfl
    cases is
  have inLine : '\n' ≠ ch := by
    rintro rfl
    cases is
  rw [number_eq]
  refine placed_of_completes held notEnd inLine fun c => ?_
  simp only [afterDigit, bind, StateT.bind, peek]
  cases opening : Base.opening ch c.peek.1 with
  | zero => exact ⟨[], .looked c, List.forall_mem_nil _, rfl, rfl⟩
  | plain b =>
    obtain ⟨cs, taken, rest⟩ := digits_completes b [ch] (digitValue ch) d.position c.peek.2
    exact ⟨cs, .peek taken, rest⟩
  | marked b =>
    have mark := opening_marked opening
    obtain ⟨cs, taken, inner, text, position⟩ :=
      digits_completes b [ch, c.peek.1] (digitValue ch) d.position c.peek.2.release
    refine ⟨c.peek.1 :: cs, .peek (.release c.peek_held ?_ taken), ?_, text, position⟩
    · rcases mark with is | is <;> rw [is] <;> decide
    · rw [List.forall_mem_cons]
      refine ⟨?_, inner⟩
      rcases mark with is | is <;> rw [is] <;> decide

theorem pair_placed {p : Pairing} (held : d.held = some ch) (is : Pairing.of? ch = some p) :
    Placed d (pair ch p d.position d) := by
  have second : p.second ≠ endOfText ∧ isInner p.second = true := by
    unfold Pairing.of? at is
    split at is <;> cases is <;> exact ⟨by decide, by decide⟩
  rw [pair_eq]
  refine placed_of_completes held ?_ ?_ (.peek second.1 second.2 (.pure rfl rfl) ?_)
  · rintro rfl
    cases is
  · rintro rfl
    cases is
  · split <;> exact .pure rfl rfl

theorem word_placed (held : d.held = some ch) (is : isLetter ch = true) :
    Placed d (word d.position d) := by
  have inWord : isWordCharacter ch = true := by rw [isWordCharacter, is, Bool.true_or]
  have text : (word d.position d).1.token.text.toList = (d.takeRun isWordCharacter).1 :=
    String.toList_ofList
  have inner (x : Char) (mem : x ∈ (d.takeRun isWordCharacter).1) : isInner x = true :=
    isInner_of_isWordCharacter x (Cursor.of_mem_takeWhile _ _ _ mem)
  refine ⟨?_, ?_, ?_, ?_, rfl⟩
  · rw [text]
    exact Cursor.takes_takeRun stops_isWordCharacter.2 d
  · have first : (d.takeRun isWordCharacter).1 =
        ch :: (Cursor.takeWhile isWordCharacter d.line d.release).1 := by
      rw [Cursor.takeRun, Cursor.peek_of_held held, Cursor.takeWhile, Cursor.peek_of_held held,
        if_pos inWord]
    refine ⟨ch, _, held, ?_, text.trans first⟩
    rintro rfl
    cases is
  · rw [text]
    exact fun x mem => inner x (List.mem_of_mem_tail mem)
  · rw [text]
    intro mem
    cases inner '\n' mem

theorem one_placed {kind : Kind} {fault : Option Fault} (held : d.held = some ch)
    (inText : ch ≠ endOfText) (inLine : '\n' ≠ ch) :
    Placed d (⟨⟨kind, String.ofList [ch], d.position, none⟩, fault⟩, d.release) :=
  placed_of_completes (m := Pure.pure ⟨⟨kind, String.ofList [ch], d.position, none⟩, fault⟩)
    held inText inLine (.pure rfl rfl)

/-- At a line break the token is the line break, which is used. -/
theorem next_of_break (held : (afterBlanks c).held = some ch) (is : ch = '\n' ∨ ch = '\r') :
    next c = (.plain .lineBreak ['\n'] (afterBlanks c).position, (afterBlanks c).release) := by
  have shown : (c.takeRun isBlank).2.peek.1 = ch :=
    Option.some.inj ((Cursor.peek_held _).symm.trans held)
  have inText : ch ≠ endOfText := by
    rcases is with rfl | rfl <;> decide
  simp only [next, bind, StateT.bind, takeRun, peek, position, shown]
  rw [if_neg inText, if_pos is]
  rfl

/-- Every token is placed, but for line breaks and the end of the text. -/
theorem Scanned.placed {r : Lexeme × Cursor} (scanned : Scanned d r)
    (inLine : ∀ ch, d.held = some ch → ¬ (ch = '\n' ∨ ch = '\r')) :
    d.held = some endOfText ∧ r = (.plain .endOfInput [] d.position, d) ∨ Placed d r := by
  have notBreak (ch : Char) (held : d.held = some ch) : '\n' ≠ ch :=
    fun same => inLine ch held (.inl same.symm)
  cases scanned with
  | ended held => exact .inl ⟨held, rfl⟩
  | lineBreak held is => exact absurd is (inLine _ held)
  | number held is => exact .inr (number_placed held is)
  | word held is => exact .inr (word_placed held is)
  | pair held is => exact .inr (pair_placed held is)
  | single held is =>
    refine .inr (one_placed held ?_ (notBreak _ held))
    rintro rfl
    cases is
  | invalid held inText => exact .inr (one_placed held inText (notBreak _ held))

/-- What the next token is from the first character on that is not blank. -/
theorem next_cases (c : Cursor) :
    (∃ ch, (afterBlanks c).held = some ch ∧ (ch = '\n' ∨ ch = '\r') ∧
        next c = (.plain .lineBreak ['\n'] (afterBlanks c).position, (afterBlanks c).release)) ∨
      (afterBlanks c).held = some endOfText ∧
        next c = (.plain .endOfInput [] (afterBlanks c).position, afterBlanks c) ∨
      Placed (afterBlanks c) (next c) := by
  by_cases inLine : ∀ ch, (afterBlanks c).held = some ch → ¬ (ch = '\n' ∨ ch = '\r')
  · exact .inr ((next_scanned c).placed inLine)
  · simp only [Classical.not_forall, Classical.not_not] at inLine
    obtain ⟨ch, held, is⟩ := inLine
    exact .inl ⟨ch, held, is, next_of_break held is⟩

/-- The next token is placed, unless it is a line break or the end of the text. -/
theorem next_placed (c : Cursor) :
    (next c).1.token.kind = .lineBreak ∨
      (next c).1.token.kind = .endOfInput ∧ (next c).2 = afterBlanks c ∨
      Placed (afterBlanks c) (next c) := by
  rcases next_cases c with ⟨_, _, _, token⟩ | ⟨_, token⟩ | placed
  · exact .inl (by rw [token]; rfl)
  · exact .inr (.inl (by rw [token]; exact ⟨rfl, rfl⟩))
  · exact .inr (.inr placed)

/-- A token stands at its position in the text of the entry, if its first character was counted
there. -/
theorem Placed.stands {r : Lexeme × Cursor} (h : Placed d r) (owns : d.Owns)
    (counted : d.position = Position.origin.advanceOver d.raw.toList) :
    StandsAt r.2.raw.toList r.1.token.position r.1.token.text.toList := by
  obtain ⟨ch, rest, held, inText, text⟩ := h.first
  obtain ⟨_, used⟩ := h.taken.used owns
  obtain ⟨after, raw⟩ := r.2.used_prefix_raw
  refine ⟨d.used, ch, rest, after, text, h.inLine, ?_, ?_⟩
  · rw [← raw, used]
  · rw [h.position, counted, owns.used_concat held inText]

/-! ## Where the feed ends -/

/-- At the end of the text the token is that end. -/
theorem next_of_endOfText (held : (afterBlanks c).held = some endOfText) :
    (next c).1.token.kind = .endOfInput := by
  have shown : (c.takeRun isBlank).2.peek.1 = endOfText :=
    Option.some.inj ((Cursor.peek_held _).symm.trans held)
  simp only [next, bind, StateT.bind, takeRun, peek, position, shown]
  rfl

/-- If the feed ends while a token is read, the token is the end of the text. -/
theorem next_of_ends (sound : c.Sound) (goesOn : c.ended = false) (ends : (next c).2.ended = true) :
    (next c).1.token.kind = .endOfInput := by
  have blanks : c.Takes (c.takeRun isBlank).1 (afterBlanks c) := by
    have taken := (Cursor.takes_takeRun stops_isBlank.2 c).trans (.looked _)
    rwa [List.append_nil] at taken
  have halts : (afterBlanks c).Halts :=
    blanks.halts fun ended => absurd (goesOn.symm.trans ended) Bool.false_ne_true
  cases ended : (afterBlanks c).ended with
  | true => exact next_of_endOfText (halts ended)
  | false =>
    rcases next_placed c with kind | ⟨isEnd, _⟩ | placed
    · obtain ⟨_, _, _, used⟩ := (next_scanned c).terminator (.inl kind)
      rw [used] at ends
      cases ended.symm.trans ends
    · exact isEnd
    · obtain ⟨ch, _, held, _⟩ := placed.first
      have soundHere : (afterBlanks c).Sound := (sound.takeRun stops_isBlank).peek
      have same := placed.taken.ended_eq soundHere placed.inLine
        fun released => nomatch held.symm.trans released
      cases ended.symm.trans (same.symm.trans ends)

end ComplexScript.Token.Scan
