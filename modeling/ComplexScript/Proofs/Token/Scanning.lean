import ComplexScript.Proofs.Number.Bounded
import ComplexScript.Proofs.Text.Stream
import ComplexScript.Token.Scan
set_option autoImplicit false

/-!
# Reading one token

A token is decided by the first character after the blanks.  `Scan.Scanned` lists what is read from
there, and `Scan.next_scanned` is the one place where the branches of the scanner are looked at;
what a token's kind says of its text and of the cursor after it follows by cases.  Scanners over
related cursors read the same (`Scan.next_sim`), or the same at another place of an entry if the
cursors stand at other positions (`Scan.next_coupled`), and every token but the end uses a character
(`Scan.next_left`).
-/

namespace ComplexScript.Token

open ComplexScript.Text

namespace Scan

variable {α β : Type} {R : Cursor → Cursor → Prop}

/-! ## Scanners over related cursors -/

/-- Over related cursors two scanners read the same and leave related cursors. -/
def Sim (R : Cursor → Cursor → Prop) (m m' : Scan α) : Prop :=
  ∀ c c', R c c' → (m c).1 = (m' c').1 ∧ R (m c).2 (m' c').2

theorem Sim.pure (a : α) : Sim R (pure a : Scan α) (Pure.pure a) := fun _ _ h => ⟨rfl, h⟩

theorem Sim.bind {m m' : Scan α} {f f' : α → Scan β} (first : Sim R m m')
    (second : ∀ a, Sim R (f a) (f' a)) : Sim R (m >>= f) (m' >>= f') := by
  intro c c' h
  obtain ⟨same, related⟩ := first c c' h
  have after := second (m c).1 _ _ related
  show (f (m c).1 (m c).2).1 = (f' (m' c').1 (m' c').2).1 ∧
    R (f (m c).1 (m c).2).2 (f' (m' c').1 (m' c').2).2
  rw [← same]
  exact after

section

variable (coupling : Cursor.Coupling R)

include coupling

theorem peek_sim : Sim R peek peek := fun _ _ => coupling.peek

theorem release_sim : Sim R release release := fun _ _ h => ⟨rfl, coupling.release h⟩

theorem advance_sim : Sim R advance advance := fun _ _ h => coupling.peek (coupling.release h)

theorem takeRun_sim {p : Char → Bool} (stops : Cursor.Stops p) : Sim R (takeRun p) (takeRun p) :=
  fun _ _ => coupling.takeRun stops

end

theorem position_sim (bisim : Cursor.Bisimulation R) : Sim R position position :=
  fun _ _ h => ⟨bisim.position h, h⟩

theorem stops_isBlank : Cursor.Stops isBlank := ⟨by decide, by decide⟩

theorem stops_isWordCharacter : Cursor.Stops isWordCharacter :=
  ⟨by decide, by decide⟩

theorem stops_isDigit (b : Base) : Cursor.Stops b.isDigit := by
  cases b <;> exact ⟨by decide, by decide⟩

section

variable (coupling : Cursor.Coupling R)

include coupling

theorem single_sim (kind : Kind) (c : Char) (start : Position) :
    Sim R (single kind c start) (single kind c start) :=
  (release_sim coupling).bind fun _ => .pure _

theorem pair_sim (first : Char) (p : Pairing) (start : Position) :
    Sim R (pair first p start) (pair first p start) := by
  refine (advance_sim coupling).bind fun second => ?_
  split
  · exact (release_sim coupling).bind fun _ => .pure _
  · split <;> exact .pure _

theorem word_sim (start : Position) : Sim R (word start) (word start) :=
  (takeRun_sim coupling stops_isWordCharacter).bind fun _ => .pure _

theorem suffix_sim (text : List Char) (v : Float) (start : Position) :
    Sim R (suffix text v start) (suffix text v start) := by
  refine (peek_sim coupling).bind fun c => ?_
  split
  · exact (release_sim coupling).bind fun _ => .pure _
  · exact .pure _

theorem digits_sim (b : Base) (opening : List Char) (v : Float) (start : Position) :
    Sim R (digits b opening v start) (digits b opening v start) := by
  refine (takeRun_sim coupling (stops_isDigit b)).bind fun whole => ?_
  refine (peek_sim coupling).bind fun point => ?_
  split
  · refine (release_sim coupling).bind fun _ => (peek_sim coupling).bind fun digit => ?_
    split
    · exact (takeRun_sim coupling (stops_isDigit b)).bind fun _ => suffix_sim coupling _ _ _
    · exact .pure _
  · exact suffix_sim coupling _ _ _

theorem number_sim (first : Char) (start : Position) :
    Sim R (number first start) (number first start) := by
  refine (advance_sim coupling).bind fun second => ?_
  split
  · exact .pure _
  · exact digits_sim coupling _ _ _ _
  · exact (release_sim coupling).bind fun _ => digits_sim coupling _ _ _ _

end

/-- Over related cursors the next token is the same. -/
theorem next_sim (bisim : Cursor.Bisimulation R) : Sim R next next := by
  have coupling := bisim.toCoupling
  refine (takeRun_sim coupling stops_isBlank).bind fun _ => (peek_sim coupling).bind fun c => ?_
  refine (position_sim bisim).bind fun start => ?_
  split
  · exact .pure _
  · split
    · exact single_sim coupling _ _ _
    · split
      · exact number_sim coupling _ _
      · split
        · exact word_sim coupling _
        · split
          · exact pair_sim coupling _ _ _
          · exact single_sim coupling _ _ _
          · exact (release_sim coupling).bind fun _ => .pure _

/-! ## What a token is read from -/

/-- The cursor at the first character that is not blank. -/
def afterBlanks (c : Cursor) : Cursor := (c.takeRun isBlank).2.peek.2

/-- What is read of a token from its first character on. -/
inductive Scanned (c : Cursor) : Lexeme × Cursor → Prop where
  | ended (held : c.held = some endOfText) : Scanned c (.plain .endOfInput [] c.position, c)
  | lineBreak {ch : Char} (held : c.held = some ch) (is : ch = '\n' ∨ ch = '\r') :
    Scanned c (.plain .lineBreak ['\n'] c.position, c.release)
  | number {ch : Char} (held : c.held = some ch) (is : isDecimalDigit ch = true) :
    Scanned c (number ch c.position c)
  | word {ch : Char} (held : c.held = some ch) (is : isLetter ch = true) :
    Scanned c (word c.position c)
  | pair {ch : Char} {p : Pairing} (held : c.held = some ch) (is : Pairing.of? ch = some p) :
    Scanned c (pair ch p c.position c)
  | single {ch : Char} {kind : Kind} (held : c.held = some ch)
    (is : Kind.ofCharacter? ch = some kind) : Scanned c (.plain kind [ch] c.position, c.release)
  | invalid {ch : Char} (held : c.held = some ch) (inText : ch ≠ endOfText) :
    Scanned c (.faulty (.invalidCharacter ch) [ch] c.position, c.release)

theorem next_scanned (c : Cursor) : Scanned (afterBlanks c) (next c) := by
  have held : (afterBlanks c).held = some (c.takeRun isBlank).2.peek.1 := Cursor.peek_held _
  simp only [next, bind, StateT.bind, takeRun, peek, position]
  split
  · next ended => exact .ended (ended ▸ held)
  · next inText =>
    split
    · next is => exact .lineBreak held is
    · split
      · next is => exact .number held is
      · split
        · next is => exact .word held is
        · cases pairing : Pairing.of? (c.takeRun isBlank).2.peek.1 with
          | some p => exact .pair held pairing
          | none =>
            cases alone : Kind.ofCharacter? (c.takeRun isBlank).2.peek.1 with
            | some kind => exact .single held alone
            | none => exact .invalid held inText

/-- Blanks are read over like any run. -/
theorem afterBlanks_related {R : Cursor → Cursor → Prop} (coupling : Cursor.Coupling R)
    {c c' : Cursor} (h : R c c') : R (afterBlanks c) (afterBlanks c') :=
  (coupling.peek (coupling.takeRun stops_isBlank h).2).2

/-- A token is read from what a look shows. -/
theorem next_of_peek {c c' : Cursor} (h : c.peek = c'.peek) : next c = next c' := by
  have run : c.takeRun isBlank = c'.takeRun isBlank := by rw [Cursor.takeRun, Cursor.takeRun, h]
  simp only [next, bind, StateT.bind, takeRun, run]

/-! ## How much a token uses -/

theorem digits_left_le {d : Cursor} (sound : d.Sound) (b : Base) (opening : List Char) (v : Float)
    (start : Position) : (digits b opening v start d).2.left ≤ d.left := by
  have coupling := (Cursor.bisimulation_left d.left).toCoupling
  obtain ⟨_, _, _, le⟩ := digits_sim coupling b opening v start d d ⟨rfl, sound, Nat.le_refl _⟩
  exact le

theorem number_left_lt {d : Cursor} (sound : d.Sound) {ch : Char} (held : d.held = some ch)
    (inText : ch ≠ endOfText) (start : Position) : (number ch start d).2.left < d.left := by
  have advanced : d.advance.2.left < d.left :=
    Nat.lt_of_le_of_lt (Cursor.left_peek_le d.release) (Cursor.left_release_lt held inText)
  have soundAdvanced : d.advance.2.Sound := sound.release.peek
  simp only [number, bind, StateT.bind, advance]
  cases Base.opening ch d.advance.1 with
  | zero => exact advanced
  | plain b => exact Nat.lt_of_le_of_lt (digits_left_le soundAdvanced b _ _ start) advanced
  | marked b =>
    have released := Nat.lt_of_le_of_lt (Cursor.left_release_le d.advance.2) advanced
    exact Nat.lt_of_le_of_lt (digits_left_le soundAdvanced.release b _ _ start) released

theorem pair_left_lt {d : Cursor} {ch : Char} (held : d.held = some ch)
    (inText : ch ≠ endOfText) (p : Pairing) (start : Position) :
    (pair ch p start d).2.left < d.left := by
  have advanced : d.advance.2.left < d.left :=
    Nat.lt_of_le_of_lt (Cursor.left_peek_le d.release) (Cursor.left_release_lt held inText)
  simp only [pair, bind, StateT.bind, advance]
  split
  · exact Nat.lt_of_le_of_lt (Cursor.left_release_le d.advance.2) advanced
  · cases p.alone with
    | none => exact advanced
    | some kind => exact advanced

/-- What is read from the first character on uses it, unless the text ends there. -/
theorem Scanned.left {d : Cursor} {r : Lexeme × Cursor} (scanned : Scanned d r) (sound : d.Sound) :
    r.1.token.kind = .endOfInput ∧ r.2 = d ∨ r.2.left < d.left := by
  cases scanned with
  | ended held => exact .inl ⟨rfl, rfl⟩
  | lineBreak held is =>
    refine .inr (Cursor.left_release_lt held ?_)
    rcases is with rfl | rfl <;> decide
  | number held is =>
    refine .inr (number_left_lt sound held ?_ d.position)
    rintro rfl
    cases is
  | @word ch held is =>
    have inWord : isWordCharacter ch = true := by rw [isWordCharacter, is, Bool.true_or]
    exact .inr (Cursor.left_takeRun_lt stops_isWordCharacter sound held inWord)
  | pair held is =>
    refine .inr (pair_left_lt held ?_ _ d.position)
    rintro rfl
    cases is
  | single held is =>
    refine .inr (Cursor.left_release_lt held ?_)
    rintro rfl
    cases is
  | invalid held inText => exact .inr (Cursor.left_release_lt held inText)

/-- Every token but the end of the text uses a character. -/
theorem next_left {c : Cursor} (sound : c.Sound) :
    (next c).2.left ≤ c.left ∧
      ((next c).1.token.kind ≠ .endOfInput → (next c).2.left < c.left) := by
  obtain ⟨_, soundBlanks, blanks⟩ := afterBlanks_related
    (Cursor.bisimulation_left c.left).toCoupling
    ⟨rfl, sound, Nat.le_refl _⟩
  rcases (next_scanned c).left soundBlanks with ⟨isEnd, same⟩ | less
  · rw [same]
    exact ⟨blanks, fun notEnd => absurd isEnd notEnd⟩
  · have less := Nat.lt_of_lt_of_le less blanks
    exact ⟨Nat.le_of_lt less, fun _ => less⟩

/-! ## What the kind of a token says -/

/-- Whatever the cursor, what the scanner reads has the property. -/
def Gives (Q : α → Prop) (m : Scan α) : Prop := ∀ c, Q (m c).1

theorem Gives.pure {Q : α → Prop} {a : α} (h : Q a) : Gives Q (pure a : Scan α) := fun _ => h

theorem Gives.bind {Q : β → Prop} {m : Scan α} {f : α → Scan β} (h : ∀ a, Gives Q (f a)) :
    Gives Q (m >>= f) := fun c => h (m c).1 (m c).2

/-- The property is one of whatever a number literal at `start` is read as. -/
structure OfLiterals (start : Position) (Q : Lexeme → Prop) : Prop where
  real : ∀ text v, Q (.ofLiteral text start (Number.ofReal v))
  imaginary : ∀ text v, Q (.ofLiteral text start (Number.ofImaginary v))
  zero : ∀ text, Q (.number text start .zero)
  faulty : ∀ fault text, Q (.faulty fault text start)

section

variable {start : Position} {Q : Lexeme → Prop} (literals : OfLiterals start Q)

include literals

theorem suffix_gives (text : List Char) (v : Float) : Gives Q (suffix text v start) := by
  refine .bind fun c => ?_
  split
  · exact .bind fun _ => .pure (literals.imaginary _ v)
  · exact .pure (literals.real _ v)

theorem digits_gives (b : Base) (opening : List Char) (v : Float) :
    Gives Q (digits b opening v start) := by
  refine .bind fun whole => .bind fun point => ?_
  split
  · refine .bind fun _ => .bind fun digit => ?_
    split
    · exact .bind fun _ => suffix_gives literals _ _
    · exact .pure (literals.faulty _ _)
  · exact suffix_gives literals _ _

theorem number_gives (ch : Char) : Gives Q (number ch start) := by
  refine .bind fun second => ?_
  split
  · exact .pure (literals.zero _)
  · exact digits_gives literals _ _ _
  · exact .bind fun _ => digits_gives literals _ _ _

end

/-- The kinds that a number literal is read as. -/
def OfNumber (x : Lexeme) : Prop := x.token.kind = .number ∨ x.token.kind = .empty

theorem number_ofNumber (ch : Char) (start : Position) : Gives OfNumber (number ch start) := by
  have literal : ∀ text value, OfNumber (.ofLiteral text start value) := by
    rintro text (_ | _)
    · exact .inr rfl
    · exact .inl rfl
  exact number_gives ⟨fun _ _ => literal _ _, fun _ _ => literal _ _, fun _ => .inl rfl,
    fun _ _ => .inr rfl⟩ ch

/-- The value of a number literal, if it has one, is bounded. -/
theorem number_bounded (ch : Char) (start : Position) :
    Gives (fun x => ∀ z, x.token.value = some z → z.Bounded) (number ch start) := by
  have literal : ∀ text re im, ∀ z,
      (Lexeme.ofLiteral text start (Number.ofParts re im)).token.value = some z → z.Bounded := by
    intro text re im z value
    cases built : Number.ofParts re im with
    | ok w =>
      rw [built] at value
      cases value
      exact Number.bounded_of_ofParts built
    | error f =>
      rw [built] at value
      cases value
  refine number_gives
    ⟨fun _ _ => literal _ _ _, fun _ _ => literal _ _ _, fun _ => ?_, fun _ _ => nofun⟩ ch
  rintro _ ⟨⟩
  exact Number.bounded_zero

/-- The kinds of operators of two characters and of their first ones. -/
def pairKinds : List Kind :=
  [.relationalOperator, .assignment, .negation, .logicalAnd, .logicalOr, .empty]

theorem pair_kind {ch : Char} {p : Pairing} (is : Pairing.of? ch = some p) (start : Position) :
    Gives (fun x => x.token.kind ∈ pairKinds ∧ x.token.value = none) (pair ch p start) := by
  have kinds : p.paired ∈ pairKinds ∧ ∀ kind, p.alone = some kind → kind ∈ pairKinds := by
    unfold Pairing.of? at is
    split at is <;> cases is <;> simp [pairKinds]
  refine .bind fun second => ?_
  split
  · exact .bind fun _ => .pure ⟨kinds.1, rfl⟩
  · split
    · next alone => exact .pure ⟨kinds.2 _ alone, rfl⟩
    · exact .pure ⟨by simp [pairKinds, Lexeme.faulty], rfl⟩

/-- An identifier is never the name of a built-in function. -/
theorem ofWord_identifier {word : String} (h : Kind.ofWord word = .identifier) :
    Program.Builtin.ofName? word = none := by
  unfold Kind.ofWord at h
  split at h <;> try cases h
  split at h
  · cases h
  · next notBuiltin =>
    cases found : Program.Builtin.ofName? word with
    | none => rfl
    | some b => exact absurd (by rw [found]; rfl) notBuiltin

theorem ofWord_not_terminator (word : String) :
    Kind.ofWord word ≠ .lineBreak ∧ Kind.ofWord word ≠ .semicolon := by
  unfold Kind.ofWord
  split <;> try exact ⟨by decide, by decide⟩
  split
  · exact ⟨by decide, by decide⟩
  · split <;> exact ⟨by decide, by decide⟩

/-- What is known of a token that was read: an identifier does not go by the name of a built-in
function, and a number has no infinite part. -/
structure Lexed (t : Token) : Prop where
  identifier : t.kind = .identifier → Program.Builtin.ofName? t.text = none
  bounded : ∀ z, t.value = some z → z.Bounded

/-- A token without value counts as zero. -/
theorem Lexed.bounded_getD {t : Token} (h : Lexed t) : (t.value.getD .zero).Bounded := by
  cases value : t.value with
  | none => exact Number.bounded_zero
  | some z => exact h.bounded z value

theorem Scanned.lexed {d : Cursor} {r : Lexeme × Cursor} (scanned : Scanned d r) :
    Lexed r.1.token := by
  cases scanned with
  | ended held => exact ⟨nofun, nofun⟩
  | lineBreak held is => exact ⟨nofun, nofun⟩
  | number held is =>
    refine ⟨fun identifier => ?_, number_bounded _ _ d⟩
    rcases number_ofNumber _ _ d with kind | kind <;> rw [kind] at identifier <;> cases identifier
  | word held is => exact ⟨ofWord_identifier, nofun⟩
  | pair held is =>
    obtain ⟨kind, noValue⟩ := pair_kind is d.position d
    refine ⟨fun identifier => ?_, fun z value => nomatch noValue.symm.trans value⟩
    rw [identifier] at kind
    simp [pairKinds] at kind
  | @single ch kind held is =>
    refine ⟨fun identifier => ?_, nofun⟩
    obtain rfl : kind = .identifier := identifier
    unfold Kind.ofCharacter? at is
    split at is <;> cases is
  | invalid held inText => exact ⟨nofun, nofun⟩

/-- A line break or a semicolon is the one character that it is read from, and that is used. -/
theorem Scanned.terminator {d : Cursor} {r : Lexeme × Cursor} (scanned : Scanned d r)
    (kind : r.1.token.kind = .lineBreak ∨ r.1.token.kind = .semicolon) :
    ∃ ch ∈ ['\n', '\r', ';'], d.held = some ch ∧ r.2 = d.release := by
  cases scanned with
  | ended held => rcases kind with kind | kind <;> cases kind
  | @lineBreak ch held is =>
    refine ⟨ch, ?_, held, rfl⟩
    rcases is with rfl | rfl <;> decide
  | number held is =>
    rcases number_ofNumber _ _ d with other | other <;> rw [other] at kind <;>
      rcases kind with kind | kind <;> cases kind
  | word held is =>
    obtain ⟨notBreak, notSemicolon⟩ :=
      ofWord_not_terminator (String.ofList (takeRun isWordCharacter d).1)
    exact absurd kind (not_or.mpr ⟨notBreak, notSemicolon⟩)
  | pair held is =>
    have other := (pair_kind is d.position d).1
    rcases kind with kind | kind <;> rw [kind] at other <;> simp [pairKinds] at other
  | @single ch _ held is =>
    refine ⟨ch, ?_, held, rfl⟩
    rcases kind with kind | kind
    · obtain rfl : _ = Kind.lineBreak := kind
      unfold Kind.ofCharacter? at is
      split at is <;> cases is
    · obtain rfl : _ = Kind.semicolon := kind
      unfold Kind.ofCharacter? at is
      split at is <;> cases is
      decide
  | invalid held inText => rcases kind with kind | kind <;> cases kind

theorem next_lexed (c : Cursor) : Lexed (next c).1.token := (next_scanned c).lexed

end Scan

end ComplexScript.Token
