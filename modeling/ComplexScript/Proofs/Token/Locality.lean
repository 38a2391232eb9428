import ComplexScript.Proofs.Token.Placing
set_option autoImplicit false

/-!
# A token alone and in a text

A word that makes a token on a line of its own (`Spells`) makes the same one wherever an edge comes
after it (`next_of_spells`): a blank, the end of the line, or a character that is a token wherever
it stands.  The scanner looks at one character past a token at most, and no edge goes on with one.
After a character that is a token wherever it stands anything may come (`next_of_alone`).
-/

namespace ComplexScript.Token

open ComplexScript.Text

namespace Scan

variable {α β : Type} {c c' : Cursor} {ch : Char} {cs : List Char}

/-! ## Two cursors at one word -/

/-- The characters ahead are these, and then an edge. -/
structure Faces (cs : List Char) (c : Cursor) : Prop where
  sound : c.Sound
  ahead : ∃ edge rest, isEdge edge = true ∧ c.ahead = cs ++ edge :: rest

theorem Faces.peek (h : Faces cs c) : Faces cs c.peek.2 := by
  obtain ⟨sound, edge, rest, is, ahead⟩ := h
  obtain ⟨first, others, same⟩ :=
    List.exists_cons_of_ne_nil (List.append_ne_nil_of_right_ne_nil cs (List.cons_ne_nil edge rest))
  rw [same] at ahead
  exact ⟨sound.peek, edge, rest, is, (Cursor.peek_of_ahead ahead).2.trans same.symm⟩

theorem Faces.peek_nil (h : Faces [] c) : isEdge c.peek.1 = true := by
  obtain ⟨_, edge, rest, is, ahead⟩ := h
  rw [(Cursor.peek_of_ahead ahead).1]
  exact is

theorem Faces.peek_cons (h : Faces (ch :: cs) c) : c.peek.1 = ch := by
  obtain ⟨_, edge, rest, _, ahead⟩ := h
  exact (Cursor.peek_of_ahead ahead).1

theorem Faces.release (h : Faces (ch :: cs) c) : Faces cs c.peek.2.release := by
  obtain ⟨sound, edge, rest, is, ahead⟩ := h
  exact ⟨sound.peek.release, edge, rest, is, Cursor.peek_release_of_ahead ahead⟩

/-- At the same characters two scanners read the same up to `E`, and have the same ahead of them. -/
def Local (E : α → α → Prop) (m m' : Scan α) : Prop :=
  ∀ cs c c', Faces cs c → Faces cs c' →
    E (m c).1 (m' c').1 ∧ ∃ ds, Faces ds (m c).2 ∧ Faces ds (m' c').2

section

variable {E : α → α → Prop}

theorem Local.pure {a a' : α} (h : E a a') : Local E (pure a) (Pure.pure a') :=
  fun cs _ _ here there => ⟨h, cs, here, there⟩

/-- A look at the next character, which is taken if it is the one wanted. -/
theorem Local.peek {want : Char} (inWord : isEdge want = false) {yes no yes' no' : Scan α}
    (taken : Local E yes yes') (left : Local E no no') :
    Local E (Scan.peek >>= fun ch => if ch = want then release >>= fun _ => yes else no)
      (Scan.peek >>= fun ch => if ch = want then release >>= fun _ => yes' else no') := by
  intro cs c c' here there
  simp only [bind, StateT.bind, Scan.peek]
  cases cs with
  | nil =>
    have notWanted : ∀ d : Cursor, Faces [] d → d.peek.1 ≠ want := by
      rintro d faces rfl
      cases inWord.symm.trans faces.peek_nil
    rw [if_neg (notWanted c here), if_neg (notWanted c' there)]
    exact left [] _ _ here.peek there.peek
  | cons ch cs =>
    rw [here.peek_cons, there.peek_cons]
    split
    · exact taken cs _ _ here.release there.release
    · exact left (ch :: cs) _ _ here.peek there.peek

/-- A look that decides how to go on; no edge satisfies `p`. -/
theorem Local.see {p : Char → Bool} (inWord : ∀ ch, isEdge ch = true → p ch = false)
    {yes no yes' no' : Scan α} (pos : Local E yes yes') (neg : Local E no no') :
    Local E (Scan.peek >>= fun ch => if p ch then yes else no)
      (Scan.peek >>= fun ch => if p ch then yes' else no') := by
  intro cs c c' here there
  simp only [bind, StateT.bind, Scan.peek]
  cases cs with
  | nil =>
    rw [inWord _ here.peek_nil, inWord _ there.peek_nil]
    exact neg [] _ _ here.peek there.peek
  | cons ch cs =>
    rw [here.peek_cons, there.peek_cons]
    split
    · exact pos (ch :: cs) _ _ here.peek there.peek
    · exact neg (ch :: cs) _ _ here.peek there.peek

/-- A run ends at an edge at the latest. -/
theorem Faces.takeRun {p : Char → Bool} (stops : Cursor.Stops p)
    (inWord : ∀ ch, isEdge ch = true → p ch = false) (h : Faces cs c) :
    (c.takeRun p).1 = cs.takeWhile p ∧ Faces (cs.dropWhile p) (c.takeRun p).2 := by
  obtain ⟨sound, edge, rest, is, ahead⟩ := h
  have taken : (c.takeRun p).1 = cs.takeWhile p := by
    rw [Cursor.takeRun_ahead stops sound, ahead]
    clear ahead
    induction cs with
    | nil => rw [List.nil_append, List.takeWhile_cons, inWord edge is]; rfl
    | cons ch cs ih => rw [List.cons_append, List.takeWhile_cons, List.takeWhile_cons, ih]
  refine ⟨taken, sound.takeRun stops, edge, rest, is, ?_⟩
  refine (Cursor.takes_takeRun stops.2 c).ahead ?_ (List.append_ne_nil_of_right_ne_nil _
    (List.cons_ne_nil edge rest))
  rw [taken, ahead, ← List.append_assoc, List.takeWhile_append_dropWhile]

theorem Local.run {p : Char → Bool} (stops : Cursor.Stops p)
    (inWord : ∀ ch, isEdge ch = true → p ch = false) {f f' : List Char → Scan α}
    (h : ∀ cs, Local E (f cs) (f' cs)) : Local E (takeRun p >>= f) (takeRun p >>= f') := by
  intro cs c c' here there
  obtain ⟨run, after⟩ := here.takeRun stops inWord
  obtain ⟨run', after'⟩ := there.takeRun stops inWord
  have same := h (cs.takeWhile p) _ _ _ after after'
  simp only [bind, StateT.bind, Scan.takeRun]
  rw [run, run']
  exact same

end

/-! ## The scanners of tokens -/

/-- The lexemes are the same but for where they stand. -/
structure Same (x x' : Lexeme) : Prop where
  kind : x.token.kind = x'.token.kind
  text : x.token.text = x'.token.text
  value : x.token.value = x'.token.value
  fault : x.fault = x'.fault

section

variable (start start' : Position)

theorem ofLiteral_same (text : List Char) (value : Except ArithmeticFault Number) :
    Same (Lexeme.ofLiteral text start value) (Lexeme.ofLiteral text start' value) := by
  cases value <;> exact ⟨rfl, rfl, rfl, rfl⟩

theorem suffix_local (text : List Char) (v : Float) :
    Local Same (suffix text v start) (suffix text v start') := by
  refine .peek (by decide) (.pure ?_) (.pure ?_)
  · exact ofLiteral_same start start' _ _
  · exact ofLiteral_same start start' _ _

theorem digits_local (b : Base) (opening : List Char) (v : Float) :
    Local Same (digits b opening v start) (digits b opening v start') := by
  refine .run (stops_isDigit b) (not_isDigit_of_isEdge b) fun whole => ?_
  refine .peek (by decide) ?_ (suffix_local start start' _ _)
  refine .see (not_isDigit_of_isEdge b) ?_ (.pure ⟨rfl, rfl, rfl, rfl⟩)
  exact .run (stops_isDigit b) (not_isDigit_of_isEdge b) fun places => suffix_local start start' _ _

theorem afterDigit_local (first : Char) :
    Local Same (afterDigit first start) (afterDigit first start') := by
  intro cs c c' here there
  simp only [afterDigit, bind, StateT.bind, peek]
  cases cs with
  | nil =>
    rw [opening_of_isEdge first here.peek_nil, opening_of_isEdge first there.peek_nil]
    by_cases zero : first = '0'
    · rw [if_pos zero]
      exact ⟨⟨rfl, rfl, rfl, rfl⟩, [], here.peek, there.peek⟩
    · rw [if_neg zero]
      exact digits_local start start' _ _ _ [] _ _ here.peek there.peek
  | cons ch cs =>
    rw [here.peek_cons, there.peek_cons]
    cases Base.opening first ch with
    | zero => exact ⟨⟨rfl, rfl, rfl, rfl⟩, ch :: cs, here.peek, there.peek⟩
    | plain b => exact digits_local start start' b _ _ (ch :: cs) _ _ here.peek there.peek
    | marked b => exact digits_local start start' b _ _ cs _ _ here.release there.release

theorem afterOperator_local {first : Char} {p : Pairing} (is : Pairing.of? first = some p) :
    Local Same (afterOperator first p start) (afterOperator first p start') := by
  refine .peek ?_ (.pure ⟨rfl, rfl, rfl, rfl⟩) ?_
  · unfold Pairing.of? at is
    split at is <;> cases is <;> decide
  · cases p.alone <;> exact .pure ⟨rfl, rfl, rfl, rfl⟩

theorem word_local : Local Same (word start) (word start') :=
  .run stops_isWordCharacter not_isWordCharacter_of_isEdge fun _ => .pure ⟨rfl, rfl, rfl, rfl⟩

end

/-- The next token, if the cursor is not at a blank. -/
def first : Scan Lexeme := do
  let c ← peek
  let start ← position
  if c = endOfText then return .plain .endOfInput [] start
  else if c = '\n' ∨ c = '\r' then single .lineBreak '\n' start
  else if isDecimalDigit c then number c start
  else if isLetter c then word start
  else
    match Pairing.of? c, Kind.ofCharacter? c with
    | some p, _ => pair c p start
    | none, some kind => single kind c start
    | none, none =>
      release
      return .faulty (.invalidCharacter c) [c] start

/-- At the same characters the same token is read. -/
theorem first_same (here : Faces (ch :: cs) c) (there : Faces (ch :: cs) c') :
    Same (first c).1 (first c').1 := by
  simp only [first, bind, StateT.bind, peek, position, here.peek_cons, there.peek_cons]
  split
  · exact ⟨rfl, rfl, rfl, rfl⟩
  split
  · exact ⟨rfl, rfl, rfl, rfl⟩
  split
  · exact (afterDigit_local _ _ ch cs _ _ here.release there.release).1
  split
  · exact (word_local _ _ (ch :: cs) _ _ here.peek there.peek).1
  cases pairing : Pairing.of? ch with
  | some p => exact (afterOperator_local _ _ pairing cs _ _ here.release there.release).1
  | none => cases Kind.ofCharacter? ch <;> exact ⟨rfl, rfl, rfl, rfl⟩

theorem next_eq (c : Cursor) : next c = first (c.takeRun isBlank).2 := rfl

theorem next_sound (sound : c.Sound) : (next c).2.Sound :=
  (next_sim Cursor.bisimulation_sound c c ⟨rfl, sound⟩).2.2

theorem next_same (here : Faces (ch :: cs) (c.takeRun isBlank).2)
    (there : Faces (ch :: cs) (c'.takeRun isBlank).2) : Same (next c).1 (next c').1 := by
  rw [next_eq, next_eq]
  exact first_same here there

/-! ## Words -/

/-- The run of blanks before another character is passed over. -/
theorem takeBlanks_ahead {bs : List Char} (sound : c.Sound) (ahead : c.ahead = bs ++ ch :: cs)
    (blanks : ∀ b ∈ bs, isBlank b = true) (notBlank : isBlank ch = false) :
    (c.takeRun isBlank).2.ahead = ch :: cs :=
  (Cursor.takeRun_of_ahead stops_isBlank sound ahead blanks notBlank).2

theorem afterBlanks_held {bs : List Char} (sound : c.Sound) (ahead : c.ahead = bs ++ ch :: cs)
    (blanks : ∀ b ∈ bs, isBlank b = true) (notBlank : isBlank ch = false) :
    (afterBlanks c).held = some ch ∧ (afterBlanks c).ahead = ch :: cs := by
  obtain ⟨shown, rest⟩ := Cursor.peek_of_ahead (takeBlanks_ahead sound ahead blanks notBlank)
  exact ⟨by rw [afterBlanks, Cursor.peek_held, shown], rest⟩

theorem not_isBlank_of_alone {kind : Kind} (alone : Kind.alone? ch = some kind) :
    isBlank ch = false := by
  have other : isBlank ch = true → Kind.alone? ch = none :=
    of_edges (P := fun ch => isBlank ch = true → Kind.alone? ch = none) (by decide)
      (isEdge_of_alone alone)
  rw [Bool.eq_false_iff]
  intro blank
  cases (other blank).symm.trans alone

theorem first_of_alone {kind : Kind} (alone : Kind.alone? ch = some kind)
    (shown : c.peek.1 = ch) :
    first c = (.plain kind [ch] c.peek.2.position, c.peek.2.release) := by
  simp only [first, bind, StateT.bind, peek, position, shown]
  unfold Kind.alone? at alone
  split at alone
  · next lineBreak =>
    cases alone
    rw [lineBreak, if_neg (by decide), if_pos (.inl rfl)]
    rfl
  · next inLine =>
    have edge : isEdge ch = true := by
      rw [isEdge, Kind.alone?, if_neg inLine, alone, Option.isSome_some, Bool.or_true]
    obtain ⟨inText, notReturn, notDigit, notLetter, notPaired⟩ :=
      of_edges (P := fun ch => ch ≠ '\n' → ch ≠ endOfText ∧ ch ≠ '\r' ∧
        isDecimalDigit ch = false ∧ isLetter ch = false ∧ Pairing.of? ch = none) (by decide) edge
        inLine
    rw [if_neg inText, if_neg (not_or.mpr ⟨inLine, notReturn⟩), notDigit, notLetter, notPaired,
      alone]
    rfl

/-- A character that is a token by itself is read as that token, and is used. -/
theorem next_of_alone {kind : Kind} (alone : Kind.alone? ch = some kind) {bs : List Char}
    (sound : c.Sound) (blanks : ∀ b ∈ bs, isBlank b = true) (ahead : c.ahead = bs ++ ch :: cs) :
    (∃ start, (next c).1 = .plain kind [ch] start) ∧ (next c).2.Sound ∧
      (next c).2.ahead = cs := by
  obtain ⟨held, rest⟩ := afterBlanks_held sound ahead blanks (not_isBlank_of_alone alone)
  have shown : (c.takeRun isBlank).2.peek.1 = ch :=
    Option.some.inj ((Cursor.peek_held _).symm.trans held)
  refine ⟨⟨(afterBlanks c).position, ?_⟩, next_sound sound, ?_⟩
  · rw [next_eq, first_of_alone alone shown]
    rfl
  · rw [next_eq, first_of_alone alone shown]
    exact Cursor.release_of_ahead held rest

/-- Where no character is left, the end of the text is read, and it is no part of the entry. -/
theorem next_of_ahead_nil (nothing : c.ahead = []) :
    (next c).1 = .plain .endOfInput [] c.peek.2.position ∧ (next c).2.raw = c.raw := by
  have shown : c.peek.1 = endOfText := Cursor.peek_of_ahead_nil nothing
  have noRun : c.takeRun isBlank = ([], c.peek.2) :=
    Cursor.takeRun_of_not (by rw [shown]; decide)
  have ended : next c = (.plain .endOfInput [] c.peek.2.position, c.peek.2) := by
    simp only [next_eq, noRun, first, bind, StateT.bind, peek, position, Cursor.peek_peek, shown]
    rfl
  rw [ended]
  refine ⟨rfl, ?_⟩
  have released : c.held = none :=
    Option.toList_eq_nil_iff.mp (List.append_eq_nil_iff.mp nothing).1
  rw [Cursor.peek_of_released released] at shown ⊢
  rw [Cursor.hold, if_pos shown]
  exact Cursor.fetch_raw c

end Scan

/-- A word alone on a line is a token of this kind and with this value. -/
def Spells (word : String) (kind : Kind) (value : Option Number) : Prop :=
  (Scan.next (.ofFeed ⟨[.line word], []⟩)).1 = ⟨⟨kind, word, ⟨0, 1, 1⟩, value⟩, none⟩

instance (word : String) (kind : Kind) (value : Option Number) :
    Decidable (Spells word kind value) :=
  inferInstanceAs (Decidable (_ = (⟨⟨kind, word, ⟨0, 1, 1⟩, value⟩, none⟩ : Lexeme)))

/-- The kinds of tokens that stand on a line. -/
def Kind.InLine (kind : Kind) : Prop := kind ≠ .lineBreak ∧ kind ≠ .endOfInput

section

open Scan

variable {word : String} {kind : Kind} {value : Option Number}

/-- A word alone on a line starts with its first character and ends before the line does. -/
theorem Spells.placed (h : Spells word kind value) (inLine : kind.InLine) :
    '\n' ∉ word.toList ∧ endOfText ∉ word.toList ∧ ∃ ch cs, word.toList = ch :: cs ∧
      (afterBlanks (.ofFeed ⟨[.line word], []⟩)).held = some ch := by
  have token := congrArg Lexeme.token h
  rcases next_placed (.ofFeed ⟨[.line word], []⟩) with is | ⟨is, _⟩ | placed
  · exact absurd ((congrArg Token.kind token).symm.trans is) inLine.1
  · exact absurd ((congrArg Token.kind token).symm.trans is) inLine.2
  · have text : (next (.ofFeed ⟨[.line word], []⟩)).1.token.text = word :=
      congrArg Token.text token
    obtain ⟨ch, cs, held, _, chars⟩ := placed.first
    have noBreak := placed.inLine
    have inText := placed.taken.inText
    rw [text] at chars noBreak inText
    exact ⟨noBreak, inText, ch, cs, chars, held⟩

/-- A line with one word, and nothing read yet. -/
theorem ahead_of_word (noBreak : '\n' ∉ word.toList) :
    (Cursor.ofFeed ⟨[.line word], []⟩).ahead = word.toList ++ ['\n'] := by
  have normal : normalized word.toList = word.toList ++ ['\n'] := by
    unfold normalized
    split
    · next last =>
      exact absurd (List.mem_reverse.mp (last ▸ List.mem_cons_self)) noBreak
    · next last =>
      exact absurd (List.mem_reverse.mp (last ▸ List.mem_cons_self)) noBreak
    · rfl
  show normalized word.toList ++ [] = word.toList ++ ['\n']
  rw [List.append_nil, normal]

/-- A list with an element that is not in a run ends the run there. -/
theorem exists_run {p : Char → Bool} {cs : List Char} {end' : Char} (mem : end' ∈ cs)
    (stops : p end' = false) :
    ∃ bs ch ds, cs = bs ++ ch :: ds ∧ (∀ b ∈ bs, p b = true) ∧ p ch = false := by
  induction cs with
  | nil => cases mem
  | cons first cs ih =>
    cases goesOn : p first with
    | false => exact ⟨[], first, cs, rfl, nofun, goesOn⟩
    | true =>
      have mem : end' ∈ cs := by
        rcases List.mem_cons.mp mem with rfl | mem
        · cases stops.symm.trans goesOn
        · exact mem
      obtain ⟨bs, ch, ds, rfl, inRun, notInRun⟩ := ih mem
      exact ⟨first :: bs, ch, ds, rfl, List.forall_mem_cons.mpr ⟨goesOn, inRun⟩, notInRun⟩

/-- A word does not start with a blank. -/
theorem Spells.head (h : Spells word kind value) (inLine : kind.InLine) :
    ∃ ch cs, word.toList = ch :: cs ∧ isBlank ch = false := by
  obtain ⟨noBreak, _, ch, cs, chars, held⟩ := h.placed inLine
  have ahead := ahead_of_word noBreak
  obtain ⟨bs, first, ds, same, blanks, notBlank⟩ :=
    exists_run (p := isBlank) (List.mem_append_right word.toList (List.mem_singleton_self '\n'))
      (by decide)
  rw [same] at ahead
  have under := (afterBlanks_held (Cursor.sound_ofFeed _) ahead blanks notBlank).1
  cases held.symm.trans under
  exact ⟨ch, cs, chars, notBlank⟩

/-- A word is the same token after blanks and before an edge as on a line of its own. -/
theorem next_of_spells (h : Spells word kind value) (inLine : kind.InLine) {c : Cursor}
    {bs rest : List Char} {edge : Char} (sound : c.Sound) (blanks : ∀ b ∈ bs, isBlank b = true)
    (isEdge : isEdge edge = true) (ahead : c.ahead = bs ++ (word.toList ++ edge :: rest)) :
    Same (next c).1 ⟨⟨kind, word, ⟨0, 1, 1⟩, value⟩, none⟩ ∧ (next c).2.Sound ∧
      (next c).2.ahead = edge :: rest := by
  obtain ⟨noBreak, _⟩ := h.placed inLine
  obtain ⟨ch, cs, chars, notBlank⟩ := h.head inLine
  have soundAlone := Cursor.sound_ofFeed ⟨[.line word], []⟩
  have aheadAlone : (Cursor.ofFeed ⟨[.line word], []⟩).ahead = [] ++ ch :: (cs ++ ['\n']) := by
    rw [ahead_of_word noBreak, chars]
    rfl
  rw [chars] at ahead
  have here : Faces (ch :: cs) (c.takeRun isBlank).2 :=
    ⟨sound.takeRun stops_isBlank, edge, rest, isEdge, takeBlanks_ahead sound ahead blanks notBlank⟩
  have alone : Faces (ch :: cs) ((Cursor.ofFeed ⟨[.line word], []⟩).takeRun isBlank).2 :=
    ⟨soundAlone.takeRun stops_isBlank, '\n', [], rfl,
      takeBlanks_ahead soundAlone aheadAlone nofun notBlank⟩
  have same := next_same here alone
  unfold Spells at h
  rw [h] at same
  refine ⟨same, next_sound sound, ?_⟩
  rcases next_placed c with is | ⟨is, _⟩ | placed
  · exact absurd (same.kind.symm.trans is) inLine.1
  · exact absurd (same.kind.symm.trans is) inLine.2
  · have taken := placed.taken
    rw [same.text, chars] at taken
    exact taken.ahead (afterBlanks_held sound ahead blanks notBlank).2 (List.cons_ne_nil edge rest)

end

end ComplexScript.Token
