import ComplexScript.Proofs.Entry.Words
set_option autoImplicit false

/-!
# The marks of a program

A program is written with marks: the words of its expressions, keywords, braces, semicolons and line
breaks.  Where every mark is followed by an edge, or is a token whatever comes after it (`Laid`),
the reader sees the marks as tokens one after another (`Reader.Sees`).
-/

namespace ComplexScript.Entry

open ComplexScript.Text
open ComplexScript.Token (Kind Spells isBlank isEdge)

/-! ## Marks -/

/-- A piece of a program that is one token. -/
inductive Mark where
  | word (w : Word)
  | forKeyword | ifKeyword | elseKeyword | returnKeyword | funKeyword | breakKeyword
  | continueKeyword
  | openBrace | closeBrace
  | semicolon
  | lineBreak

namespace Mark

/-- The kind of a mark as a token. -/
def kind : Mark → Kind
  | word w => w.kind
  | forKeyword => .forKeyword
  | ifKeyword => .ifKeyword
  | elseKeyword => .elseKeyword
  | returnKeyword => .returnKeyword
  | funKeyword => .funKeyword
  | breakKeyword => .breakKeyword
  | continueKeyword => .continueKeyword
  | openBrace => .openBrace
  | closeBrace => .closeBrace
  | semicolon => .semicolon
  | lineBreak => .lineBreak

/-- How a mark is written. -/
def text : Mark → String
  | word w => w.text
  | forKeyword => "for"
  | ifKeyword => "if"
  | elseKeyword => "else"
  | returnKeyword => "return"
  | funKeyword => "fun"
  | breakKeyword => "break"
  | continueKeyword => "continue"
  | openBrace => "\x7b"
  | closeBrace => "\x7d"
  | semicolon => ";"
  | lineBreak => "\n"

/-- The value of a mark, if it is a number. -/
def value : Mark → Option Number
  | word w => w.value
  | _ => none

theorem inLine {m : Mark} (h : m ≠ lineBreak) : m.kind.InLine := by
  cases m with
  | word w => exact w.inLine
  | lineBreak => exact absurd rfl h
  | _ => exact ⟨nofun, nofun⟩

/-- A mark alone on a line is the token that it stands for. -/
theorem spells {m : Mark} (h : m ≠ lineBreak) : Spells m.text m.kind m.value := by
  cases m with
  | word w => exact w.spells
  | lineBreak => exact absurd rfl h
  | _ => decide +kernel

/-- The mark is one character that is a token whatever comes after it. -/
def isAlone (m : Mark) : Bool :=
  match m.text.toList with
  | [ch] => Kind.alone? ch = some m.kind
  | _ => false

theorem eq_of_isAlone {m : Mark} (h : m.isAlone = true) :
    ∃ ch, m.text.toList = [ch] ∧ Kind.alone? ch = some m.kind ∧ m.value = none := by
  unfold isAlone at h
  split at h
  · next ch text =>
    have kind : Kind.alone? ch = some m.kind := of_decide_eq_true h
    have notNumber : Kind.alone? ch ≠ some .number :=
      Token.of_edges (P := fun ch => Kind.alone? ch ≠ some .number) (by decide)
        (Token.isEdge_of_alone kind)
    refine ⟨ch, text, kind, ?_⟩
    cases m with
    | word w =>
      cases w with
      | numeral n =>
        exact absurd kind notNumber
      | _ => rfl
    | _ => rfl
  · cases h

/-- The mark is told apart from the characters after it. -/
def Parted (m : Mark) (cs : List Char) : Prop :=
  m.isAlone = true ∨ ∃ ch rest, cs = ch :: rest ∧ isEdge ch = true

theorem Parted.append {m : Mark} {cs : List Char} (h : m.Parted cs) (more : List Char) :
    m.Parted (cs ++ more) := by
  rcases h with alone | ⟨ch, rest, rfl, edge⟩
  · exact .inl alone
  · exact .inr ⟨ch, rest ++ more, rfl, edge⟩

theorem inText (m : Mark) : endOfText ∉ m.text.toList := by
  by_cases lineBreak : m = Mark.lineBreak
  · rw [lineBreak]
    decide
  · exact ((spells lineBreak).placed (inLine lineBreak)).2.1

end Mark

/-- The marks of words. -/
def marks (ws : List Word) : List Mark := ws.map .word

@[simp] theorem marks_nil : marks [] = [] := rfl

@[simp] theorem marks_cons (w : Word) (ws : List Word) : marks (w :: ws) = .word w :: marks ws :=
  rfl

@[simp] theorem marks_append (ws us : List Word) : marks (ws ++ us) = marks ws ++ marks us :=
  List.map_append

/-- The marks are written one after another before `tail`, with any number of blanks before each. -/
inductive Laid (tail : List Char) : List Mark → List Char → Prop where
  | nothing : Laid tail [] tail
  | mark {m : Mark} {ms : List Mark} {bs cs : List Char} (blanks : ∀ b ∈ bs, isBlank b = true)
      (parted : m.Parted cs) (others : Laid tail ms cs) :
      Laid tail (m :: ms) (bs ++ (m.text.toList ++ cs))

/-- A mark without blanks before it. -/
theorem Laid.first {tail cs : List Char} {m : Mark} {ms : List Mark} (parted : m.Parted cs)
    (others : Laid tail ms cs) : Laid tail (m :: ms) (m.text.toList ++ cs) :=
  @Laid.mark tail m ms [] cs nofun parted others

/-- More characters may come after the marks. -/
theorem Laid.append {tail cs : List Char} {ms : List Mark} (h : Laid tail ms cs)
    (more : List Char) : Laid (tail ++ more) ms (cs ++ more) := by
  induction h with
  | nothing => exact .nothing
  | mark blanks parted _ ih =>
    rw [List.append_assoc, List.append_assoc]
    exact .mark blanks (parted.append more) ih

/-- The end of the text is not among marks. -/
theorem Laid.inText {cs : List Char} {ms : List Mark} (h : Laid [] ms cs) : endOfText ∉ cs := by
  induction h with
  | nothing => exact List.not_mem_nil
  | @mark m _ bs _ blanks _ _ ih =>
    have notBlank : endOfText ∉ bs := fun mem => Bool.false_ne_true (blanks _ mem)
    simp [notBlank, m.inText, ih]

/-! ## Writing marks -/

/-- The marks one after another, with a blank between two that might run together. -/
def written : List Mark → List Char
  | [] => []
  | [m] => m.text.toList
  | m :: next :: ms =>
    m.text.toList ++
      if m.isAlone || next.isAlone then written (next :: ms) else ' ' :: written (next :: ms)

theorem written_head {m : Mark} (alone : m.isAlone = true) (ms : List Mark) :
    ∃ ch rest, written (m :: ms) = ch :: rest ∧ isEdge ch = true := by
  obtain ⟨ch, text, kind, _⟩ := Mark.eq_of_isAlone alone
  have edge := Token.isEdge_of_alone kind
  cases ms with
  | nil => exact ⟨ch, [], text, edge⟩
  | cons next ms =>
    rw [written, text]
    exact ⟨ch, _, rfl, edge⟩

theorem Laid.blank {tail cs : List Char} {m : Mark} {ms : List Mark} (h : Laid tail (m :: ms) cs) :
    Laid tail (m :: ms) (' ' :: cs) := by
  cases h with
  | @mark _ _ bs _ blanks parted others =>
    exact @Laid.mark tail m ms (' ' :: bs) _ (List.forall_mem_cons.mpr ⟨rfl, blanks⟩) parted others

/-- A written line is laid. -/
theorem laid_written (ms : List Mark) :
    Laid [] (ms ++ [.lineBreak]) (written (ms ++ [.lineBreak])) := by
  induction ms with
  | nil => exact .first (m := .lineBreak) (.inl rfl) .nothing
  | cons m ms ih =>
    obtain ⟨next, others, same⟩ : ∃ next others, ms ++ [Mark.lineBreak] = next :: others :=
      List.exists_cons_of_ne_nil (List.append_ne_nil_of_right_ne_nil ms (List.cons_ne_nil _ _))
    rw [List.cons_append, same, written]
    rw [same] at ih
    split
    · next apart =>
      refine .first ?_ ih
      rcases Bool.or_eq_true_iff.mp apart with alone | alone
      · exact .inl alone
      · exact .inr (written_head alone others)
    · exact .first (.inr ⟨' ', _, rfl, rfl⟩) ih.blank

/-- A line of words is laid. -/
theorem Spaced.laid {rest cs : List Char} {ws : List Word} (h : Spaced rest ws cs) :
    Laid rest (marks ws ++ [.lineBreak]) cs := by
  induction h with
  | @lineEnd bs blanks => exact .mark (m := .lineBreak) blanks (.inl rfl) .nothing
  | @word bs cs gap w ws blanks isGap others ih =>
    exact .mark (m := .word w) blanks (.inr ⟨gap, cs, rfl, Token.isEdge_of_isGap isGap⟩) ih

/-! ## Readers at marks -/

/-- A token is what a mark stands for. -/
structure Token.Is (t : Token) (m : Mark) : Prop where
  kind : t.kind = m.kind
  text : t.text = m.text
  value : t.value = m.value

/-- The tokens of these marks come next, and then the characters of `tail`. -/
inductive Reader.Sees (tail : List Char) : List Mark → Reader → Prop where
  | fresh {ms : List Mark} {r : Reader} (fresh : r.lookahead = none) (sound : r.cursor.Sound)
      (laid : Laid tail ms r.cursor.ahead) : Sees tail ms r
  | seen {m : Mark} {ms : List Mark} {r : Reader} {t : Token} (found : r.lookahead = some t)
      (is : Token.Is t m) (sound : r.cursor.Sound) (laid : Laid tail ms r.cursor.ahead) :
      Sees tail (m :: ms) r

namespace Reader

variable {tail : List Char} {m : Mark} {ms : List Mark} {ws : List Word} {r s : Reader}

/-- What a reader sees does not depend on the complaints so far. -/
theorem Sees.congr (h : r.Sees tail ms) (cursor : s.cursor = r.cursor)
    (lookahead : s.lookahead = r.lookahead) : s.Sees tail ms := by
  cases h with
  | fresh fresh sound laid =>
    rw [← cursor] at sound laid
    exact .fresh (lookahead.trans fresh) sound laid
  | seen found is sound laid =>
    rw [← cursor] at sound laid
    exact .seen (lookahead.trans found) is sound laid

/-- The first mark is read as its token, and reading it finds no fault. -/
theorem next_of_laid {c : Cursor} (sound : c.Sound) (laid : Laid tail (m :: ms) c.ahead) :
    Token.Is (Token.Scan.next c).1.token m ∧ (Token.Scan.next c).1.fault = none ∧
      (Token.Scan.next c).2.Sound ∧ Laid tail ms (Token.Scan.next c).2.ahead := by
  generalize same : c.ahead = cs at laid
  cases laid with
  | @mark _ _ bs cs blanks parted others =>
    by_cases alone : m.isAlone = true
    · obtain ⟨ch, text, kind, value⟩ := Mark.eq_of_isAlone alone
      rw [text] at same
      obtain ⟨⟨start, read⟩, sound', ahead'⟩ := Token.Scan.next_of_alone kind sound blanks same
      rw [read, ahead']
      refine ⟨⟨rfl, ?_, value.symm⟩, rfl, sound', others⟩
      rw [← String.toList_inj, text]
      exact String.toList_ofList
    · obtain ⟨edge, rest, rfl, isEdge⟩ := parted.resolve_left alone
      have inLine : m ≠ .lineBreak := by
        rintro rfl
        exact alone rfl
      obtain ⟨same', sound', ahead'⟩ :=
        Token.next_of_spells (Mark.spells inLine) (Mark.inLine inLine) sound blanks isEdge same
      rw [ahead']
      exact ⟨⟨same'.kind, same'.text, same'.value⟩, same'.fault, sound', others⟩

/-- At marks the next token is the first one, and looking at it finds no fault. -/
theorem Sees.look (h : r.Sees tail (m :: ms)) :
    r.looked.Sees tail (m :: ms) ∧ r.looked.diagnostics = r.diagnostics ∧ Token.Is r.token m := by
  cases h with
  | seen found is sound laid =>
    rw [looked_of_some found, token, found]
    exact ⟨.seen found is sound laid, rfl, is⟩
  | fresh fresh sound laid =>
    obtain ⟨is, fault, sound', laid'⟩ := next_of_laid sound laid
    rw [looked, token, fresh]
    exact ⟨.seen rfl is sound' laid', by simp [Read.fetched, fault], is⟩

/-- Using the first mark leaves the others. -/
theorem Sees.use (h : r.Sees tail (m :: ms)) : r.looked.used.Sees tail ms := by
  obtain ⟨looked, _⟩ := h.look
  cases looked with
  | fresh fresh => cases fresh.symm.trans r.looked_lookahead
  | seen _ _ sound laid => exact .fresh rfl sound laid

/-- What comes after the first mark may be taken for characters. -/
theorem Sees.only (h : r.Sees tail (m :: ms)) : ∃ tail', r.Sees tail' [m] := by
  cases h with
  | seen found is sound laid => exact ⟨_, .seen found is sound .nothing⟩
  | fresh fresh sound laid =>
    generalize same : r.cursor.ahead = cs at laid
    cases laid with
    | @mark _ _ bs cs blanks parted others =>
      have only : Laid cs [m] r.cursor.ahead := by
        rw [same]
        exact .mark blanks parted .nothing
      exact ⟨cs, .fresh fresh sound only⟩

/-! ## Lines of words -/

/-- The tokens of these words come next, and then the line break. -/
def Shows (ws : List Word) (r : Reader) : Prop :=
  ∃ tail, r.Sees tail (marks ws ++ [.lineBreak])

theorem Shows.fresh {rest : List Char} (fresh : r.lookahead = none) (sound : r.cursor.Sound)
    (spaced : Spaced rest ws r.cursor.ahead) : r.Shows ws :=
  ⟨rest, .fresh fresh sound spaced.laid⟩

end Reader

end ComplexScript.Entry
