import ComplexScript.Diagnostic
import ComplexScript.Proofs.Text.Stored
import ComplexScript.Proofs.Token.Counting
set_option autoImplicit false

/-!
# Tokens cover their text

A token uses blanks and then its own text, and leaves everything after it (`Scan.next_covers`).  So
the texts of all tokens make up the text of the program without its blanks, placeholders included
(`Scan.tokens_cover`).  The placeholders are the tokens with a fault (`Scan.next_marked`).
-/

namespace ComplexScript.Token

open ComplexScript.Text

/-! ## Placeholders and faults -/

/-- A token is a placeholder exactly if it has a fault. -/
def Lexeme.Marked (x : Lexeme) : Prop := x.token.kind = .empty ↔ x.fault.isSome = true

/-- The diagnostics of a token: its fault, if it has one.  A reader adds them to its own when it
looks at the token. -/
def Lexeme.diagnostics (x : Lexeme) : List Diagnostic :=
  x.fault.toList.map fun f => ⟨x.token, .lexical f⟩

theorem Lexeme.Marked.plain {kind : Kind} (h : kind ≠ .empty) (text : List Char)
    (start : Position) : (Lexeme.plain kind text start).Marked :=
  ⟨fun empty => absurd empty h, nofun⟩

/-- The diagnostics of a placeholder are one, and those of any other token none. -/
theorem Lexeme.Marked.diagnostics_tokens {x : Lexeme} (h : x.Marked) :
    x.diagnostics.map (·.token) = if x.token.kind = .empty then [x.token] else [] := by
  unfold Lexeme.Marked at h
  rw [Lexeme.diagnostics]
  cases fault : x.fault with
  | none =>
    rw [fault] at h
    rw [if_neg fun empty => nomatch h.mp empty]
    rfl
  | some f =>
    rw [fault] at h
    rw [if_pos (h.mpr rfl)]
    rfl

theorem ofWord_ne_empty (word : String) : Kind.ofWord word ≠ .empty := by
  unfold Kind.ofWord
  split <;> try decide
  split
  · decide
  · split <;> decide

theorem eq_exitWord_of_ofWord {word : String} (h : Kind.ofWord word = .endOfInput) :
    word = Kind.exitWord := by
  unfold Kind.ofWord at h
  split at h <;> try cases h
  split at h
  · cases h
  · split at h
    · next is => exact is
    · cases h

namespace Scan

variable {c d : Cursor} {start : Position} {ch : Char}

theorem number_marked (ch : Char) (start : Position) :
    Gives Lexeme.Marked (number ch start) := by
  have literal : ∀ text value, (Lexeme.ofLiteral text start value).Marked := by
    rintro text (_ | _)
    · exact ⟨fun _ => rfl, fun _ => rfl⟩
    · exact ⟨nofun, nofun⟩
  exact number_gives ⟨fun _ _ => literal _ _, fun _ _ => literal _ _, fun _ => ⟨nofun, nofun⟩,
    fun _ _ => ⟨fun _ => rfl, fun _ => rfl⟩⟩ ch

theorem pair_marked {p : Pairing} (is : Pairing.of? ch = some p) (start : Position) :
    Gives Lexeme.Marked (pair ch p start) := by
  have kinds : p.paired ≠ .empty ∧ ∀ kind, p.alone = some kind → kind ≠ .empty := by
    unfold Pairing.of? at is
    split at is <;> cases is <;> simp
  refine .bind fun second => ?_
  split
  · exact .bind fun _ => .pure (.plain kinds.1 _ start)
  · split
    · next alone => exact .pure (.plain (kinds.2 _ alone) _ start)
    · exact .pure ⟨fun _ => rfl, fun _ => rfl⟩

theorem Scanned.marked {r : Lexeme × Cursor} (scanned : Scanned d r) : r.1.Marked := by
  cases scanned with
  | ended held => exact .plain (by decide) [] d.position
  | lineBreak held is => exact .plain (by decide) ['\n'] d.position
  | number held is => exact number_marked _ d.position d
  | word held is => exact .plain (ofWord_ne_empty _) _ d.position
  | pair held is => exact pair_marked is d.position d
  | @single ch kind held is =>
    refine .plain ?_ [ch] d.position
    rintro rfl
    unfold Kind.ofCharacter? at is
    split at is <;> cases is
  | invalid held inText => exact ⟨fun _ => rfl, fun _ => rfl⟩

/-- The placeholders are the tokens with a fault. -/
theorem next_marked (c : Cursor) : (next c).1.Marked := (next_scanned c).marked

/-! ## What ends a program -/

/-- The end of the text has no text, and the only other token of its kind is the word for it. -/
theorem Scanned.ending {r : Lexeme × Cursor} (scanned : Scanned d r)
    (isEnd : r.1.token.kind = .endOfInput) :
    r.1.token.text = "" ∨ r.1.token.text = Kind.exitWord := by
  cases scanned with
  | ended held => exact .inl rfl
  | lineBreak held is => cases isEnd
  | @number ch held is =>
    rcases number_ofNumber ch d.position d with kind | kind <;> cases kind.symm.trans isEnd
  | word held is => exact .inr (eq_exitWord_of_ofWord isEnd)
  | pair held is =>
    have other := (pair_kind is d.position d).1
    rw [isEnd] at other
    exact absurd other (by decide)
  | @single ch kind held is =>
    obtain rfl : kind = .endOfInput := isEnd
    unfold Kind.ofCharacter? at is
    split at is <;> cases is
  | invalid held inText => cases isEnd

/-- A token with a text ends a program only if it is the word for that. -/
theorem Placed.exit (placed : Placed (afterBlanks c) (next c))
    (isEnd : (next c).1.token.kind = .endOfInput) : (next c).1.token.text = Kind.exitWord := by
  refine ((next_scanned c).ending isEnd).resolve_left fun nothing => ?_
  obtain ⟨_, _, _, _, chars⟩ := placed.first
  rw [nothing] at chars
  cases chars

/-! ## What a token uses -/

/-- What the next token uses of the characters ahead: none at the end of the text, a line break, or
blanks and its own text, which is never the last before the end. -/
inductive Covers (c : Cursor) : Prop where
  | nothing (ahead : c.ahead = []) (token : (next c).1 = .plain .endOfInput [] c.peek.2.position)
  | lineBreak {bs : List Char} {ch : Char} (blanks : ∀ b ∈ bs, isBlank b = true)
    (is : ch = '\n' ∨ ch = '\r') (ahead : c.ahead = bs ++ ch :: (next c).2.ahead)
    (token : ∃ start, (next c).1 = .plain .lineBreak ['\n'] start)
  | text {bs : List Char} (blanks : ∀ b ∈ bs, isBlank b = true)
    (ahead : c.ahead = bs ++ ((next c).1.token.text.toList ++ (next c).2.ahead))
    (noBlank : ∀ x ∈ (next c).1.token.text.toList, isBlank x = false)
    (placed : Placed (afterBlanks c) (next c)) (goesOn : (next c).2.ahead ≠ [])

theorem next_covers (complete : c.Complete) : Covers c := by
  rcases complete.ends with nothing | last
  · exact .nothing nothing (next_of_ahead_nil nothing).1
  obtain ⟨bs, ch, rest, ahead, blanks, notBlank⟩ :=
    exists_run (p := isBlank) (List.mem_of_getLast? last) (by decide)
  obtain ⟨held, there⟩ := afterBlanks_held complete.sound ahead blanks notBlank
  rcases next_cases c with ⟨ch', held', is, token⟩ | ⟨ended, _⟩ | placed
  · cases held.symm.trans held'
    have after : (afterBlanks c).release.ahead = rest := Cursor.release_of_ahead held there
    refine .lineBreak blanks is ?_ ⟨_, by rw [token]⟩
    rw [token, after, ahead]
  · have inText := complete.inText
    cases held.symm.trans ended
    rw [ahead] at inText
    exact absurd (List.mem_append_right bs List.mem_cons_self) inText
  · obtain ⟨first, others, held', _, chars⟩ := placed.first
    cases held.symm.trans held'
    -- the text is the first of what is ahead, and a line break is still to come
    obtain ⟨after, split⟩ := placed.taken.prefix_ahead
    rw [there] at split
    have whole : c.ahead = bs ++ (next c).1.token.text.toList ++ after := by
      rw [ahead, ← split, List.append_assoc]
    have goesOn : after ≠ [] := by
      refine complete.goesOn ?_ ?_ whole
      · intro mem
        rcases List.mem_append.mp mem with mem | mem
        · exact absurd (blanks _ mem) (by decide)
        · exact placed.inLine mem
      · rw [chars]
        exact List.append_ne_nil_of_right_ne_nil bs (List.cons_ne_nil _ others)
    have left : (next c).2.ahead = after := placed.taken.ahead (there.trans split.symm) goesOn
    refine .text blanks ?_ ?_ placed (left ▸ goesOn)
    · rw [left, whole, List.append_assoc]
    · rw [chars, List.forall_mem_cons]
      refine ⟨notBlank, fun x mem => ?_⟩
      have notEdge := not_isEdge_of_isInner (placed.inner x (by rw [chars]; exact mem))
      rw [isEdge, Bool.or_eq_false_iff] at notEdge
      exact notEdge.1

/-- A token leaves the last of the characters ahead. -/
theorem Covers.suffix (h : Covers c) (notEnd : (next c).1.token.kind ≠ .endOfInput) :
    ∃ us, c.ahead = us ++ (next c).2.ahead := by
  cases h with
  | nothing ahead token => exact absurd (congrArg (·.token.kind) token) notEnd
  | lineBreak blanks is ahead token => exact ⟨_, ahead.trans (List.append_cons _ _ _)⟩
  | text blanks ahead => exact ⟨_, ahead.trans (List.append_assoc _ _ _).symm⟩

/-- What a token leaves is as complete as what it was read from. -/
theorem Covers.complete (h : Covers c) (complete : c.Complete)
    (notEnd : (next c).1.token.kind ≠ .endOfInput) : (next c).2.Complete := by
  obtain ⟨us, ahead⟩ := h.suffix notEnd
  exact complete.suffix (next_sound complete.sound) ahead

/-! ## What all tokens use -/

/-- The characters of a text that belong to tokens. -/
def unblanked (cs : List Char) : List Char := cs.filter fun ch => !isBlank ch

theorem unblanked_skip {bs : List Char} (blanks : ∀ b ∈ bs, isBlank b = true) (cs : List Char) :
    unblanked (bs ++ cs) = unblanked cs := by
  have none : unblanked bs = [] := by
    rw [unblanked, List.filter_eq_nil_iff]
    intro b mem
    rw [blanks b mem]
    decide
  rw [unblanked, List.filter_append]
  exact congrArg (· ++ unblanked cs) none

theorem unblanked_keep {us : List Char} (noBlank : ∀ x ∈ us, isBlank x = false)
    (cs : List Char) : unblanked (us ++ cs) = us ++ unblanked cs := by
  have all : unblanked us = us := by
    rw [unblanked, List.filter_eq_self]
    intro x mem
    rw [noBlank x mem]
    rfl
  rw [unblanked, List.filter_append]
  exact congrArg (· ++ unblanked cs) all

/-- The texts of tokens, one after another. -/
def spelling (xs : List Lexeme) : List Char := xs.flatMap fun x => x.token.text.toList

/-- The texts of the tokens of a text without carriage returns that goes on to its end are its
characters but for the blanks. -/
theorem spelling_tokens (complete : c.Complete) (noReturn : '\r' ∉ c.ahead)
    (noExit : ∀ e ∈ (tokens c).1.getLast?, e.token.text ≠ Kind.exitWord) :
    spelling (tokens c).1 = unblanked c.ahead := by
  have sound := complete.sound
  induction c, sound using tokens_induction with
  | ended c sound isEnd =>
    rw [tokens_of_end isEnd] at noExit ⊢
    cases next_covers complete with
    | nothing ahead token =>
      rw [ahead, token]
      simp [spelling, unblanked, Lexeme.plain]
    | lineBreak _ _ _ token =>
      obtain ⟨_, token⟩ := token
      rw [token] at isEnd
      cases isEnd
    | text _ _ _ placed => exact absurd (placed.exit isEnd) (noExit _ rfl)
  | token c sound notEnd ih =>
    have covers := next_covers complete
    have last : (tokens c).1.getLast? = (tokens (next c).2).1.getLast? := by
      obtain ⟨⟨e, ends, _⟩, _⟩ := tokens_ends (next c).2 (next_sound sound)
      rw [tokens_of_not_end sound notEnd, ends, List.getLast?_concat, ← List.cons_append,
        List.getLast?_concat]
    rw [last] at noExit
    rw [tokens_of_not_end sound notEnd]
    have rest : spelling (tokens (next c).2).1 = unblanked (next c).2.ahead := by
      obtain ⟨us, ahead⟩ := covers.suffix notEnd
      refine ih (covers.complete complete notEnd) (fun mem => noReturn ?_) noExit
      rw [ahead]
      exact List.mem_append_right us mem
    rw [spelling, List.flatMap_cons]
    show _ ++ spelling (tokens (next c).2).1 = _
    rw [rest]
    cases covers with
    | nothing ahead token => exact absurd (congrArg (·.token.kind) token) notEnd
    | @lineBreak bs ch blanks is ahead token =>
      obtain ⟨_, token⟩ := token
      have lineBreak : ch = '\n' := by
        refine is.resolve_right ?_
        rintro rfl
        rw [ahead] at noReturn
        exact noReturn (List.mem_append_right bs List.mem_cons_self)
      rw [ahead, unblanked_skip blanks, lineBreak, token, Lexeme.plain, String.toList_ofList]
      exact (unblanked_keep (List.forall_mem_singleton.mpr rfl) _).symm
    | text blanks ahead noBlank =>
      rw [ahead, unblanked_skip blanks, unblanked_keep noBlank]

/-- The diagnostics of tokens are about the placeholders among them, one about each. -/
theorem diagnostics_tokens {xs : List Lexeme} (marked : ∀ x ∈ xs, x.Marked) :
    (xs.flatMap Lexeme.diagnostics).map (·.token) =
      (xs.map (·.token)).filter (·.kind = .empty) := by
  induction xs with
  | nil => rfl
  | cons x xs ih =>
    obtain ⟨first, others⟩ := List.forall_mem_cons.mp marked
    rw [List.flatMap_cons, List.map_append, first.diagnostics_tokens, ih others, List.map_cons,
      List.filter_cons]
    by_cases empty : x.token.kind = .empty
    · simp [empty]
    · simp [empty]

/-- The tokens of a program that ends with its text are spelled with all its characters but the
blanks, in order.  The diagnostics are about the placeholders, one about each and in the order of
the text. -/
theorem tokens_cover (text : String) (inText : endOfText ∉ text.toList)
    (noReturn : '\r' ∉ text.toList)
    (noExit : ∀ e ∈ (tokens (.ofFeed (.ofString text))).1.getLast?,
      e.token.text ≠ Kind.exitWord) :
    let xs := (tokens (.ofFeed (.ofString text))).1
    spelling xs = unblanked (terminated text.toList) ∧
      (xs.flatMap Lexeme.diagnostics).map (·.token) =
        (xs.map (·.token)).filter (·.kind = .empty) := by
  intro xs
  have complete : (Cursor.ofFeed (.ofString text)).Complete := Cursor.complete_ofString inText
  have delivered : (Cursor.ofFeed (.ofString text)).ahead = terminated text.toList :=
    text_ofString noReturn
  refine ⟨?_, diagnostics_tokens (forall_tokens next_marked complete.sound)⟩
  rw [← delivered]
  refine spelling_tokens complete (fun mem => noReturn ?_) noExit
  exact (mem_text_ofString mem).resolve_right (by decide)

/-- A leading zero that ends early, a fraction without digits, an imaginary suffix cut from a word,
half an operator and a character of no token, with blanks between and no line break at the end. -/
def mixedText : String := "09 1.+2ix\t&a\n== 0x$ 07i"

theorem mixedText_covered :
    spelling (tokens (.ofFeed (.ofString mixedText))).1 = "091.+2ix&a\n==0x$07i\n".toList ∧
      (tokens (.ofFeed (.ofString mixedText))).1.flatMap Lexeme.diagnostics =
        [⟨⟨.empty, "1.", ⟨0, 4, 4⟩, none⟩, .lexical (.malformedFraction "1.")⟩,
          ⟨⟨.empty, "&", ⟨0, 11, 11⟩, none⟩, .lexical (.unmatchedOperator '&')⟩,
          ⟨⟨.empty, "$", ⟨1, 6, 18⟩, none⟩, .lexical (.invalidCharacter '$')⟩] ∧
      ((tokens (.ofFeed (.ofString mixedText))).1.map (·.token)).filter (·.kind = .empty) =
        [⟨.empty, "1.", ⟨0, 4, 4⟩, none⟩, ⟨.empty, "&", ⟨0, 11, 11⟩, none⟩,
          ⟨.empty, "$", ⟨1, 6, 18⟩, none⟩] := by
  obtain ⟨cover, placeholders⟩ := tokens_cover mixedText (by decide +kernel) (by decide +kernel)
    (by decide +kernel)
  have diagnostics : (tokens (.ofFeed (.ofString mixedText))).1.flatMap Lexeme.diagnostics =
      [⟨⟨.empty, "1.", ⟨0, 4, 4⟩, none⟩, .lexical (.malformedFraction "1.")⟩,
        ⟨⟨.empty, "&", ⟨0, 11, 11⟩, none⟩, .lexical (.unmatchedOperator '&')⟩,
        ⟨⟨.empty, "$", ⟨1, 6, 18⟩, none⟩, .lexical (.invalidCharacter '$')⟩] := by
    decide +kernel
  rw [diagnostics] at placeholders
  exact ⟨cover.trans (by decide +kernel), diagnostics, placeholders.symm⟩

end Scan

end ComplexScript.Token
