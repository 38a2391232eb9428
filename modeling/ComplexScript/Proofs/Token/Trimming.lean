import ComplexScript.Proofs.Token.Covering
set_option autoImplicit false

/-!
# The canonical text of tokens

A token is settled by its own characters: before an edge the scanner reads it again from them,
whatever came after it at first (`Scan.next_trimmed`).  The scanner stops only before characters
that it cannot go on with, and it cannot go on with an edge either, so each of its pieces takes the
same where an edge follows (`Scan.Trims`).  Hence a program whose tokens are written out with a
blank before each has the same tokens, placeholders and faults included (`Scan.canonical_same`).
-/

namespace ComplexScript.Token

open ComplexScript.Text

/-- A token is written in the text, unless it is the end of the text and not the word for it. -/
def Lexeme.Written (x : Lexeme) : Prop :=
  x.token.kind ≠ .endOfInput ∨ x.token.text = Kind.exitWord

instance (x : Lexeme) : Decidable x.Written := inferInstanceAs (Decidable (_ ∨ _))

/-- The texts of tokens, each after one blank. -/
def canonical (xs : List Lexeme) : List Char :=
  (xs.filter (·.Written)).flatMap fun x => ' ' :: x.token.text.toList

theorem canonical_cons {x : Lexeme} (h : x.Written) (xs : List Lexeme) :
    canonical (x :: xs) = ' ' :: (x.token.text.toList ++ canonical xs) := by
  rw [canonical, List.filter_cons, if_pos (decide_eq_true h)]
  rfl

namespace Scan

variable {c c' : Cursor} {ch : Char} {opening : List Char} {start start' : Position}
  {more : Char → Bool}

/-! ## Pieces of tokens -/

/-- After the characters `opening` the scanner takes what it can go on with, which is something if
it is shown one of `more`.  Where an edge comes after the same characters it reads the same. -/
def Trims (opening : List Char) (more : Char → Bool) (m m' : Scan Lexeme) : Prop :=
  ∀ c, c.Sound → ∃ us, c.Takes us (m c).2 ∧ (m c).1.token.text = String.ofList (opening ++ us) ∧
    (more c.peek.1 = true → us ≠ []) ∧ ∀ c', Faces us c' → Same (m c).1 (m' c').1

theorem Trims.pure {x x' : Lexeme} (text : x.token.text = String.ofList opening)
    (same : Same x x') : Trims opening (fun _ => false) (pure x) (Pure.pure x') := by
  intro c _
  refine ⟨[], .nothing c, ?_, nofun, fun _ _ => same⟩
  rw [List.append_nil]
  exact text

/-- A run takes something if it is shown one of its characters, and nothing otherwise. -/
theorem takeRun_cases (p : Char → Bool) (c : Cursor) :
    p c.peek.1 = true ∧ (c.takeRun p).1 ≠ [] ∨
      p c.peek.1 = false ∧ c.takeRun p = ([], c.peek.2) := by
  cases goesOn : p c.peek.1 with
  | true =>
    rw [Cursor.takeRun, Cursor.takeWhile, Cursor.peek_peek, goesOn, if_pos rfl]
    exact .inl ⟨rfl, List.cons_ne_nil _ _⟩
  | false => exact .inr ⟨rfl, Cursor.takeRun_of_not goesOn⟩

/-- A run is as long as it can be, so what is taken after it does not start with one of its
characters, and before an edge the run is the same. -/
theorem Trims.run {p : Char → Bool} (stops : Cursor.Stops p)
    (inWord : ∀ ch, isEdge ch = true → p ch = false) {f f' : List Char → Scan Lexeme}
    (h : ∀ ws, Trims (opening ++ ws) more (f ws) (f' ws)) :
    Trims opening (fun ch => p ch || more ch) (takeRun p >>= f) (takeRun p >>= f') := by
  intro c sound
  obtain ⟨us, taken, text, progress, same⟩ := h (c.takeRun p).1 _ (sound.takeRun stops)
  have inRun (x : Char) (mem : x ∈ (c.takeRun p).1) : p x = true :=
    Cursor.of_mem_takeWhile p _ _ mem
  refine ⟨_, (Cursor.takes_takeRun stops.2 c).trans taken, ?_, fun goesOn nothing => ?_,
    fun c' faces => ?_⟩
  · rw [← List.append_assoc]
    exact text
  · obtain ⟨noRun, noRest⟩ := List.append_eq_nil_iff.mp nothing
    rcases takeRun_cases p c with ⟨_, some'⟩ | ⟨notInRun, run⟩
    · exact some' noRun
    · have goesOn : (p c.peek.1 || more c.peek.1) = true := goesOn
      rw [notInRun, Bool.false_or] at goesOn
      rw [run, Cursor.peek_peek] at progress
      exact progress goesOn noRest
  · have stop : us.takeWhile p = [] ∧ us.dropWhile p = us := by
      cases us with
      | nil => exact ⟨rfl, rfl⟩
      | cons u us =>
        have ends : p u = false := by
          rw [← taken.head]
          exact Cursor.takeRun_ends stops sound
        rw [List.takeWhile_cons, List.dropWhile_cons, ends]
        exact ⟨rfl, rfl⟩
    obtain ⟨run, after⟩ := faces.takeRun stops inWord
    rw [List.takeWhile_append_of_pos inRun, stop.1, List.append_nil] at run
    rw [List.dropWhile_append_of_pos inRun, stop.2] at after
    show Same _ (f' (c'.takeRun p).1 (c'.takeRun p).2).1
    rw [run]
    exact same _ after

/-- With an edge after the characters that were taken, a look shows the same character again, or the
edge if none was taken. -/
theorem Faces.shown {us : List Char} (faces : Faces us c') {d : Cursor} (taken : c.Takes us d) :
    us = [] ∧ isEdge c'.peek.1 = true ∨ us ≠ [] ∧ c'.peek.1 = c.peek.1 := by
  cases us with
  | nil => exact .inl ⟨rfl, faces.peek_nil⟩
  | cons u us => exact .inr ⟨List.cons_ne_nil u us, by rw [faces.peek_cons, taken.head]⟩

/-- A look that decides how to go on.  A character that satisfies `p` is taken, and no edge
does. -/
theorem Trims.see {p morePos : Char → Bool} (inWord : ∀ ch, isEdge ch = true → p ch = false)
    {yes no yes' no' : Scan Lexeme} (pos : Trims opening morePos yes yes')
    (takes : ∀ ch, p ch = true → morePos ch = true) (neg : Trims opening more no no') :
    Trims opening (fun ch => p ch || more ch) (peek >>= fun ch => if p ch then yes else no)
      (peek >>= fun ch => if p ch then yes' else no') := by
  intro c sound
  simp only [bind, StateT.bind, peek]
  cases shown : p c.peek.1 with
  | true =>
    obtain ⟨us, taken, text, progress, same⟩ := pos c.peek.2 sound.peek
    rw [Cursor.peek_peek] at progress
    have some' : us ≠ [] := progress (takes _ shown)
    refine ⟨us, .peek taken, text, fun _ => some', fun c' faces => ?_⟩
    have again := ((faces.shown (.peek taken)).resolve_left fun nothing => some' nothing.1).2
    rw [again, shown]
    exact same _ faces.peek
  | false =>
    obtain ⟨us, taken, text, progress, same⟩ := neg c.peek.2 sound.peek
    rw [Cursor.peek_peek] at progress
    refine ⟨us, .peek taken, text, progress, fun c' faces => ?_⟩
    have shown' : p c'.peek.1 = false := by
      rcases faces.shown (.peek taken) with ⟨_, edge⟩ | ⟨_, again⟩
      · exact inWord _ edge
      · rw [again, shown]
    rw [shown']
    exact same _ faces.peek

/-- A look at the next character, which is taken if it is the one wanted. -/
theorem Trims.peek {want : Char} {morePos : Char → Bool} (inText : want ≠ endOfText)
    (inWord : isEdge want = false) {yes no yes' no' : Scan Lexeme}
    (taken : Trims (opening ++ [want]) morePos yes yes') (left : Trims opening more no no') :
    Trims opening (fun ch => ch = want || more ch)
      (Scan.peek >>= fun ch => if ch = want then release >>= fun _ => yes else no)
      (Scan.peek >>= fun ch => if ch = want then release >>= fun _ => yes' else no') := by
  intro c sound
  simp only [bind, StateT.bind, Scan.peek]
  by_cases shown : c.peek.1 = want
  · have held : c.peek.2.held = some want := shown ▸ c.peek_held
    obtain ⟨us, taken, text, _, same⟩ := taken c.peek.2.release sound.peek.release
    rw [if_pos shown]
    refine ⟨want :: us, .peek (.release held inText taken), ?_, fun _ => List.cons_ne_nil _ _,
      fun c' faces => ?_⟩
    · rw [← List.singleton_append, ← List.append_assoc]
      exact text
    · rw [if_pos faces.peek_cons]
      exact same _ faces.release
  · obtain ⟨us, taken, text, progress, same⟩ := left c.peek.2 sound.peek
    rw [Cursor.peek_peek] at progress
    rw [if_neg shown]
    refine ⟨us, .peek taken, text, fun goesOn => ?_, fun c' faces => ?_⟩
    · refine progress ?_
      simpa [shown] using goesOn
    · have shown' : c'.peek.1 ≠ want := by
        rcases faces.shown (.peek taken) with ⟨_, edge⟩ | ⟨_, again⟩
        · rintro rfl
          cases inWord.symm.trans edge
        · rw [again]
          exact shown
      rw [if_neg shown']
      exact same _ faces.peek

/-! ## Numbers, operators and words -/

theorem ofLiteral_trims (text : List Char) (value : Except ArithmeticFault Number) :
    Trims text (fun _ => false) (Pure.pure (Lexeme.ofLiteral text start value))
      (Pure.pure (Lexeme.ofLiteral text start' value)) :=
  .pure (ofLiteral_text text start value).1 (ofLiteral_same start start' text value)

theorem suffix_trims (text : List Char) (v : Float) :
    Trims text (fun ch => ch = 'i' || false) (suffix text v start) (suffix text v start') :=
  .peek (by decide) (by decide) (ofLiteral_trims _ _) (ofLiteral_trims _ _)

/-- A literal after its point. -/
def afterPoint (b : Base) (text : List Char) (v : Float) (start : Position) : Scan Lexeme := do
  let places ← takeRun b.isDigit
  suffix (text ++ '.' :: places) (roundHalfUp (b.addPlaces v places) places.length) start

theorem afterPoint_trims (b : Base) (text : List Char) (v : Float) :
    Trims (text ++ ['.']) (fun ch => b.isDigit ch || (ch = 'i' || false))
      (afterPoint b text v start) (afterPoint b text v start') := by
  refine .run (stops_isDigit b) (not_isDigit_of_isEdge b) fun places => ?_
  rw [← List.append_cons]
  exact suffix_trims _ _

/-- The characters that a literal goes on with after its first ones. -/
def extends? (b : Base) (ch : Char) : Bool := b.isDigit ch || (ch = '.' || (ch = 'i' || false))

theorem digits_trims (start start' : Position) (b : Base) (opening : List Char) (v : Float) :
    Trims opening (extends? b) (digits b opening v start) (digits b opening v start') := by
  refine .run (stops_isDigit b) (not_isDigit_of_isEdge b) fun whole =>
    .peek (by decide) (by decide)
      (.see (not_isDigit_of_isEdge b) (afterPoint_trims b (opening ++ whole) (b.extend v whole))
        (fun ch digit => ?_) (.pure rfl ?_))
      (suffix_trims _ _)
  · rw [digit, Bool.true_or]
  · exact ⟨rfl, rfl, rfl, rfl⟩

/-- A leading zero goes on with the character that it needs for a base, and every other first digit
is decimal whatever comes after it. -/
theorem opening_plain {first second : Char} {b : Base}
    (h : Base.opening first second = .plain b) :
    first ≠ '0' ∧ b = .decimal ∨ extends? b second = true := by
  unfold Base.opening at h
  by_cases zero : first = '0'
  · rw [if_pos zero] at h
    split at h
    · cases h
    split at h
    · cases h
    split at h
    · next octal =>
      cases h
      exact .inr (by rw [extends?, octal, Bool.true_or])
    split at h
    · next point =>
      refine .inr ?_
      rcases point with rfl | rfl <;> simp [extends?]
    · cases h
  · rw [if_neg zero] at h
    cases h
    exact .inl ⟨zero, rfl⟩

theorem opening_zero {first second : Char} (h : Base.opening first second = .zero) :
    first = '0' := by
  unfold Base.opening at h
  split at h
  · next zero => exact zero
  · cases h

theorem afterDigit_trims (first : Char) :
    Trims [first] (fun _ => false) (afterDigit first start) (afterDigit first start') := by
  intro c sound
  simp only [afterDigit, bind, StateT.bind, Scan.peek]
  cases opening : Base.opening first c.peek.1 with
  | zero =>
    refine ⟨[], .looked c, rfl, (absurd · Bool.false_ne_true), fun c' faces => ?_⟩
    rw [opening_of_isEdge first faces.peek_nil, if_pos (opening_zero opening)]
    exact ⟨rfl, rfl, rfl, rfl⟩
  | plain b =>
    obtain ⟨us, taken, text, progress, same⟩ :=
      digits_trims start start' b [first] (digitValue first) c.peek.2 sound.peek
    rw [Cursor.peek_peek] at progress
    refine ⟨us, .peek taken, text, (absurd · Bool.false_ne_true), fun c' faces => ?_⟩
    have opening' : Base.opening first c'.peek.1 = .plain b := by
      rcases faces.shown (.peek taken) with ⟨nothing, edge⟩ | ⟨_, again⟩
      · rcases opening_plain opening with ⟨notZero, rfl⟩ | goesOn
        · rw [opening_of_isEdge first edge, if_neg notZero]
        · exact absurd nothing (progress goesOn)
      · rw [again, opening]
    rw [opening']
    exact same _ faces.peek
  | marked b =>
    obtain ⟨us, taken, text, _, same⟩ :=
      digits_trims start start' b [first, c.peek.1] (digitValue first)
        c.peek.2.release sound.peek.release
    have inText : c.peek.1 ≠ endOfText := by
      rcases opening_marked opening with mark | mark <;> rw [mark] <;> decide
    refine ⟨c.peek.1 :: us, .peek (.release c.peek_held inText taken), text,
      (absurd · Bool.false_ne_true), fun c' faces => ?_⟩
    rw [faces.peek_cons, opening]
    exact same _ faces.release

theorem afterOperator_trims {first : Char} {p : Pairing} (is : Pairing.of? first = some p) :
    Trims [first] (fun ch => ch = p.second || false) (afterOperator first p start)
      (afterOperator first p start') := by
  have second : p.second ≠ endOfText ∧ isEdge p.second = false := by
    unfold Pairing.of? at is
    split at is <;> cases is <;> decide
  refine .peek second.1 second.2 (.pure rfl ⟨rfl, rfl, rfl, rfl⟩) ?_
  cases p.alone with
  | some kind => exact .pure rfl ⟨rfl, rfl, rfl, rfl⟩
  | none => exact .pure rfl ⟨rfl, rfl, rfl, rfl⟩

theorem word_trims (start start' : Position) :
    Trims [] (fun ch => isWordCharacter ch || false) (word start) (word start') :=
  .run stops_isWordCharacter not_isWordCharacter_of_isEdge fun _ => .pure rfl ⟨rfl, rfl, rfl, rfl⟩

/-! ## Whole tokens -/

/-- A piece that reads a token after its first character, at that token's own characters. -/
theorem Trims.released {m m' : Scan Lexeme} {d : Cursor} (trims : Trims [ch] more m m')
    (sound : d.Sound) (faces : Faces (m d).1.token.text.toList c') :
    Same (m d).1 (m' c'.peek.2.release).1 := by
  obtain ⟨us, _, text, _, same⟩ := trims d sound
  rw [text, String.toList_ofList] at faces
  exact same _ faces.release

/-- Before an edge a token is read again from its own characters, without blanks before it. -/
theorem first_trimmed (sound : c.Sound) (inLine : ¬ (c.peek.1 = '\n' ∨ c.peek.1 = '\r'))
    (inText : c.peek.1 ≠ endOfText) (faces : Faces (first c).1.token.text.toList c')
    (shown : c'.peek.1 = c.peek.1) : Same (first c).1 (first c').1 := by
  have sound' := sound.peek
  have released := sound'.release
  simp only [first, bind, StateT.bind, peek, position, shown] at faces ⊢
  rw [if_neg inText, if_neg inLine] at faces ⊢
  rw [if_neg inText, if_neg inLine]
  by_cases digit : isDecimalDigit c.peek.1 = true
  · rw [if_pos digit] at faces ⊢
    rw [if_pos digit]
    exact (afterDigit_trims c.peek.1).released released faces
  rw [if_neg digit] at faces ⊢
  rw [if_neg digit]
  by_cases letter : isLetter c.peek.1 = true
  · rw [if_pos letter] at faces ⊢
    rw [if_pos letter]
    obtain ⟨us, _, text, _, same⟩ :=
      word_trims c.peek.2.position c'.peek.2.position c.peek.2 sound'
    rw [text, String.toList_ofList, List.nil_append] at faces
    exact same _ faces.peek
  rw [if_neg letter] at faces ⊢
  rw [if_neg letter]
  cases pairing : Pairing.of? c.peek.1 with
  | some p =>
    rw [pairing] at faces
    exact (afterOperator_trims pairing).released released faces
  | none => cases Kind.ofCharacter? c.peek.1 <;> exact ⟨rfl, rfl, rfl, rfl⟩

/-- A token is read again from its own characters, after blanks and before an edge. -/
theorem next_trimmed {bs rest : List Char} {edge : Char} (sound : c.Sound)
    (placed : Placed (afterBlanks c) (next c))
    (noBlank : ∀ x ∈ (next c).1.token.text.toList, isBlank x = false) (sound' : c'.Sound)
    (blanks : ∀ b ∈ bs, isBlank b = true) (isEdge : isEdge edge = true)
    (ahead : c'.ahead = bs ++ ((next c).1.token.text.toList ++ edge :: rest)) :
    Same (next c).1 (next c').1 ∧ (next c').2.Sound ∧ (next c').2.ahead = edge :: rest := by
  obtain ⟨ch, others, held, inText, chars⟩ := placed.first
  have shown : (c.takeRun isBlank).2.peek.1 = ch :=
    Option.some.inj ((Cursor.peek_held _).symm.trans held)
  have inLine : ¬ (ch = '\n' ∨ ch = '\r') := by
    intro is
    have noBreak := placed.inLine
    rw [next_of_break held is, Lexeme.plain, String.toList_ofList] at noBreak
    exact noBreak List.mem_cons_self
  have notBlank : isBlank ch = false := noBlank ch (by rw [chars]; exact List.mem_cons_self)
  have ahead' := ahead
  rw [chars, List.cons_append] at ahead'
  have there : (c'.takeRun isBlank).2.ahead = ch :: (others ++ edge :: rest) :=
    takeBlanks_ahead sound' ahead' blanks notBlank
  obtain ⟨shown', looked⟩ := Cursor.peek_of_ahead there
  have held' : (afterBlanks c').held = some ch := by
    rw [afterBlanks, Cursor.peek_held, shown']
  have faces : Faces (next c).1.token.text.toList (c'.takeRun isBlank).2 :=
    ⟨sound'.takeRun stops_isBlank, edge, rest, isEdge, by rw [there, chars]; rfl⟩
  have same : Same (next c).1 (next c').1 :=
    first_trimmed (sound.takeRun stops_isBlank) (shown ▸ inLine) (shown ▸ inText) faces
      (shown'.trans shown.symm)
  refine ⟨same, next_sound sound', ?_⟩
  rcases next_cases c' with ⟨ch', other, is, _⟩ | ⟨ended, _⟩ | placed'
  · cases held'.symm.trans other
    exact absurd is inLine
  · cases held'.symm.trans ended
    exact absurd rfl inText
  · refine placed'.taken.ahead ?_ (List.cons_ne_nil edge rest)
    rw [← same.text, chars]
    exact looked

/-! ## The canonical text -/

/-- What a token says, wherever it stands, and its fault. -/
def told (x : Lexeme) : (Kind × String × Option Number) × Option Fault := (content x.token, x.fault)

theorem told_of_same {x x' : Lexeme} (h : Same x x') : told x' = told x := by
  rw [told, told, content, content, h.kind, h.text, h.value, h.fault]

/-- Before the end of a complete text something is written. -/
theorem canonical_tokens_cons (complete : c.Complete) (goesOn : c.ahead ≠ []) :
    ∃ ds, canonical (tokens c).1 = ' ' :: ds := by
  have written : (next c).1.Written := by
    cases next_covers complete with
    | nothing ahead => exact absurd ahead goesOn
    | lineBreak _ _ _ token =>
      obtain ⟨_, token⟩ := token
      rw [token]
      exact .inl nofun
    | text _ _ _ placed =>
      exact or_iff_not_imp_left.mpr fun isEnd => placed.exit (Classical.not_not.mp isEnd)
  by_cases isEnd : (next c).1.token.kind = .endOfInput
  · rw [tokens_of_end isEnd]
    exact ⟨_, canonical_cons written _⟩
  · rw [tokens_of_not_end complete.sound isEnd]
    exact ⟨_, canonical_cons written _⟩

theorem isBlank_blank : ∀ x ∈ [' '], isBlank x = true := List.forall_mem_singleton.mpr rfl

/-- The tokens of the canonical text are those that it was written from. -/
theorem tokens_canonical (complete : c.Complete) (sound' : c'.Sound)
    (ahead : c'.ahead = terminated (canonical (tokens c).1)) :
    (tokens c').1.map told = (tokens c).1.map told := by
  have sound := complete.sound
  induction c, sound using tokens_induction generalizing c' with
  | ended c sound isEnd =>
    rw [tokens_of_end isEnd] at ahead ⊢
    cases next_covers complete with
    | nothing _ token =>
      rw [token] at ahead ⊢
      have token' := (next_of_ahead_nil ahead).1
      have isEnd' : (next c').1.token.kind = .endOfInput := by rw [token']; rfl
      rw [tokens_of_end isEnd', token']
      rfl
    | lineBreak _ _ _ token =>
      obtain ⟨_, token⟩ := token
      rw [token] at isEnd
      cases isEnd
    | text _ _ noBlank placed =>
      have exit : (next c).1.token.text = Kind.exitWord := placed.exit isEnd
      have line : terminated (canonical [(next c).1]) =
          [' '] ++ ((next c).1.token.text.toList ++ '\n' :: []) := by
        rw [canonical_cons (.inr exit), exit]
        rfl
      obtain ⟨same, -⟩ := next_trimmed sound placed noBlank sound' isBlank_blank (by decide)
        (ahead.trans line)
      rw [tokens_of_end (same.kind ▸ isEnd), List.map_singleton, List.map_singleton,
        told_of_same same]
  | token c sound notEnd ih =>
    have covers := next_covers complete
    have complete' := covers.complete complete notEnd
    rw [tokens_of_not_end sound notEnd] at ahead ⊢
    rw [canonical_cons (.inl notEnd)] at ahead
    cases covers with
    | nothing _ token => exact absurd (congrArg (·.token.kind) token) notEnd
    | lineBreak _ _ _ token =>
      obtain ⟨_, token⟩ := token
      have line : c'.ahead = [' '] ++ '\n' :: terminated (canonical (tokens (next c).2).1) := by
        have text : (next c).1.token.text.toList = ['\n'] := by
          rw [token, Lexeme.plain, String.toList_ofList]
        rw [ahead, text, List.singleton_append]
        exact terminated_append_lineBreak [' '] _
      have alone : Kind.alone? '\n' = some .lineBreak := rfl
      obtain ⟨⟨_, token'⟩, after, rest⟩ := next_of_alone alone sound' isBlank_blank line
      have notEnd' : (next c').1.token.kind ≠ .endOfInput := by
        rw [token']
        exact Kind.noConfusion
      have same : told (next c').1 = told (next c).1 := by
        rw [token, token']
        rfl
      rw [tokens_of_not_end sound' notEnd', List.map_cons, List.map_cons, ih complete' after rest,
        same]
    | text _ _ noBlank placed goesOn =>
      obtain ⟨ds, others⟩ := canonical_tokens_cons complete' goesOn
      obtain ⟨es, rest⟩ := terminated_cons ' ' ds
      rw [← others] at rest
      have line : c'.ahead = [' '] ++ ((next c).1.token.text.toList ++ ' ' :: es) := by
        rw [ahead, ← rest, ← List.cons_append, terminated_append _ (others ▸ List.cons_ne_nil _ _)]
        rfl
      obtain ⟨same, after, rest'⟩ := next_trimmed sound placed noBlank sound' isBlank_blank
        (by decide) line
      rw [tokens_of_not_end sound' (same.kind ▸ notEnd), List.map_cons, List.map_cons,
        ih complete' after (rest'.trans rest.symm), told_of_same same]

/-- No token has a carriage return in its text: it is a line break, or not of a token. -/
theorem next_noReturn (c : Cursor) : '\r' ∉ (next c).1.token.text.toList := by
  rcases next_cases c with ⟨_, _, _, token⟩ | ⟨_, token⟩ | placed
  · rw [token, Lexeme.plain, String.toList_ofList]
    decide
  · rw [token, Lexeme.plain, String.toList_ofList]
    decide
  · obtain ⟨ch, others, held, _, chars⟩ := placed.first
    have inner := placed.inner
    rw [chars] at inner ⊢
    intro mem
    rcases List.mem_cons.mp mem with rfl | mem
    · have noBreak := placed.inLine
      rw [next_of_break held (.inr rfl), Lexeme.plain, String.toList_ofList] at noBreak
      exact noBreak List.mem_cons_self
    · exact absurd (inner _ mem) (by decide)

theorem canonical_noReturn (sound : c.Sound) : '\r' ∉ canonical (tokens c).1 := by
  have texts : ∀ x ∈ (tokens c).1, '\r' ∉ x.token.text.toList := forall_tokens next_noReturn sound
  intro mem
  obtain ⟨x, written, mem⟩ := List.mem_flatMap.mp mem
  rcases List.mem_cons.mp mem with blank | mem
  · exact absurd blank (by decide)
  · exact texts x ((List.mem_filter.mp written).1) mem

/-- Write the tokens of a program with one blank before each: the text that comes out has the same
tokens, with the same kinds, texts, values and faults in the same order. -/
theorem canonical_same (text : String) (inText : endOfText ∉ text.toList) :
    let xs := (tokens (.ofFeed (.ofString text))).1
    (tokens (.ofFeed (.ofString (String.ofList (canonical xs))))).1.map told = xs.map told := by
  intro xs
  have complete : (Cursor.ofFeed (.ofString text)).Complete := Cursor.complete_ofString inText
  have noReturn : '\r' ∉ (String.ofList (canonical xs)).toList := by
    rw [String.toList_ofList]
    exact canonical_noReturn complete.sound
  refine tokens_canonical complete (Cursor.sound_ofFeed _) ?_
  rw [Cursor.ahead_ofFeed, text_ofString noReturn, String.toList_ofList]

/-- Tokens that end early, with nothing between them and what comes next, and the word for the end
of the text. -/
def crowdedText : String := "08a1.x+0bi&&&\r2i3.+exit 4"

theorem crowdedText_canonical :
    String.ofList (canonical (tokens (.ofFeed (.ofString crowdedText))).1) =
        " 0 8 a1 . x + 0bi && & \n 2i 3. + exit" ∧
      (tokens (.ofFeed (.ofString " 0 8 a1 . x + 0bi && & \n 2i 3. + exit"))).1.map told =
        (tokens (.ofFeed (.ofString crowdedText))).1.map told := by
  have written : String.ofList (canonical (tokens (.ofFeed (.ofString crowdedText))).1) =
      " 0 8 a1 . x + 0bi && & \n 2i 3. + exit" := by decide +kernel
  have same : (tokens (.ofFeed (.ofString (String.ofList
      (canonical (tokens (.ofFeed (.ofString crowdedText))).1))))).1.map told = _ :=
    canonical_same crowdedText (by decide +kernel)
  rw [written] at same
  exact ⟨written, same⟩

end Scan

end ComplexScript.Token
