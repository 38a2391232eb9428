import ComplexScript.Proofs.Entry.Independence
import ComplexScript.Proofs.Entry.Listing
import ComplexScript.Proofs.Token.Placing
set_option autoImplicit false

/-!
# Diagnostics point into their own text

A diagnostic is shown on a line of the text of its entry with a caret under a column.  The token it
is about stands there (`Diagnostic.PointsInto`), as long as no entry is given up as nested too deep
(`diagnostics_point`): a token stands at its position when it is read, and it is read in the entry.
An entry that was given up may have looked at a token of the next one, or have left the first
character of one under the cursor.  Such a token is held over: it keeps the position it had in the
entry before, and its text is not in that of the next one (`diagnostics_point_or_heldOver`).
-/

namespace ComplexScript

open ComplexScript.Text

/-! ## What a diagnostic points at -/

namespace Diagnostic

/-- The line of the text that the diagnostic names is there, and the token stands on it from the
column of the diagnostic on. -/
def PointsInto (d : Diagnostic) (text : String) : Prop :=
  ∃ line ∈ line? d.token.position.line text.toList,
    0 < d.token.position.column ∧ d.token.text.toList <+: line.drop (d.token.position.column - 1)

instance (d : Diagnostic) (text : String) : Decidable (d.PointsInto text) :=
  inferInstanceAs (Decidable (∃ line ∈ line? d.token.position.line text.toList,
    0 < d.token.position.column ∧ d.token.text.toList <+: line.drop (d.token.position.column - 1)))

/-- The diagnostic is shown with the caret under the first character of the token. -/
def MarksToken (d : Diagnostic) (text : String) : Prop :=
  ∃ before first after, d.token.text.toList.head? = some first ∧
    d.render text = String.ofList (before ++ first :: after) ++ "\n" ++
      String.ofList (List.replicate before.length ' ') ++ "^\n" ++ d.summary

/-- A diagnostic points at the place where its token stands. -/
theorem pointsInto_of_standsAt {d : Diagnostic} {text : String}
    (h : StandsAt text.toList d.token.position d.token.text.toList) :
    d.PointsInto text ∧ d.MarksToken text := by
  obtain ⟨here, after, line, column⟩ := h.line
  obtain ⟨_, first, rest, _, word, _⟩ := h
  have before : d.token.position.column - 1 = here.length := by omega
  constructor
  · refine ⟨_, line, by omega, ?_⟩
    rw [before, List.append_assoc, List.drop_left]
    exact List.prefix_append _ _
  · refine ⟨here, first, rest ++ after, by rw [word, List.head?_cons], ?_⟩
    rw [render, lineText, line, Option.getD_some, before, word, List.append_assoc, List.cons_append]

end Diagnostic

namespace Entry

open Read (Invariant)

/-! ## Counting characters -/

/-- The position counts the text of the entry, and the character under the cursor belongs to it or
was there before the entry began. -/
structure Counted (old : Option Char) (c : Cursor) : Prop where
  sound : c.Sound
  position : c.position = Position.origin.advanceOver c.raw.toList
  owns : c.Owns ∨ c.raw.toList = [] ∧ c.held = old

theorem bisimulation_counted (old : Option Char) :
    Cursor.Bisimulation fun c c' => c = c' ∧ Counted old c := by
  refine Cursor.bisimulation_of_invariant (fun _ h => h.sound) (fun c h => ?_) fun c h => ?_
  · refine ⟨h.sound.peek, ?_, ?_⟩
    · rw [Cursor.peek_position, Cursor.peek_raw, Position.advanceOver_append, h.position]
    · rcases h.owns with owns | ⟨raw, held⟩
      · exact .inl owns.peek.1
      · cases under : c.held with
        | none => exact .inl (Cursor.peek_of_fresh under).1
        | some ch =>
          rw [Cursor.peek_of_held under]
          exact .inr ⟨raw, held⟩
  · exact ⟨h.sound.release, h.position, .inl (Cursor.owns_of_released (Cursor.release_held c))⟩

/-- Reading adds to the text of an entry. -/
theorem bisimulation_raw (before : List Char) :
    Cursor.Bisimulation fun c c' => c = c' ∧ c.Sound ∧ before <+: c.raw.toList := by
  refine Cursor.bisimulation_of_invariant (fun _ h => h.1) (fun c h => ⟨h.1.peek, ?_⟩)
    fun c h => ⟨h.1.release, h.2⟩
  rw [Cursor.peek_raw]
  exact h.2.trans (List.prefix_append _ _)

/-- The token is not all read in the entry that begins here: it is the one looked at before, or its
first character has been under the cursor before. -/
def Reader.HeldOver (r : Reader) (t : Token) : Prop :=
  r.lookahead = some t ∨
    t.position = .origin ∧ ∃ ch, r.cursor.held = some ch ∧ t.text.toList.head? = some ch

/-- Of a token used in the entry that begins at `start`, this is known of its place in the text read
so far. -/
def Located (start : Reader) (text : List Char) (t : Token) : Prop :=
  t.kind = .lineBreak ∨ t.kind = .endOfInput ∨ StandsAt text t.position t.text.toList ∨
    start.HeldOver t

theorem Located.widen {start : Reader} {text more : List Char} {t : Token}
    (h : Located start text t) (le : text <+: more) : Located start more t := by
  obtain ⟨rest, rfl⟩ := le
  rcases h with isBreak | isEnd | stands | held
  · exact .inl isBreak
  · exact .inr (.inl isEnd)
  · exact .inr (.inr (.inl (stands.append rest)))
  · exact .inr (.inr (.inr held))

/-- The next token is located, and the text read has grown. -/
theorem Counted.next {start : Reader} {c : Cursor} (h : Counted start.cursor.held c) :
    Counted start.cursor.held (Token.Scan.next c).2 ∧
      c.raw.toList <+: (Token.Scan.next c).2.raw.toList ∧
      Located start (Token.Scan.next c).2.raw.toList (Token.Scan.next c).1.token := by
  have bisim := bisimulation_counted start.cursor.held
  obtain ⟨_, _, after⟩ := Token.Scan.next_sim bisim c c ⟨rfl, h⟩
  obtain ⟨_, _, _, grown⟩ := Token.Scan.next_sim (bisimulation_raw c.raw.toList) c c
    ⟨rfl, h.sound, List.prefix_refl _⟩
  refine ⟨after, grown, ?_⟩
  rcases Token.Scan.next_placed c with isBreak | ⟨isEnd, _⟩ | placed
  · exact .inl isBreak
  · exact .inr (.inl isEnd)
  · obtain ⟨_, blanks⟩ := Token.Scan.afterBlanks_related bisim.toCoupling ⟨rfl, h⟩
    refine .inr (.inr ?_)
    rcases blanks.owns with owns | ⟨raw, held⟩
    · exact .inl (placed.stands owns blanks.position)
    · obtain ⟨ch, rest, under, _, text⟩ := placed.first
      refine .inr (.inr ⟨?_, ch, held.symm.trans under, by rw [text, List.head?_cons]⟩)
      rw [placed.position, blanks.position, raw, Position.advanceOver_nil]

/-! ## Located tokens on a path -/

/-- In the entry that begins at `start`, every token that a complaint was or can be made about is
located. -/
structure Pointing (start : Reader) (seen : List Token) (r : Reader) : Prop where
  cursor : Counted start.cursor.held r.cursor
  lookahead : ∀ t, r.lookahead = some t → Located start r.cursor.raw.toList t
  diagnostics : ∀ d ∈ r.diagnostics, Located start r.cursor.raw.toList d.token
  seen : ∀ t ∈ seen, Located start r.cursor.raw.toList t

theorem Pointing.looked {start r : Reader} {seen : List Token} (h : Pointing start seen r) :
    Pointing start (r.token :: seen) r.looked := by
  unfold Reader.looked Reader.token
  cases found : r.lookahead with
  | some t =>
    exact ⟨h.cursor, h.lookahead, h.diagnostics,
      List.forall_mem_cons.mpr ⟨h.lookahead t found, h.seen⟩⟩
  | none =>
    obtain ⟨after, grown, located⟩ := h.cursor.next
    refine ⟨after, ?_, ?_, List.forall_mem_cons.mpr ⟨located, fun t mem => ?_⟩⟩
    · rintro _ ⟨⟩
      exact located
    · intro d mem
      rcases List.mem_append.mp mem with old | new
      · exact (h.diagnostics d old).widen grown
      · obtain ⟨f, _, rfl⟩ := List.mem_map.mp new
        exact located
    · exact (h.seen t mem).widen grown

theorem Pointing.concat {start r : Reader} {seen : List Token} (h : Pointing start seen r)
    {d : Diagnostic} (known : d.token ∈ seen) :
    ∀ d' ∈ r.diagnostics ++ [d], Located start r.cursor.raw.toList d'.token := by
  intro d' mem
  rcases List.mem_append.mp mem with old | new
  · exact h.diagnostics d' old
  · obtain rfl := List.mem_singleton.mp new
    exact h.seen _ known

/-- What is complained about on a path is located. -/
theorem Path.pointing {start r s : Reader} {seen ts : List Token} (h : Path seen r ts s)
    (before : Pointing start seen r) : Pointing start [] s := by
  induction h with
  | stay => exact ⟨before.cursor, before.lookahead, before.diagnostics, nofun⟩
  | look _ ih => exact ih before.looked
  | use _ _ _ ih => exact ih ⟨before.cursor, nofun, before.diagnostics, before.seen⟩
  | report known _ ih =>
    refine ih ?_
    unfold Reader.reported
    split
    · exact before
    · exact ⟨before.cursor, before.lookahead, before.concat known, before.seen⟩
  | giveUp known _ _ ih =>
    exact ih ⟨before.cursor, before.lookahead, before.concat known, before.seen⟩

/-! ## Between entries -/

/-- A terminator that was looked at leaves nothing under the cursor. -/
def Reader.Tidy (r : Reader) : Prop :=
  ∀ t, r.lookahead = some t → t.kind ∈ terminators → r.cursor.held = none

/-- Where an entry begins, nothing of its text has been counted and there are no complaints. -/
structure Reader.Rested (r : Reader) : Prop where
  ready : r.Ready
  sane : r.Sane
  tidy : r.Tidy
  raw : r.cursor.raw = ""
  position : r.cursor.position = .origin
  diagnostics : r.diagnostics = []

theorem rested_ofFeed (feed : Feed) : (Reader.ofFeed feed).Rested where
  ready := ready_ofFeed feed
  sane := nofun
  tidy := nofun
  raw := rfl
  position := rfl
  diagnostics := rfl

theorem Reader.Tidy.looked {r : Reader} (h : r.Tidy) : r.looked.Tidy := by
  unfold Reader.looked
  cases found : r.lookahead with
  | some t => exact h
  | none =>
    rintro _ ⟨⟩ kind
    obtain ⟨_, _, _, released⟩ :=
      (Token.Scan.next_scanned r.cursor).terminator (by simpa [terminators] using kind)
    show (Token.Scan.next r.cursor).2.held = none
    rw [released, Cursor.release_held]

/-- Looking at a terminator leaves nothing under the cursor, and what was given up has a complaint
that says so. -/
structure Reader.Orderly (r : Reader) : Prop where
  sane : r.Sane
  tidy : r.Tidy
  gaveUp : r.abandoned = true → ∃ d ∈ r.diagnostics, d.cause = .nestingTooDeep

theorem invariant_orderly : Invariant Reader.Orderly where
  sane _ h := h.sane
  look r h := by
    obtain ⟨sane, gaveUp⟩ := invariant_candid.look r ⟨h.sane, h.gaveUp⟩
    exact ⟨sane, h.tidy.looked, gaveUp⟩
  use r h := ⟨invariant_sane.use r h.sane, nofun, h.gaveUp⟩
  report r d h := by
    unfold Reader.reported
    split
    · exact h
    · next notYet => exact ⟨h.sane, h.tidy, fun given => absurd given notYet⟩
  giveUp r t h _ := by
    refine ⟨h.sane, h.tidy, fun _ => ⟨⟨t, .nestingTooDeep⟩, ?_, rfl⟩⟩
    exact List.mem_append_right _ (List.mem_singleton_self _)

/-- No token and no character is waiting. -/
def Reader.Settled (r : Reader) : Prop := r.lookahead = none ∧ r.cursor.held = none

theorem Reader.Settled.not_heldOver {r : Reader} (h : r.Settled) (t : Token) : ¬ r.HeldOver t := by
  rintro (found | ⟨_, ch, held, _⟩)
  · cases h.1.symm.trans found
  · cases h.2.symm.trans held

/-- What an entry complains about is located in its text. -/
theorem next_located (limits : Limits) {r : Reader} (rested : r.Rested) :
    ∀ d ∈ (next limits r).1.diagnostics, Located r (next limits r).1.text.toList d.token := by
  obtain ⟨_, s, ts, _, read, path, _⟩ := next_path limits rested.ready
  have raw : r.cursor.raw.toList = [] := by rw [rested.raw]; rfl
  have start : Pointing r [] { r with abandoned := false } := by
    refine ⟨⟨rested.ready.sound, ?_, .inr ⟨raw, rfl⟩⟩, fun t found => ?_, fun d mem => ?_,
      fun t mem => nomatch mem⟩
    · rw [raw, Position.advanceOver_nil, rested.position]
    · exact .inr (.inr (.inr (.inl found)))
    · rw [rested.diagnostics] at mem
      cases mem
  rw [read]
  exact (path.pointing start).diagnostics

/-- An entry that was given up as nested too deep has a complaint that says so. -/
def TooDeep (e : Entry) : Prop := ∃ d ∈ e.diagnostics, d.cause = .nestingTooDeep

/-- An entry that was not given up leaves nothing waiting, unless the text has ended. -/
theorem next_rested (limits : Limits) {r : Reader} (rested : r.Rested) :
    (next limits r).2.Rested ∧
      (TooDeep (next limits r).1 ∨ Ended (next limits r).2 ∨ (next limits r).2.Settled) := by
  obtain ⟨node, s, _, run, read, _, ready, _⟩ := next_path limits rested.ready
  have start : Reader.Orderly { r with abandoned := false } := ⟨rested.sane, rested.tidy, nofun⟩
  have orderly := entry_invariant invariant_orderly start run
  rw [read]
  refine ⟨⟨⟨ready.sound, ready.spelled⟩, orderly.sane, orderly.tidy, rfl, rfl, rfl⟩, ?_⟩
  rcases entry_itemEnd invariant_orderly start run with
    gaveUp | ⟨t, found, isEnd⟩ | ⟨u, h, kind, rfl⟩
  · exact .inl (orderly.gaveUp gaveUp)
  · exact .inr (.inl ⟨⟨t, found, isEnd⟩, rfl, rfl⟩)
  · exact .inr (.inr ⟨rfl, h.tidy.looked u.token u.looked_lookahead kind⟩)

theorem after_rested (limits : Limits) (feed : Feed) (n : Nat) :
    (Reader.after limits n (.ofFeed feed)).Rested := by
  induction n with
  | zero => exact rested_ofFeed feed
  | succ n ih => exact (next_rested limits ih).1

/-- Where an entry begins, nothing is waiting unless the entry before was given up or the text has
ended. -/
theorem after_settled (limits : Limits) (feed : Feed) (n : Nat) :
    (∃ m, n = m + 1 ∧ TooDeep (nth limits m (.ofFeed feed))) ∨
      Ended (Reader.after limits n (.ofFeed feed)) ∨
        (Reader.after limits n (.ofFeed feed)).Settled := by
  cases n with
  | zero => exact .inr (.inr ⟨rfl, rfl⟩)
  | succ n =>
    rcases (next_rested limits (after_rested limits feed n)).2 with tooDeep | rest
    · exact .inl ⟨n, rfl, tooDeep⟩
    · exact .inr rest

/-- A complaint about a token in the text of its entry points at it, unless the token is held over
from an entry given up. -/
theorem points_or_heldOver (limits : Limits) (feed : Feed) (n : Nat) {d : Diagnostic}
    (mem : d ∈ (nth limits n (.ofFeed feed)).diagnostics) (inLine : d.token.kind ≠ .lineBreak)
    (inText : d.token.kind ≠ .endOfInput) :
    StandsAt (nth limits n (.ofFeed feed)).text.toList d.token.position d.token.text.toList ∨
      (∃ m, n = m + 1 ∧ TooDeep (nth limits m (.ofFeed feed))) ∧
        (Reader.after limits n (.ofFeed feed)).HeldOver d.token := by
  rcases next_located limits (after_rested limits feed n) d mem with is | is | stands | heldOver
  · exact absurd is inLine
  · exact absurd is inText
  · exact .inl stands
  · rcases after_settled limits feed n with tooDeep | ended | settled
    · exact .inr ⟨tooDeep, heldOver⟩
    · have none : nth limits n (.ofFeed feed) = endEntry := (next_ended ended).1
      rw [none] at mem
      cases mem
    · exact absurd heldOver (settled.not_heldOver d.token)

/-- As long as no entry is given up as nested too deep, the diagnostics of the next one point into
its own text, and their carets stand under the tokens.  Line breaks, which stand in column 0 of the
line after them, and the end of the text are left out. -/
theorem diagnostics_point (limits : Limits) (feed : Feed) (n : Nat)
    (shallow : ∀ m < n, ∀ d ∈ (nth limits m (.ofFeed feed)).diagnostics,
      d.cause ≠ .nestingTooDeep) :
    ∀ d ∈ (nth limits n (.ofFeed feed)).diagnostics,
      d.token.kind ≠ .lineBreak → d.token.kind ≠ .endOfInput →
        d.PointsInto (nth limits n (.ofFeed feed)).text ∧
          d.MarksToken (nth limits n (.ofFeed feed)).text := by
  intro d mem inLine inText
  rcases points_or_heldOver limits feed n mem inLine inText with stands | ⟨⟨m, before, tooDeep⟩, _⟩
  · exact Diagnostic.pointsInto_of_standsAt stands
  · obtain ⟨d', mem', cause⟩ := tooDeep
    exact absurd cause (shallow m (by omega) d' mem')

/-- A statement with a complaint, and then a conditional over two lines with one about the group at
the start of its second line. -/
def groupAsTarget : Feed := ⟨[.line "a b\n", .line "if(a)\n", .line "\x7b(a)+b=c\x7d\n"], []⟩

/-- The complaint about that group. -/
def groupComplaint : Diagnostic :=
  ⟨⟨.openParenthesis, "(", ⟨1, 2, 7⟩, none⟩, .expected .identifier⟩

theorem groupComplaint_points :
    (nth {} 0 (.ofFeed groupAsTarget)).diagnostics ≠ [] ∧
      groupComplaint.PointsInto (nth {} 1 (.ofFeed groupAsTarget)).text ∧
        groupComplaint.MarksToken (nth {} 1 (.ofFeed groupAsTarget)).text :=
  ⟨by decide +kernel, diagnostics_point {} groupAsTarget 1 (by decide +kernel) groupComplaint
    (by decide +kernel) (by decide) (by decide)⟩

/-- Whatever entries were given up, a diagnostic points into the text of its own entry, unless it is
about a token held over from the entry before, and that one was given up as nested too deep. -/
theorem diagnostics_point_or_heldOver (limits : Limits) (feed : Feed) (n : Nat) :
    ∀ d ∈ (nth limits n (.ofFeed feed)).diagnostics,
      d.token.kind ≠ .lineBreak → d.token.kind ≠ .endOfInput →
        d.PointsInto (nth limits n (.ofFeed feed)).text ∨
          (∃ m, n = m + 1 ∧ TooDeep (nth limits m (.ofFeed feed))) ∧
            (Reader.after limits n (.ofFeed feed)).HeldOver d.token := by
  intro d mem inLine inText
  exact (points_or_heldOver limits feed n mem inLine inText).imp
    (fun stands => (Diagnostic.pointsInto_of_standsAt stands).1) id

/-- A conditional that is given up in its header, and a brace on the next line. -/
def braceAfterTooDeep : Feed := ⟨[.line "if((x))\n", .line "\x7d\n"], []⟩

/-- The complaint about that brace. -/
def braceComplaint : Diagnostic := ⟨⟨.closeBrace, "\x7d", ⟨1, 1, 8⟩, none⟩, .unexpectedToken⟩

theorem braceComplaint_points_or_heldOver :
    braceComplaint.PointsInto (nth ⟨0, 5000⟩ 1 (.ofFeed braceAfterTooDeep)).text ∨
      (∃ m, 1 = m + 1 ∧ TooDeep (nth ⟨0, 5000⟩ m (.ofFeed braceAfterTooDeep))) ∧
        (Reader.after ⟨0, 5000⟩ 1 (.ofFeed braceAfterTooDeep)).HeldOver braceComplaint.token :=
  diagnostics_point_or_heldOver ⟨0, 5000⟩ braceAfterTooDeep 1 braceComplaint (by decide +kernel)
    (by decide) (by decide)

/-- The brace was looked at in the entry given up, so the complaint of the next one does not point
into its text. -/
theorem braceComplaint_points_nowhere :
    TooDeep (nth ⟨0, 5000⟩ 0 (.ofFeed braceAfterTooDeep)) ∧
      ∃ d ∈ (nth ⟨0, 5000⟩ 1 (.ofFeed braceAfterTooDeep)).diagnostics,
        d.token.kind ≠ .lineBreak ∧ d.token.kind ≠ .endOfInput ∧
          ¬ d.PointsInto (nth ⟨0, 5000⟩ 1 (.ofFeed braceAfterTooDeep)).text := by
  have tooDeep : (⟨⟨.identifier, "x", ⟨0, 5, 5⟩, none⟩, .nestingTooDeep⟩ : Diagnostic) ∈
      (nth ⟨0, 5000⟩ 0 (.ofFeed braceAfterTooDeep)).diagnostics := by decide +kernel
  have complaint : braceComplaint ∈
      (nth ⟨0, 5000⟩ 1 (.ofFeed braceAfterTooDeep)).diagnostics := by decide +kernel
  have nowhere :
      ¬ braceComplaint.PointsInto (nth ⟨0, 5000⟩ 1 (.ofFeed braceAfterTooDeep)).text := by
    decide +kernel
  exact ⟨⟨_, tooDeep, rfl⟩, braceComplaint, complaint, nofun, nofun, nowhere⟩

end Entry

end ComplexScript
