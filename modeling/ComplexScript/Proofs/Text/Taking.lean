import ComplexScript.Proofs.Text.Stream
set_option autoImplicit false

/-!
# What is taken from a text

A cursor goes from one place to another by looks and releases; the characters it releases on the way
are those it has taken (`Cursor.Takes`).  Seen from behind, they are added to the characters of the
entry that have been used (`Takes.used`); seen from ahead, they are the first of those still to be
used (`Takes.ahead`).
-/

namespace ComplexScript.Text.Cursor

variable {c d e : Cursor} {ch : Char} {cs ds : List Char} {p : Char → Bool}

/-- Looks and releases take the cursor from one place to another, and these are the characters
released on the way. -/
inductive Takes : Cursor → List Char → Cursor → Prop where
  | nothing (c : Cursor) : Takes c [] c
  | peek {c d : Cursor} {cs : List Char} (rest : Takes c.peek.2 cs d) : Takes c cs d
  | release {c d : Cursor} {ch : Char} {cs : List Char} (held : c.held = some ch)
    (inText : ch ≠ endOfText) (rest : Takes c.release cs d) : Takes c (ch :: cs) d

namespace Takes

theorem trans (h : Takes c cs d) (next : Takes d ds e) : Takes c (cs ++ ds) e := by
  induction h with
  | nothing => exact next
  | peek _ ih => exact .peek (ih next)
  | release held inText _ ih => exact .release held inText (ih next)

theorem looked (c : Cursor) : Takes c [] c.peek.2 := .peek (.nothing _)

/-- The end of the text is never taken. -/
theorem inText (h : Takes c cs d) : endOfText ∉ cs := by
  induction h with
  | nothing => exact List.not_mem_nil
  | peek _ ih => exact ih
  | release _ inText _ ih => exact List.not_mem_cons_of_ne_of_not_mem (Ne.symm inText) ih

end Takes

/-- A run takes the characters it gives. -/
theorem takes_takeWhile (notEnd : p endOfText = false) (bound : List Char) (c : Cursor) :
    Takes c (takeWhile p bound c).1 (takeWhile p bound c).2 := by
  induction bound generalizing c with
  | nil => exact .nothing c
  | cons _ _ ih =>
    rw [takeWhile]
    split
    · next goesOn =>
      have inText : c.peek.1 ≠ endOfText := by
        intro isEnd
        rw [isEnd, notEnd] at goesOn
        cases goesOn
      exact .peek (.release (peek_held c) inText (ih _))
    · exact .looked c

theorem takes_takeRun (notEnd : p endOfText = false) (c : Cursor) :
    Takes c (takeRun p c).1 (takeRun p c).2 :=
  .peek (takes_takeWhile notEnd _ _)

/-- A run takes nothing if the character shown is none of its own. -/
theorem takeRun_of_not (h : p c.peek.1 = false) : c.takeRun p = ([], c.peek.2) := by
  rw [takeRun, takeWhile, peek_peek, h, if_neg Bool.false_ne_true]

/-! ## Behind the cursor -/

/-- The characters of the entry that have been used: all that was read but the one held. -/
def used (c : Cursor) : List Char :=
  if c.held.all (· = endOfText) then c.raw.toList else c.raw.toList.dropLast

/-- The character under the cursor is the last one read of the entry. -/
def Owns (c : Cursor) : Prop :=
  ∀ ch, c.held = some ch → ch ≠ endOfText → c.raw.toList.getLast? = some ch

theorem owns_of_released (held : c.held = none) : c.Owns :=
  fun _ same => nomatch held.symm.trans same

theorem used_of_released (held : c.held = none) : c.used = c.raw.toList := by
  rw [used, held]
  rfl

theorem used_prefix_raw (c : Cursor) : c.used <+: c.raw.toList := by
  unfold used
  split
  · exact List.prefix_refl _
  · exact List.dropLast_prefix _

/-- With the character held, what was used is all that was read. -/
theorem Owns.used_concat (h : c.Owns) (held : c.held = some ch) (inText : ch ≠ endOfText) :
    c.used ++ [ch] = c.raw.toList := by
  obtain ⟨before, raw⟩ := List.getLast?_eq_some_iff.mp (h ch held inText)
  rw [used, held, Option.all_some, decide_eq_false inText, if_neg Bool.false_ne_true, raw,
    List.dropLast_concat]

/-- A character fetched is the last one read, and it is not used yet. -/
theorem peek_of_fresh (held : c.held = none) : c.peek.2.Owns ∧ c.peek.2.used = c.used := by
  rw [peek_of_released held, used_of_released held]
  by_cases isEnd : c.fetch.1 = endOfText
  · have end' : c.fetch.2.hold c.fetch.1 = { c.fetch.2 with held := some c.fetch.1 } := by
      rw [hold, if_pos isEnd]
    rw [end']
    refine ⟨fun ch same inText => absurd isEnd (Option.some.inj same ▸ inText), ?_⟩
    simp [used, isEnd]
  · have raw : (c.fetch.2.hold c.fetch.1).raw.toList = c.raw.toList ++ [c.fetch.1] := by
      simp [hold, isEnd]
    constructor
    · intro ch same _
      rw [hold_held] at same
      cases same
      rw [raw, List.getLast?_concat]
    · rw [used, hold_held, Option.all_some, decide_eq_false isEnd, if_neg Bool.false_ne_true, raw,
        List.dropLast_concat]

theorem Owns.peek (h : c.Owns) : c.peek.2.Owns ∧ c.peek.2.used = c.used := by
  cases held : c.held with
  | none => exact peek_of_fresh held
  | some ch =>
    rw [peek_of_held held]
    exact ⟨h, rfl⟩

/-- What is taken joins the characters used. -/
theorem Takes.used (taken : Takes c cs d) (owns : c.Owns) : d.Owns ∧ d.used = c.used ++ cs := by
  induction taken with
  | nothing c => exact ⟨owns, (List.append_nil _).symm⟩
  | peek _ ih =>
    obtain ⟨owns, same⟩ := owns.peek
    rw [← same]
    exact ih owns
  | @release c d ch cs held inText _ ih =>
    obtain ⟨owns', same⟩ := ih (owns_of_released (release_held c))
    refine ⟨owns', ?_⟩
    rw [same, used_of_released (release_held c), release_raw, ← owns.used_concat held inText,
      List.append_assoc, List.singleton_append]

/-! ## Ahead of the cursor -/

/-- The characters still to be used. -/
def ahead (c : Cursor) : List Char := c.held.toList ++ c.upcoming

theorem ahead_of_held (held : c.held = some ch) : c.ahead = ch :: c.release.ahead := by
  rw [ahead, held]
  rfl

theorem ahead_of_released (held : c.held = none) : c.ahead = c.upcoming := by
  rw [ahead, held]
  rfl

/-- A look shows the first of the characters to be used, and uses none. -/
theorem peek_of_ahead (h : c.ahead = ch :: cs) : c.peek.1 = ch ∧ c.peek.2.ahead = ch :: cs := by
  cases held : c.held with
  | some x =>
    rw [peek_of_held held]
    have same := (ahead_of_held held).symm.trans h
    exact ⟨(List.cons.inj same).1, h⟩
  | none =>
    have upcoming : c.upcoming = ch :: cs := (ahead_of_released held).symm.trans h
    rcases fetch_upcoming c with ⟨nothing, _⟩ | first
    · rw [nothing] at upcoming
      cases upcoming
    · rw [first] at upcoming
      obtain ⟨rfl, rfl⟩ := List.cons.inj upcoming
      rw [peek_of_released held, ahead, hold_held, hold_upcoming]
      exact ⟨rfl, rfl⟩

theorem release_of_ahead (held : c.held = some ch) (h : c.ahead = ch :: cs) :
    c.release.ahead = cs :=
  (List.cons.inj ((ahead_of_held held).symm.trans h)).2

/-- Once it has been shown, the first of the characters to be used is used. -/
theorem peek_release_of_ahead (h : c.ahead = ch :: cs) : c.peek.2.release.ahead = cs := by
  obtain ⟨shown, looked⟩ := peek_of_ahead h
  exact release_of_ahead (by rw [peek_held, shown]) looked

/-- What is taken is the first of the characters to be used, as long as there are any. -/
theorem Takes.ahead (taken : Takes c cs d) {ds : List Char} (same : c.ahead = cs ++ ds)
    (goesOn : ds ≠ []) : d.ahead = ds := by
  induction taken with
  | nothing c => exact same
  | @peek c d cs _ ih =>
    obtain ⟨first, rest, cons⟩ : ∃ first rest, cs ++ ds = first :: rest :=
      List.exists_cons_of_ne_nil (List.append_ne_nil_of_right_ne_nil cs goesOn)
    refine ih ?_
    rw [cons] at same ⊢
    exact (peek_of_ahead same).2
  | release held _ _ ih =>
    rw [ahead_of_held held] at same
    exact ih (List.cons.inj same).2

/-- At the end of the text a look shows that. -/
theorem peek_of_ahead_nil (h : c.ahead = []) : c.peek.1 = endOfText := by
  obtain ⟨held, upcoming⟩ := List.append_eq_nil_iff.mp h
  have released : c.held = none := Option.toList_eq_nil_iff.mp held
  rw [peek_of_released released]
  rcases fetch_upcoming c with ⟨_, isEnd, _⟩ | first
  · exact isEnd
  · rw [upcoming] at first
    cases first

/-- What is taken starts with the character that a look shows. -/
theorem Takes.head (taken : Takes c (ch :: cs) d) : c.peek.1 = ch := by
  generalize same : ch :: cs = ds at taken
  induction taken with
  | nothing => cases same
  | @peek c _ _ _ ih =>
    rw [← ih same, peek_peek]
  | release held _ _ _ =>
    cases same
    rw [peek_of_held held]

/-- Nothing is taken but the first of the characters to be used. -/
theorem Takes.prefix_ahead (taken : Takes c cs d) : cs <+: c.ahead := by
  induction taken with
  | nothing => exact List.nil_prefix
  | @peek c d cs rest ih =>
    cases ahead : c.ahead with
    | nil =>
      cases cs with
      | nil => exact List.nil_prefix
      | cons ch cs =>
        -- a look at the end of the text shows what is never taken
        have shown : c.peek.1 = ch := by rw [← rest.head, peek_peek]
        have inText := rest.inText
        rw [← shown, peek_of_ahead_nil ahead] at inText
        exact absurd List.mem_cons_self inText
    | cons ch cs => exact (peek_of_ahead ahead).2 ▸ ih
  | release held _ _ ih =>
    rw [ahead_of_held held]
    exact (List.prefix_cons_inj _).mpr ih

theorem takeWhile_ahead (stops : Stops p) (sound : c.Sound) (bound : List Char)
    (enough : bound = c.peek.1 :: c.peek.2.line) :
    (takeWhile p bound c).1 = c.ahead.takeWhile p := by
  induction bound generalizing c with
  | nil => cases enough
  | cons first bound ih =>
    obtain ⟨rfl, rfl⟩ := List.cons.inj enough
    rw [takeWhile]
    cases ahead : c.ahead with
    | nil =>
      rw [peek_of_ahead_nil ahead, stops.2]
      rfl
    | cons ch cs =>
      obtain ⟨shown, rest⟩ := peek_of_ahead ahead
      have held : c.peek.2.held = some ch := by rw [peek_held, shown]
      have behind : c.peek.2.release.ahead = cs := release_of_ahead held rest
      rw [shown, List.takeWhile_cons]
      cases goesOn : p ch with
      | false => rfl
      | true =>
        have run := ih sound.peek.release (line_eq_of_run stops sound.peek held goesOn)
        rw [behind] at run
        exact congrArg (ch :: ·) run

/-- A run gives the characters ahead as long as they belong to it. -/
theorem takeRun_ahead (stops : Stops p) (sound : c.Sound) :
    (takeRun p c).1 = c.ahead.takeWhile p := by
  rw [takeRun, takeWhile_ahead stops sound.peek _ (by rw [peek_peek])]
  cases ahead : c.ahead with
  | nil =>
    rw [ahead_of_held (peek_held c), peek_of_ahead_nil ahead, List.takeWhile_cons, stops.2]
    rfl
  | cons ch cs => rw [(peek_of_ahead ahead).2]

theorem takeWhile_ends (stops : Stops p) (sound : c.Sound) (bound : List Char)
    (enough : bound = c.peek.1 :: c.peek.2.line) : p (takeWhile p bound c).2.peek.1 = false := by
  induction bound generalizing c with
  | nil => cases enough
  | cons first bound ih =>
    obtain ⟨rfl, rfl⟩ := List.cons.inj enough
    rw [takeWhile]
    cases goesOn : p c.peek.1 with
    | false =>
      show p c.peek.2.peek.1 = false
      rw [peek_peek, goesOn]
    | true =>
      exact ih sound.peek.release (line_eq_of_run stops sound.peek (peek_held c) goesOn)

/-- After a run a look shows a character that does not belong to it. -/
theorem takeRun_ends (stops : Stops p) (sound : c.Sound) :
    p (takeRun p c).2.peek.1 = false :=
  takeWhile_ends stops sound.peek _ (by rw [peek_peek])

/-- A run takes the characters that belong to it, up to the first one that does not. -/
theorem takeRun_of_ahead (stops : Stops p) (sound : c.Sound) (ahead : c.ahead = cs ++ ch :: ds)
    (inRun : ∀ x ∈ cs, p x = true) (ends : p ch = false) :
    (takeRun p c).1 = cs ∧ (takeRun p c).2.ahead = ch :: ds := by
  have taken : (takeRun p c).1 = cs := by
    rw [takeRun_ahead stops sound, ahead, List.takeWhile_append_of_pos inRun, List.takeWhile_cons,
      ends]
    exact List.append_nil cs
  refine ⟨taken, (takes_takeRun stops.2 c).ahead ?_ (List.cons_ne_nil ch ds)⟩
  rw [taken, ahead]

/-- Looks and releases keep the line sound. -/
theorem bisimulation_sound : Bisimulation fun c c' => c = c' ∧ c.Sound :=
  bisimulation_of_invariant (fun _ h => h) (fun _ h => h.peek) fun _ h => h.release

theorem Sound.takeRun (stops : Stops p) (sound : c.Sound) : (takeRun p c).2.Sound :=
  (bisimulation_sound.takeRun stops ⟨rfl, sound⟩).2.2

/-! ## Where the feed ends -/

/-- Once the feed has ended, the end of the text is under the cursor. -/
def Halts (c : Cursor) : Prop := c.ended = true → c.held = some endOfText

theorem peek_ended_of_held (held : c.held = some ch) : c.peek.2.ended = c.ended := by
  rw [peek_of_held held]

theorem hold_ended (ch : Char) (c : Cursor) : (c.hold ch).ended = c.ended := by
  unfold hold
  split <;> rfl

/-- What is left of a line is looked at without the feed. -/
theorem peek_ended_of_line (released : c.held = none) (line : c.line ≠ []) :
    c.peek.2.ended = c.ended := by
  rw [peek_of_released released, hold_ended, fetch]
  split
  · rfl
  · next nothing => exact absurd nothing line

/-- A feed that ends shows the end of the text. -/
theorem fetch_of_ends (goesOn : c.ended = false) (ends : c.fetch.2.ended = true) :
    c.fetch.1 = endOfText := by
  unfold fetch at ends ⊢
  split
  · next line =>
    rw [line] at ends
    cases goesOn.symm.trans ends
  · next nothing =>
    rw [nothing, goesOn] at ends
    rw [goesOn]
    simp only [Bool.false_eq_true, if_false] at ends ⊢
    split at ends
    · cases ends
    · rfl
    · rfl

theorem Halts.peek (h : c.Halts) : c.peek.2.Halts := by
  intro ended
  cases held : c.held with
  | some ch =>
    rw [peek_of_held held] at ended ⊢
    exact h ended
  | none =>
    have goesOn : c.ended = false := by
      rw [← Bool.not_eq_true]
      exact fun ended => nomatch held.symm.trans (h ended)
    rw [peek_of_released held, hold_ended] at ended
    rw [peek_of_released held, hold_held, fetch_of_ends goesOn ended]

/-- The end of the text is not taken, and stays under the cursor. -/
theorem Takes.halts (h : Takes c cs d) (before : c.Halts) : d.Halts := by
  induction h with
  | nothing => exact before
  | peek _ ih => exact ih before.peek
  | release held inText _ ih =>
    refine ih fun ended => ?_
    exact absurd (Option.some.inj (held.symm.trans (before ended))) inText

/-- Within a line the feed is not asked: it ends at the first look at a new line, or not at all. -/
theorem Takes.ended_eq (h : Takes c cs d) (sound : c.Sound) (inLine : '\n' ∉ cs)
    (inside : c.held = none → c.line ≠ []) : d.ended = c.ended := by
  induction h with
  | nothing => rfl
  | @peek c _ _ _ ih =>
    have looked : c.peek.2.held ≠ none := by
      rw [peek_held]
      exact Option.some_ne_none _
    rw [ih sound.peek inLine fun released => absurd released looked]
    cases held : c.held with
    | some ch => exact peek_ended_of_held held
    | none => exact peek_ended_of_line held (inside held)
  | @release c _ ch _ held inText _ ih =>
    obtain ⟨notBreak, inLine⟩ := not_or.mp (mt List.mem_cons.mpr inLine)
    refine ih sound.release inLine fun _ nothing => ?_
    have nothing : c.line = [] := nothing
    have last : (c.held.toList ++ c.line).getLast? = some ch := by
      rw [held, nothing]
      rfl
    exact (sound ch last).elim (Ne.symm notBreak) inText

end ComplexScript.Text.Cursor
