import ComplexScript.Text.Cursor
set_option autoImplicit false

/-!
# A cursor as a stream of characters

What a cursor will show depends on its feed only through the characters still to come
(`Cursor.upcoming`), however they are cut into lines: `fetch_upcoming` says what a fetch takes from
them.  The line under the cursor matters for one thing, the bound on a run of characters, and it
is a bound that is never reached (`Cursor.Sound`).  So a relation between cursors that looks and
releases preserve is preserved by runs too (`Cursor.Coupling.takeRun`); `Cursor.Abreast` is the one
of equal streams, and `Cursor.Alike` that of equal streams at one place of an entry.
-/

namespace ComplexScript.Text.Cursor

variable {c c' : Cursor} {ch : Char} {p : Char → Bool}

/-! ## The characters to come -/

/-- The characters that have not been under the cursor yet. -/
def upcoming (c : Cursor) : List Char := c.line ++ if c.ended then [] else c.feed.text

/-- The next character, without the rest of the cursor. -/
theorem fetch_upcoming (c : Cursor) :
    (c.upcoming = [] ∧ c.fetch.1 = endOfText ∧ c.fetch.2.upcoming = []) ∨
      c.upcoming = c.fetch.1 :: c.fetch.2.upcoming := by
  obtain ⟨⟨replies, asked⟩, line, held, ended, position, raw, failure⟩ := c
  cases line with
  | cons ch rest => exact .inr rfl
  | nil =>
    cases ended with
    | true => exact .inl ⟨rfl, rfl, rfl⟩
    | false =>
      rcases replies with _ | ⟨_ | cause | _, rest⟩
      · exact .inl ⟨rfl, rfl, rfl⟩
      · next text =>
        refine .inr ?_
        obtain ⟨first, others, chars⟩ := List.exists_cons_of_ne_nil (normalized_ne_nil text.toList)
        simp [upcoming, fetch, Feed.text, joined, chars]
      · exact .inl ⟨rfl, rfl, rfl⟩
      · exact .inl ⟨rfl, rfl, rfl⟩

theorem hold_upcoming (ch : Char) (c : Cursor) : (c.hold ch).upcoming = c.upcoming := by
  unfold hold
  split <;> rfl

theorem hold_line (ch : Char) (c : Cursor) : (c.hold ch).line = c.line := by
  unfold hold
  split <;> rfl

theorem release_upcoming (c : Cursor) : c.release.upcoming = c.upcoming := rfl

/-! ## Soundness of lines -/

/-- The line under a cursor, with the character held from it, ends with a line break; at the end of
the text there is no line. -/
def Sound (c : Cursor) : Prop :=
  ∀ ch, (c.held.toList ++ c.line).getLast? = some ch → ch = '\n' ∨ ch = endOfText

theorem sound_ofFeed (feed : Feed) : (ofFeed feed).Sound := by
  intro ch h
  cases h

theorem Sound.release (h : c.Sound) : c.release.Sound := by
  intro ch last
  refine h ch ?_
  have last : c.line.getLast? = some ch := last
  rw [List.getLast?_append, last]
  rfl

theorem Sound.peek (h : c.Sound) : c.peek.2.Sound := by
  obtain ⟨⟨replies, asked⟩, line, held, ended, position, raw, failure⟩ := c
  cases held with
  | some ch => exact h
  | none =>
    rw [peek_of_released rfl]
    intro ch last
    rw [hold_held, hold_line] at last
    cases line with
    | cons first rest => exact h ch last
    | nil =>
      cases ended with
      | true => exact .inr (Option.some.inj last).symm
      | false =>
        rcases replies with _ | ⟨_ | cause | _, replies⟩
        · exact .inr (Option.some.inj last).symm
        · next text =>
          refine .inl ?_
          obtain ⟨first, others, chars⟩ :=
            List.exists_cons_of_ne_nil (normalized_ne_nil text.toList)
          have lineBreak := getLast?_normalized text.toList
          simp only [fetch, Feed.next, chars, List.headD_cons, List.tail_cons] at last lineBreak
          exact Option.some.inj (last.symm.trans lineBreak)
        · exact .inr (Option.some.inj last).symm
        · exact .inr (Option.some.inj last).symm

/-! ## Relations that looks and releases preserve -/

/-- A relation between cursors that show the same characters: looking and releasing on both sides
relates them again. -/
structure Coupling (R : Cursor → Cursor → Prop) : Prop where
  sound : ∀ {c c' : Cursor}, R c c' → c.Sound ∧ c'.Sound
  peek : ∀ {c c' : Cursor}, R c c' → c.peek.1 = c'.peek.1 ∧ R c.peek.2 c'.peek.2
  release : ∀ {c c' : Cursor}, R c c' → R c.release c'.release

/-- A relation between cursors that show the same characters at the same positions. -/
structure Bisimulation (R : Cursor → Cursor → Prop) : Prop extends Coupling R where
  position : ∀ {c c' : Cursor}, R c c' → c.position = c'.position

/-- A relation between cursors that have also read the same of their entry, and that holds again
where the next entry begins. -/
structure Renewal (R : Cursor → Cursor → Prop) : Prop extends Bisimulation R where
  raw : ∀ {c c' : Cursor}, R c c' → c.raw = c'.raw
  beginEntry : ∀ {c c' : Cursor}, R c c' → R c.beginEntry c'.beginEntry

/-- The characters that no run goes over. -/
def Stops (p : Char → Bool) : Prop := p '\n' = false ∧ p endOfText = false

/-- On a sound line a run that goes on finds another character in the line. -/
theorem line_eq_of_run (stops : Stops p) (sound : c.Sound) (held : c.held = some ch)
    (h : p ch = true) : c.line = c.release.peek.1 :: c.release.peek.2.line := by
  cases line : c.line with
  | cons x xs => rw [peek_of_released (release_held c), hold_line, fetch, release_line, line]
  | nil =>
    have last : (c.held.toList ++ c.line).getLast? = some ch := by
      rw [held, line]
      rfl
    rcases sound ch last with rfl | rfl
    · rw [stops.1] at h
      cases h
    · rw [stops.2] at h
      cases h

/-- Two runs over related cursors take the same characters, if their bounds are those of runs. -/
theorem Coupling.takeWhile {R : Cursor → Cursor → Prop} (coupling : Coupling R)
    (stops : Stops p) (bound bound' : List Char) (related : R c c')
    (here : bound = c.peek.1 :: c.peek.2.line) (there : bound' = c'.peek.1 :: c'.peek.2.line) :
    (takeWhile p bound c).1 = (takeWhile p bound' c').1 ∧
      R (takeWhile p bound c).2 (takeWhile p bound' c').2 := by
  induction bound generalizing bound' c c' with
  | nil => cases here
  | cons first bound ih =>
    obtain ⟨rfl, rfl⟩ := List.cons.inj here
    subst there
    obtain ⟨same, looked⟩ := coupling.peek related
    obtain ⟨sound, sound'⟩ := coupling.sound looked
    rw [Cursor.takeWhile, Cursor.takeWhile, ← same]
    cases goesOn : p c.peek.1 with
    | false => exact ⟨rfl, looked⟩
    | true =>
      obtain ⟨rest, after⟩ := ih _ (coupling.release looked)
        (line_eq_of_run stops sound (peek_held c) goesOn)
        (line_eq_of_run stops sound' (same ▸ peek_held c') goesOn)
      exact ⟨congrArg (c.peek.1 :: ·) rest, after⟩

/-- Runs over related cursors take the same characters. -/
theorem Coupling.takeRun {R : Cursor → Cursor → Prop} (coupling : Coupling R)
    (stops : Stops p) (related : R c c') :
    (takeRun p c).1 = (takeRun p c').1 ∧ R (takeRun p c).2 (takeRun p c').2 := by
  obtain ⟨_, looked⟩ := coupling.peek related
  exact coupling.takeWhile stops _ _ looked (by rw [peek_peek]) (by rw [peek_peek])

/-- A property of sound cursors that looks and releases preserve relates a cursor to itself. -/
theorem bisimulation_of_invariant {I : Cursor → Prop} (sound : ∀ c, I c → c.Sound)
    (peek : ∀ c, I c → I c.peek.2) (release : ∀ c, I c → I c.release) :
    Bisimulation fun c c' => c = c' ∧ I c where
  sound := by
    rintro c _ ⟨rfl, h⟩
    exact ⟨sound c h, sound c h⟩
  position := by
    rintro c _ ⟨rfl, _⟩
    rfl
  peek := by
    rintro c _ ⟨rfl, h⟩
    exact ⟨rfl, rfl, peek c h⟩
  release := by
    rintro c _ ⟨rfl, h⟩
    exact ⟨rfl, release c h⟩

/-! ## Equal streams -/

/-- Cursors with the same character under them and the same characters to come. -/
structure Abreast (c c' : Cursor) : Prop where
  upcoming : c.upcoming = c'.upcoming
  held : c.held = c'.held
  sound : c.Sound
  sound' : c'.Sound

theorem Abreast.fetch (h : Abreast c c') :
    c.fetch.1 = c'.fetch.1 ∧ c.fetch.2.upcoming = c'.fetch.2.upcoming := by
  have upcoming := h.upcoming
  rcases fetch_upcoming c with ⟨none, last, rest⟩ | some <;>
    rcases fetch_upcoming c' with ⟨none', last', rest'⟩ | some'
  · exact ⟨last.trans last'.symm, rest.trans rest'.symm⟩
  · rw [none, some'] at upcoming
    cases upcoming
  · rw [some, none'] at upcoming
    cases upcoming
  · rw [some, some'] at upcoming
    exact List.cons.inj upcoming

theorem Abreast.peek (h : Abreast c c') : c.peek.1 = c'.peek.1 ∧ Abreast c.peek.2 c'.peek.2 := by
  have sounds := And.intro h.sound.peek h.sound'.peek
  cases under : c.held with
  | some ch =>
    rw [peek_of_held under, peek_of_held (h.held ▸ under)]
    exact ⟨rfl, h⟩
  | none =>
    obtain ⟨same, rest⟩ := h.fetch
    rw [peek_of_released under, peek_of_released (h.held ▸ under)] at sounds ⊢
    refine ⟨same, ?_, ?_, sounds.1, sounds.2⟩
    · rw [hold_upcoming, hold_upcoming, rest]
    · rw [hold_held, hold_held, same]

theorem Abreast.release (h : Abreast c c') : Abreast c.release c'.release :=
  ⟨h.upcoming, rfl, h.sound.release, h.sound'.release⟩

theorem coupling_abreast : Coupling Abreast where
  sound h := ⟨h.sound, h.sound'⟩
  peek := Abreast.peek
  release := Abreast.release

/-- Cursors that have also read the same of their entry. -/
structure Alike (c c' : Cursor) : Prop extends Abreast c c' where
  position : c.position = c'.position
  raw : c.raw = c'.raw

theorem Abreast.fetched (h : Abreast c c') : c.fetched = c'.fetched := by
  unfold Cursor.fetched
  rw [h.held, h.fetch.1]

theorem Alike.peek (h : Alike c c') : c.peek.1 = c'.peek.1 ∧ Alike c.peek.2 c'.peek.2 := by
  obtain ⟨same, abreast⟩ := h.toAbreast.peek
  refine ⟨same, abreast, ?_, ?_⟩
  · rw [peek_position, peek_position, h.position, h.fetched]
  · rw [← String.toList_inj, peek_raw, peek_raw, h.raw, h.fetched]

theorem bisimulation_alike : Bisimulation Alike where
  sound h := ⟨h.sound, h.sound'⟩
  position h := h.position
  peek := Alike.peek
  release h := ⟨h.toAbreast.release, h.position, h.raw⟩

theorem renewal_alike : Renewal Alike where
  toBisimulation := bisimulation_alike
  raw h := h.raw
  beginEntry h := ⟨⟨h.upcoming, h.held, h.sound, h.sound'⟩, rfl, rfl⟩

/-! ## The whole text -/

/-- What was read of the entry and what is still to come make up this text, and it goes on to its
last character. -/
structure Splits (whole : List Char) (c : Cursor) : Prop where
  sound : c.Sound
  whole : c.raw.toList ++ c.upcoming = whole
  inText : endOfText ∉ c.upcoming

theorem Splits.peek {whole : List Char} (h : c.Splits whole) : c.peek.2.Splits whole := by
  have text : c.peek.2.raw.toList ++ c.peek.2.upcoming = whole ∧
      endOfText ∉ c.peek.2.upcoming := by
    cases held : c.held with
    | some ch =>
      rw [peek_of_held held]
      exact ⟨h.whole, h.inText⟩
    | none =>
      have read : c.fetched = if c.fetch.1 = endOfText then [] else [c.fetch.1] := by
        rw [fetched, held]
      rw [peek_raw, read, peek_of_released held, hold_upcoming]
      rcases fetch_upcoming c with ⟨nothing, isEnd, rest⟩ | first
      · rw [if_pos isEnd, rest, List.append_nil, ← nothing]
        exact ⟨h.whole, h.inText⟩
      · have inText := h.inText
        rw [first, List.mem_cons, not_or] at inText
        rw [if_neg (Ne.symm inText.1), List.append_assoc, List.singleton_append, ← first]
        exact ⟨h.whole, inText.2⟩
  exact ⟨h.sound.peek, text.1, text.2⟩

/-- Looks and releases leave the text as it is. -/
theorem bisimulation_splits (whole : List Char) :
    Bisimulation fun c c' => c = c' ∧ c.Splits whole :=
  bisimulation_of_invariant (fun _ h => h.sound) (fun _ h => h.peek)
    fun _ h => ⟨h.sound.release, h.whole, h.inText⟩

/-! ## How much is left -/

/-- The number of characters that a reader can still use: those to come, and the one held unless it
stands for the end of the text. -/
def left (c : Cursor) : Nat :=
  c.upcoming.length + if c.held.all (· = endOfText) then 0 else 1

theorem left_release_le (c : Cursor) : c.release.left ≤ c.left := by
  rw [left, left, release_upcoming]
  exact Nat.le_add_right _ _

/-- Using a character of the text leaves one less. -/
theorem left_release_lt (held : c.held = some ch) (inText : ch ≠ endOfText) :
    c.release.left < c.left := by
  simp [left, release_upcoming, held, inText]

theorem left_peek_le (c : Cursor) : c.peek.2.left ≤ c.left := by
  cases held : c.held with
  | some ch =>
    have same : c.peek.2 = c := by rw [peek_of_held held]
    exact Nat.le_of_eq (congrArg left same)
  | none =>
    rw [peek_of_released held, left, left, hold_upcoming, hold_held, held]
    rcases fetch_upcoming c with ⟨none, last, rest⟩ | some
    · simp [none, last, rest]
    · rw [some]
      simp only [Option.all_some, Option.all_none, List.length_cons]
      split <;> simp

/-- Looking and releasing never leave more. -/
theorem bisimulation_left (n : Nat) :
    Bisimulation fun c c' => c = c' ∧ c.Sound ∧ c.left ≤ n :=
  bisimulation_of_invariant (fun _ h => h.1)
    (fun c h => ⟨h.1.peek, Nat.le_trans c.left_peek_le h.2⟩)
    (fun c h => ⟨h.1.release, Nat.le_trans c.left_release_le h.2⟩)

/-- A run that takes a character leaves less. -/
theorem left_takeRun_lt (stops : Stops p) (sound : c.Sound) (held : c.held = some ch)
    (h : p ch = true) : (takeRun p c).2.left < c.left := by
  have inText : ch ≠ endOfText := by
    rintro rfl
    rw [stops.2] at h
    cases h
  have used := left_release_lt held inText
  have line := line_eq_of_run stops sound held h
  obtain ⟨_, _, _, rest⟩ := (bisimulation_left c.release.left).takeWhile stops c.line c.line
    ⟨rfl, sound.release, Nat.le_refl _⟩ line line
  rw [takeRun, peek_of_held held, takeWhile, peek_of_held held, if_pos h]
  exact Nat.lt_of_le_of_lt rest used

/-- The size of a cursor bounds what is left of it. -/
theorem left_le_size (c : Cursor) : c.left ≤ c.size := by
  have feed := c.feed.length_text_le
  have upcoming : c.upcoming.length ≤ c.line.length + c.feed.size := by
    rw [upcoming, List.length_append]
    split
    · simp
    · omega
  rw [left, size]
  split <;> omega

end ComplexScript.Text.Cursor
