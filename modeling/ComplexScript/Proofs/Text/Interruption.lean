import ComplexScript.Proofs.Text.Taking
set_option autoImplicit false

/-!
# A feed that fails and a feed that ends

Two feeds give the same replies up to one, which is a failure of the first feed and the end of the
second.  A cursor sees no more of that than that the text has ended (`Cursor.Parting`): the two show
the same characters at the same places, and differ in the failure that the first one keeps to
itself.
-/

namespace ComplexScript.Text.Cursor

variable {c c' d : Cursor} {ch : Char} {cs : List Char} {feed : Feed} {failure : Option String}

/-! ## Cursors apart from their feeds -/

/-- The cursor, reading from a feed, with the failure it has met in it. -/
def fedBy (c : Cursor) (feed : Feed) (failure : Option String) : Cursor :=
  { c with feed := feed, failure := failure }

theorem hold_fedBy (ch : Char) (c : Cursor) (feed : Feed) (failure : Option String) :
    (c.fedBy feed failure).hold ch = (c.hold ch).fedBy feed failure := by
  unfold hold
  split <;> rfl

theorem fetch_held (c : Cursor) : c.fetch.2.held = c.held := by
  unfold fetch
  split
  · rfl
  · split
    · rfl
    · split <;> rfl

/-- After a fetch the rest of the line still ends with a line break. -/
theorem Sound.fetch (sound : c.Sound) (released : c.held = none) : c.fetch.2.Sound := by
  have looked := sound.peek.release
  have held : c.fetch.2.held = none := (fetch_held c).trans released
  rw [peek_of_released released, Sound, release_held, release_line, hold_line] at looked
  rw [Sound, held]
  exact looked

/-- What is left of a line is read without its feed. -/
theorem fetch_fedBy_of_line (line : c.line = ch :: cs) :
    (c.fedBy feed failure).fetch = (ch, { c with line := cs }.fedBy feed failure) := by
  unfold fetch fedBy
  rw [line]

theorem fetch_fedBy_of_ended (line : c.line = []) (ended : c.ended = true) :
    (c.fedBy feed failure).fetch = (endOfText, c.fedBy feed failure) := by
  unfold fetch fedBy
  rw [line, ended]
  rfl

/-- Once a line is used up the feed is asked for another. -/
theorem fetch_fedBy_of_reply {reply : Reply} {replies : List Reply} {asked : List Bool}
    (line : c.line = []) (goesOn : c.ended = false) :
    (c.fedBy ⟨reply :: replies, asked⟩ failure).fetch =
      let feed : Feed := ⟨replies, (!c.raw.isEmpty) :: asked⟩
      match reply with
      | .line text =>
        ((normalized text.toList).headD '\n',
          { c with line := (normalized text.toList).tail }.fedBy feed failure)
      | .endOfInput => (endOfText, { c with ended := true }.fedBy feed failure)
      | .failure cause => (endOfText, { c with ended := true }.fedBy feed (some cause)) := by
  unfold fetch fedBy
  rw [line, goesOn]
  cases reply <;> rfl

/-! ## Parting feeds -/

/-- The first cursor reads from a feed whose reply after `k` others is a failure, and the second one
from a feed that ends there.  Up to it they are the same but for what comes from there on, and after
it the first one has met the failure. -/
inductive Parting (k : Nat) (cause : String) (rest rest' : List Reply) :
    Cursor → Cursor → Prop where
  | before (c : Cursor) {replies : List Reply} {asked : List Bool} {failure : Option String}
    (sound : c.Sound) (count : asked.length + replies.length = k)
    (unbroken : c.ended = false → failure = none) :
    Parting k cause rest rest' (c.fedBy ⟨replies ++ .failure cause :: rest, asked⟩ failure)
      (c.fedBy ⟨replies ++ .endOfInput :: rest', asked⟩ failure)
  | past (c : Cursor) {asked : List Bool} (sound : c.Sound) (count : asked.length = k + 1)
    (ended : c.ended = true) :
    Parting k cause rest rest' (c.fedBy ⟨rest, asked⟩ (some cause)) (c.fedBy ⟨rest', asked⟩ none)

namespace Parting

variable {k : Nat} {cause : String} {rest rest' : List Reply}

/-- Another question has been asked and answered. -/
theorem asked_one {q : Bool} {asked : List Bool} {reply : Reply} {replies : List Reply}
    (count : asked.length + (reply :: replies).length = k) :
    (q :: asked).length + replies.length = k := by
  simp only [List.length_cons] at count ⊢
  omega

theorem sound (h : Parting k cause rest rest' c c') : c.Sound ∧ c'.Sound := by
  cases h with
  | before _ sound => exact ⟨sound, sound⟩
  | past _ sound => exact ⟨sound, sound⟩

/-- The feed is asked when a line is used up, and if that is where the feeds part, the text has
ended under both cursors. -/
theorem fetch (h : Parting k cause rest rest' c c') (released : c.held = none) :
    c.fetch.1 = c'.fetch.1 ∧ Parting k cause rest rest' c.fetch.2 c'.fetch.2 := by
  have sound := h.sound.1.fetch released
  cases h with
  | @before c replies asked failure before count unbroken =>
    cases line : c.line with
    | cons ch cs =>
      rw [fetch_fedBy_of_line line] at sound ⊢
      rw [fetch_fedBy_of_line line]
      exact ⟨rfl, .before { c with line := cs } sound count unbroken⟩
    | nil =>
      cases ended : c.ended with
      | true =>
        rw [fetch_fedBy_of_ended line ended, fetch_fedBy_of_ended line ended]
        exact ⟨rfl, .before c before count unbroken⟩
      | false =>
        rcases replies with _ | ⟨text | other | _, replies⟩ <;>
          simp only [List.nil_append, List.cons_append, fetch_fedBy_of_reply line ended] at sound ⊢
        · rw [unbroken ended]
          exact ⟨trivial, .past { c with ended := true } sound (congrArg (· + 1) count) rfl⟩
        · exact ⟨trivial, .before { c with line := _ } sound (asked_one count) unbroken⟩
        · exact ⟨trivial, .before { c with ended := true } sound (asked_one count) nofun⟩
        · exact ⟨trivial, .before { c with ended := true } sound (asked_one count) nofun⟩
  | past c before count ended =>
    cases line : c.line with
    | cons ch cs =>
      rw [fetch_fedBy_of_line line] at sound ⊢
      rw [fetch_fedBy_of_line line]
      exact ⟨rfl, .past { c with line := cs } sound count ended⟩
    | nil =>
      rw [fetch_fedBy_of_ended line ended, fetch_fedBy_of_ended line ended]
      exact ⟨rfl, .past c before count ended⟩

theorem hold (h : Parting k cause rest rest' c c') (ch : Char) (sound : (c.hold ch).Sound) :
    Parting k cause rest rest' (c.hold ch) (c'.hold ch) := by
  cases h with
  | before c _ count unbroken =>
    rw [hold_fedBy] at sound ⊢
    rw [hold_fedBy]
    exact .before (c.hold ch) sound count (by rwa [hold_ended])
  | past c _ count ended =>
    rw [hold_fedBy] at sound ⊢
    rw [hold_fedBy]
    exact .past (c.hold ch) sound count (by rwa [hold_ended])

theorem held (h : Parting k cause rest rest' c c') : c.held = c'.held := by
  cases h <;> rfl

theorem peek (h : Parting k cause rest rest' c c') :
    c.peek.1 = c'.peek.1 ∧ Parting k cause rest rest' c.peek.2 c'.peek.2 := by
  have sound := h.sound.1.peek
  cases under : c.held with
  | some ch =>
    rw [peek_of_held under, peek_of_held (h.held ▸ under)]
    exact ⟨rfl, h⟩
  | none =>
    obtain ⟨same, parting⟩ := h.fetch under
    rw [peek_of_released under] at sound ⊢
    rw [peek_of_released (h.held ▸ under), ← same]
    exact ⟨rfl, parting.hold _ sound⟩

end Parting

/-- Looks and releases do not tell from where on the feeds part. -/
theorem renewal_parting (k : Nat) (cause : String) (rest rest' : List Reply) :
    Renewal (Parting k cause rest rest') where
  sound h := h.sound
  peek h := h.peek
  release := by
    rintro _ _ (⟨c, sound, count, unbroken⟩ | ⟨c, sound, count, ended⟩)
    · exact .before c.release sound.release count unbroken
    · exact .past c.release sound.release count ended
  position := by
    rintro _ _ (_ | _) <;> rfl
  raw := by
    rintro _ _ (_ | _) <;> rfl
  beginEntry := by
    rintro _ _ (⟨c, sound, count, unbroken⟩ | ⟨c, sound, count, ended⟩)
    · exact .before c.beginEntry sound count unbroken
    · exact .past c.beginEntry sound count ended

/-- As long as the feeds have not parted, their failures are the same and are forgotten together.
Where they have, the first cursor has the failure in it. -/
theorem Parting.takeFailure {k : Nat} {cause : String} {rest rest' : List Reply}
    (h : Parting k cause rest rest' c c') :
    c.failure = c'.failure ∧ Parting k cause rest rest' c.takeFailure.2 c'.takeFailure.2 ∧
        c.feed.asked.length = c'.feed.asked.length ∧ c.feed.asked.length ≤ k ∨
      c.failure = some cause ∧ c.ended = true ∧ c.feed.asked.length = k + 1 := by
  rcases h with ⟨c, sound, count, _⟩ | ⟨c, _, count, ended⟩
  · exact .inl ⟨rfl, .before c sound count fun _ => rfl, rfl, Nat.le.intro count⟩
  · exact .inr ⟨rfl, ended, count⟩

end ComplexScript.Text.Cursor
