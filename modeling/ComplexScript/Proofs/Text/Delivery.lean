import ComplexScript.Proofs.Text.Stream
set_option autoImplicit false

/-!
# What a cursor has taken from a feed

A cursor asks for a line when it wants a character of it, and not before: its own line is what is
left of the last line taken, and a character held from the text stands right before that
(`Cursor.Follows`).  Looks and releases keep this (`Cursor.bisimulation_follows`).
-/

namespace ComplexScript.Text.Cursor

variable {feed : Feed} {c : Cursor} {ch : Char} {cs : List Char}

/-- The replies that the cursor has taken from a feed, each for one question. -/
def Taken (feed : Feed) (lines : List Reply) (c : Cursor) : Prop :=
  feed.replies = lines ++ c.feed.replies ∧
    c.feed.asked.length = feed.asked.length + lines.length

/-- The last reply taken is a line, and `cs` is the end of it. -/
def InLine (feed : Feed) (cs : List Char) (c : Cursor) : Prop :=
  ∃ lines text before, Taken feed (lines ++ [.line text]) c ∧
    normalized text.toList = before ++ cs

/-- The line under the cursor is left of the last line that was taken. -/
structure Delivered (feed : Feed) (c : Cursor) : Prop where
  ended : c.ended = true → c.line = []
  taken : c.ended = false → ∃ lines, Taken feed lines c
  line : c.line ≠ [] → InLine feed c.line c

/-- A cursor that has read from a feed no further than it was moved. -/
structure Follows (feed : Feed) (c : Cursor) : Prop extends Delivered feed c where
  sound : c.Sound
  held : ∀ ch, c.held = some ch → ch ≠ endOfText →
    c.ended = false ∧ c.raw.toList.getLast? = some ch ∧ InLine feed (ch :: c.line) c

theorem InLine.tail (h : InLine feed (ch :: cs) c) : InLine feed cs c := by
  obtain ⟨lines, text, before, taken, chars⟩ := h
  refine ⟨lines, text, before ++ [ch], taken, ?_⟩
  rw [chars, List.append_assoc, List.singleton_append]

theorem delivered_of_ended (ended : c.ended = true) (noLine : c.line = []) :
    Delivered feed c where
  ended _ := noLine
  taken goesOn := absurd (goesOn.symm.trans ended) Bool.false_ne_true
  line line := absurd noLine line

theorem InLine.delivered (h : InLine feed (ch :: c.line) c) (goesOn : c.ended = false) :
    Delivered feed c where
  ended ended := absurd (goesOn.symm.trans ended) Bool.false_ne_true
  taken _ := by
    obtain ⟨lines, text, before, taken, chars⟩ := h
    exact ⟨_, taken⟩
  line _ := h.tail

/-- A fetch takes a line if the last one is used up, and its first character. -/
theorem Delivered.fetch (h : Delivered feed c) :
    Delivered feed c.fetch.2 ∧
      (c.fetch.1 ≠ endOfText → c.fetch.2.ended = false ∧
        InLine feed (c.fetch.1 :: c.fetch.2.line) c.fetch.2) := by
  obtain ⟨⟨replies, asked⟩, line, held, ended, position, raw, failure⟩ := c
  obtain ⟨noLine, taken, inLine⟩ := h
  cases line with
  | cons first rest =>
    have here : InLine feed (first :: rest) _ := inLine (List.cons_ne_nil first rest)
    have goesOn : ended = false := by
      cases ended with
      | false => rfl
      | true => cases noLine rfl
    exact ⟨here.delivered goesOn, fun _ => ⟨goesOn, here⟩⟩
  | nil =>
    cases ended with
    | true => exact ⟨delivered_of_ended rfl rfl, fun inText => absurd rfl inText⟩
    | false =>
      obtain ⟨lines, same, questions⟩ := taken rfl
      rcases replies with _ | ⟨text | cause | _, rest⟩
      · exact ⟨delivered_of_ended rfl rfl, fun inText => absurd rfl inText⟩
      · obtain ⟨first, others, chars⟩ := List.exists_cons_of_ne_nil (normalized_ne_nil text.toList)
        have replies : feed.replies = lines ++ [.line text] ++ rest := by
          rw [List.append_assoc]
          exact same
        have question : ∀ q : Bool,
            (q :: asked).length = feed.asked.length + (lines ++ [Reply.line text]).length := by
          intro q
          rw [List.length_append, ← Nat.add_assoc, ← questions]
          rfl
        have here : InLine feed (first :: others)
            ⟨⟨rest, (!raw.isEmpty) :: asked⟩, others, held, false, position, raw, failure⟩ :=
          ⟨lines, text, [], ⟨replies, question _⟩, chars⟩
        simp only [Cursor.fetch, Feed.next, chars, List.headD_cons, List.tail_cons]
        exact ⟨here.delivered rfl, fun _ => ⟨rfl, here⟩⟩
      · exact ⟨delivered_of_ended rfl rfl, fun inText => absurd rfl inText⟩
      · exact ⟨delivered_of_ended rfl rfl, fun inText => absurd rfl inText⟩

theorem follows_ofFeed (feed : Feed) : (ofFeed feed).Follows feed where
  ended := nofun
  taken _ := ⟨[], rfl, rfl⟩
  line h := absurd rfl h
  sound := sound_ofFeed feed
  held _ h := nomatch h

theorem Follows.release (h : c.Follows feed) : c.release.Follows feed where
  ended := h.ended
  taken := h.taken
  line := h.line
  sound := h.sound.release
  held _ none := nomatch none

/-- Between entries nothing is held, so what a cursor has taken does not depend on the text of the
last entry. -/
theorem Follows.beginEntry (h : c.Follows feed) (released : c.held = none) :
    c.beginEntry.Follows feed where
  ended := h.ended
  taken := h.taken
  line := h.line
  sound := h.sound
  held _ held := nomatch released.symm.trans held

theorem Follows.peek (h : c.Follows feed) : c.peek.2.Follows feed := by
  cases held : c.held with
  | some ch =>
    rw [peek_of_held held]
    exact h
  | none =>
    have sound := h.sound.peek
    obtain ⟨⟨ended, taken, line⟩, last⟩ := h.toDelivered.fetch
    rw [peek_of_released held] at sound ⊢
    generalize c.fetch.1 = ch at *
    generalize c.fetch.2 = d at *
    unfold hold at *
    split at sound
    · next isEnd =>
      rw [if_pos isEnd]
      refine ⟨⟨ended, taken, line⟩, sound, ?_⟩
      intro x same inText
      exact absurd isEnd (Option.some.inj same ▸ inText)
    · next inText =>
      rw [if_neg inText]
      refine ⟨⟨ended, taken, line⟩, sound, ?_⟩
      intro x same _
      obtain ⟨goesOn, inLine⟩ := last inText
      cases same
      refine ⟨goesOn, ?_, inLine⟩
      simp

/-- Looks and releases go on from where the cursor stands in its feed. -/
theorem bisimulation_follows (feed : Feed) : Bisimulation fun c c' => c = c' ∧ c.Follows feed :=
  bisimulation_of_invariant (fun _ h => h.sound) (fun _ h => h.peek) (fun _ h => h.release)

/-- The characters still to come can be delivered by a feed of their own.  A carriage return
before the final line break would be dropped, so one is added there. -/
theorem Follows.exists_text_eq (h : c.Follows feed) :
    ∃ rest : Feed, rest.text = c.line ++ c.feed.text := by
  by_cases noLine : c.line = []
  · exact ⟨c.feed, by rw [noLine, List.nil_append]⟩
  · obtain ⟨_, text, before, _, chars⟩ := h.line noLine
    have last := getLast?_normalized text.toList
    rw [chars, List.getLast?_append, List.getLast?_eq_some_getLast noLine, Option.some_or,
      ← List.getLast?_eq_some_getLast noLine] at last
    obtain ⟨start, line⟩ := List.getLast?_eq_some_iff.mp last
    have dropped : normalized (start ++ ['\r', '\n']) = c.line := by
      rw [normalized, line]
      simp
    refine ⟨⟨.line (String.ofList (start ++ ['\r', '\n'])) :: c.feed.replies, []⟩, ?_⟩
    rw [Feed.text, joined, String.toList_ofList, dropped]
    rfl

end ComplexScript.Text.Cursor
