import ComplexScript.Proofs.Text.Taking
set_option autoImplicit false

/-!
# Stored texts

A reader gets a stored text as it stands, with a line break added if the last line lacks one
(`text_ofString`); only carriage returns may be dropped.  Whatever is in the text, what a cursor on
it has ahead ends with a line break (`Cursor.complete_ofString`), so no token but the line break
itself is the last thing before the end.
-/

namespace ComplexScript.Text

/-! ## The characters of a stored text -/

/-- A text with a line break at its end; an empty text has no line that could lack one. -/
def terminated (cs : List Char) : List Char :=
  if cs = [] ∨ cs.getLast? = some '\n' then cs else cs ++ ['\n']

@[simp] theorem terminated_nil : terminated [] = [] := rfl

/-- Only the last line can lack a line break. -/
theorem terminated_append (cs : List Char) {ds : List Char} (some' : ds ≠ []) :
    terminated (cs ++ ds) = cs ++ terminated ds := by
  obtain ⟨d, ds, rfl⟩ := List.exists_cons_of_ne_nil some'
  have last : (cs ++ d :: ds).getLast? = (d :: ds).getLast? := by
    rw [List.getLast?_append, List.getLast?_cons, Option.some_or]
  rw [terminated, terminated, last]
  by_cases ends : (d :: ds).getLast? = some '\n'
  · rw [if_pos (.inr ends), if_pos (.inr ends)]
  · rw [if_neg (not_or.mpr ⟨List.append_ne_nil_of_right_ne_nil cs some', ends⟩),
      if_neg (not_or.mpr ⟨some', ends⟩), List.append_assoc]

theorem terminated_append_lineBreak (cs ds : List Char) :
    terminated (cs ++ '\n' :: ds) = cs ++ '\n' :: terminated ds := by
  rw [terminated_append cs (List.cons_ne_nil _ _)]
  cases ds with
  | nil => rfl
  | cons d ds => exact congrArg (cs ++ ·) (terminated_append ['\n'] (List.cons_ne_nil d ds))

theorem terminated_cons (d : Char) (ds : List Char) : ∃ es, terminated (d :: ds) = d :: es := by
  unfold terminated
  split
  · exact ⟨ds, rfl⟩
  · exact ⟨ds ++ ['\n'], rfl⟩

/-- Normalizing adds a line break that is missing, and does nothing else without a carriage
return. -/
theorem normalized_of_noReturn {cs : List Char} (noReturn : '\r' ∉ cs) (some' : cs ≠ []) :
    normalized cs = terminated cs := by
  have last : cs.getLast? = cs.reverse.head? := List.head?_reverse.symm
  unfold normalized terminated
  rw [last]
  split
  · next reversed =>
    have mem : '\r' ∈ cs.reverse := by
      rw [reversed]
      exact List.mem_cons_of_mem _ List.mem_cons_self
    exact absurd (List.mem_reverse.mp mem) noReturn
  · next reversed => rw [if_pos (.inr (by rw [reversed]; rfl))]
  · next _ other =>
    rw [if_neg]
    rintro (nothing | lineBreak)
    · exact some' nothing
    · obtain ⟨rest, reversed⟩ := List.head?_eq_some_iff.mp lineBreak
      exact other rest reversed

/-- The lines that a text is cut into are normalized one by one. -/
theorem joined_lines (lines : List (List Char)) :
    joined (lines.map fun cs => .line (String.ofList cs)) = lines.flatMap normalized := by
  induction lines with
  | nil => rfl
  | cons cs lines ih =>
    rw [List.map_cons, joined, String.toList_ofList, ih, List.flatMap_cons]

theorem normalized_cutAfter_go (cs piece : List Char) (pieces : List (List Char))
    (noReturn : '\r' ∉ piece.reverse ++ cs) :
    (cutAfter.go (· = '\n') cs piece pieces).flatMap normalized =
      pieces.reverse.flatMap normalized ++ terminated (piece.reverse ++ cs) := by
  induction cs generalizing piece pieces with
  | nil =>
    cases piece with
    | nil => simp [cutAfter.go]
    | cons ch piece =>
      rw [List.append_nil] at noReturn
      have normal := normalized_of_noReturn noReturn (by simp)
      show ((ch :: piece).reverse :: pieces).reverse.flatMap normalized = _
      rw [List.append_nil, ← normal]
      generalize (ch :: piece).reverse = line
      simp
  | cons ch cs ih =>
    rw [cutAfter.go]
    by_cases ends : ch = '\n'
    · subst ends
      have noReturns := mt (List.mem_append (s := piece.reverse)).mpr noReturn
      simp only [List.mem_cons, not_or] at noReturns
      obtain ⟨inPiece, -, inRest⟩ := noReturns
      have normal : normalized ('\n' :: piece).reverse = piece.reverse ++ ['\n'] := by
        rw [List.reverse_cons, normalized_of_noReturn (by simp [inPiece]) (by simp),
          terminated_append_lineBreak, terminated_nil]
      rw [if_pos (by rfl), ih [] _ (by simpa using inRest), List.reverse_cons,
        List.flatMap_append, List.flatMap_singleton, normal, terminated_append_lineBreak]
      simp
    · have same : (ch :: piece).reverse ++ cs = piece.reverse ++ ch :: cs := by simp
      rw [if_neg (by simpa using ends), ih _ _ (by rw [same]; exact noReturn), same]

/-- The lines of a text give the text, with a line break at its end. -/
theorem text_ofString {text : String} (noReturn : '\r' ∉ text.toList) :
    (Feed.ofString text).text = terminated text.toList := by
  have lines := joined_lines (cutAfter (· = '\n') text.toList)
  rw [Feed.text, Feed.ofString, lines, cutAfter, normalized_cutAfter_go _ _ _ noReturn]
  rfl

/-! ## Line breaks at the end -/

theorem getLast?_joined (replies : List Reply) :
    joined replies = [] ∨ (joined replies).getLast? = some '\n' := by
  induction replies with
  | nil => exact .inl rfl
  | cons reply replies ih =>
    cases reply with
    | line text =>
      refine .inr ?_
      rw [joined, List.getLast?_append, getLast?_normalized]
      rcases ih with nothing | last
      · rw [nothing]
        rfl
      · rw [last]
        rfl
    | failure cause => exact .inl rfl
    | endOfInput => exact .inl rfl

/-- Normalizing adds no character but a line break. -/
theorem mem_normalized {cs : List Char} {ch : Char} (h : ch ∈ normalized cs) :
    ch ∈ cs ∨ ch = '\n' := by
  unfold normalized at h
  split at h
  · next reversed =>
    rw [List.mem_reverse, List.mem_cons] at h
    rcases h with rfl | h
    · exact .inr rfl
    · refine .inl (List.mem_reverse.mp ?_)
      rw [reversed]
      exact List.mem_cons_of_mem _ (List.mem_cons_of_mem _ h)
  · exact .inl h
  · rcases List.mem_append.mp h with h | h
    · exact .inl h
    · exact .inr (List.mem_singleton.mp h)

/-- The lines of a text have no character that the text has not, but line breaks. -/
theorem mem_text_ofString {text : String} {ch : Char} (h : ch ∈ (Feed.ofString text).text) :
    ch ∈ text.toList ∨ ch = '\n' := by
  have lines := joined_lines (cutAfter (· = '\n') text.toList)
  rw [Feed.text, Feed.ofString, lines, List.mem_flatMap] at h
  obtain ⟨line, cut, mem⟩ := h
  refine (mem_normalized mem).imp_left fun mem => ?_
  rw [← flatten_cutAfter (· = '\n') text.toList]
  exact List.mem_flatten_of_mem cut mem

namespace Cursor

/-- What is ahead ends with a line break, unless nothing is, and goes on to its last character. -/
structure Complete (c : Cursor) : Prop where
  sound : c.Sound
  ends : c.ahead = [] ∨ c.ahead.getLast? = some '\n'
  inText : endOfText ∉ c.ahead

theorem ahead_ofFeed (feed : Feed) : (ofFeed feed).ahead = feed.text := rfl

theorem complete_ofString {text : String} (inText : endOfText ∉ text.toList) :
    (ofFeed (.ofString text)).Complete where
  sound := sound_ofFeed _
  ends := getLast?_joined _
  inText := fun mem => (mem_text_ofString mem).elim inText (by decide)

/-- What is left of a complete text is complete. -/
theorem Complete.suffix {c d : Cursor} {cs : List Char} (h : c.Complete) (sound : d.Sound)
    (ahead : c.ahead = cs ++ d.ahead) : d.Complete := by
  have inText := h.inText
  rw [ahead, List.mem_append, not_or] at inText
  refine ⟨sound, ?_, inText.2⟩
  cases rest : d.ahead with
  | nil => exact .inl rfl
  | cons ch ds =>
    have some' : c.ahead ≠ [] := by
      rw [ahead, rest]
      exact List.append_ne_nil_of_right_ne_nil cs (List.cons_ne_nil ch ds)
    have last := h.ends.resolve_left some'
    rw [ahead, rest, List.getLast?_append, Option.or_eq_some_iff] at last
    exact .inr (last.resolve_right fun h => nomatch List.getLast?_eq_none_iff.mp h.1)

/-- Characters without a line break are not the last of a complete text. -/
theorem Complete.goesOn {c : Cursor} {cs ds : List Char} (h : c.Complete) (inLine : '\n' ∉ cs)
    (some' : cs ≠ []) (ahead : c.ahead = cs ++ ds) : ds ≠ [] := by
  rintro rfl
  rw [List.append_nil] at ahead
  have last := h.ends.resolve_left (ahead ▸ some')
  rw [ahead] at last
  exact inLine (List.mem_of_getLast? last)

end Cursor

end ComplexScript.Text
