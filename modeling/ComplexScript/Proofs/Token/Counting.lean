import ComplexScript.Proofs.Token.Locality
set_option autoImplicit false

/-!
# The tokens of a text

Where a token is read shows in its position alone (`Scan.next_coupled`), so what the tokens to come
hold (`Scan.contents`) is settled by the characters to come, whatever entry they are read for.
Bounds never cut the text short: not that of a run of characters (`Scan.runsEnd`), and not that in
`Scan.tokens`, since every token before the end uses a character (`Scan.tokens_ends`).
-/

namespace ComplexScript.Token

open ComplexScript.Text

/-- The lexeme at another place. -/
def Lexeme.at (start : Position) (x : Lexeme) : Lexeme :=
  { x with token := { x.token with position := start } }

namespace Scan

variable {c c' : Cursor} {start start' : Position}

/-! ## A token at another place -/

theorem suffix_at (start start' : Position) (text : List Char) (v : Float) :
    suffix text v start = Lexeme.at start <$> suffix text v start' := by
  have literal : ∀ text value, Lexeme.ofLiteral text start value =
      (Lexeme.ofLiteral text start' value).at start := by
    rintro text (_ | _) <;> rfl
  simp only [suffix, map_bind, apply_ite, map_pure, literal]

theorem digits_at (b : Base) (opening : List Char) (v : Float) :
    digits b opening v start = Lexeme.at start <$> digits b opening v start' := by
  simp only [digits, map_bind, apply_ite (Functor.map (f := Scan) (Lexeme.at start)), map_pure,
    suffix_at start start']
  rfl

theorem number_at (first : Char) :
    number first start = Lexeme.at start <$> number first start' := by
  simp only [number, map_bind]
  refine congrArg _ (funext fun second => ?_)
  cases Base.opening first second with
  | zero => rfl
  | plain b => exact digits_at b _ _
  | marked b =>
    show release >>= _ = Lexeme.at start <$> (release >>= _)
    rw [map_bind]
    exact congrArg (release >>= ·) (funext fun _ => digits_at b _ _)

theorem pair_at (first : Char) (p : Pairing) :
    pair first p start = Lexeme.at start <$> pair first p start' := by
  simp only [pair, map_bind]
  refine congrArg _ (funext fun second => ?_)
  split
  · rfl
  · cases p.alone <;> rfl

/-- What is read is the same at another place. -/
theorem same_of_at {m m' : Scan Lexeme} (h : m = Lexeme.at start <$> m') (c : Cursor) :
    Same (m c).1 (m' c).1 ∧ (m c).2 = (m' c).2 := by
  subst h
  exact ⟨⟨rfl, rfl, rfl, rfl⟩, rfl⟩

theorem same_of_sim {R : Cursor → Cursor → Prop} {m m' : Scan Lexeme} (sim : Sim R m' m')
    (h : m = Lexeme.at start <$> m') (related : R c c') :
    Same (m c).1 (m' c').1 ∧ R (m c).2 (m' c').2 := by
  obtain ⟨same, behind⟩ := same_of_at h c
  obtain ⟨equal, related⟩ := sim c c' related
  rw [← equal, behind]
  exact ⟨same, related⟩

section

variable {R : Cursor → Cursor → Prop} (coupling : Cursor.Coupling R)

include coupling

theorem first_coupled (related : R c c') :
    Same (first c).1 (first c').1 ∧ R (first c).2 (first c').2 := by
  obtain ⟨shown, looked⟩ := coupling.peek related
  simp only [first, bind, StateT.bind, peek, position, ← shown]
  split
  · exact ⟨⟨rfl, rfl, rfl, rfl⟩, looked⟩
  split
  · exact ⟨⟨rfl, rfl, rfl, rfl⟩, coupling.release looked⟩
  split
  · exact same_of_sim (number_sim coupling _ _) (number_at _) looked
  split
  · exact same_of_sim (word_sim coupling _) rfl looked
  cases Pairing.of? c.peek.1 with
  | some p => exact same_of_sim (pair_sim coupling _ p _) (pair_at _ p) looked
  | none =>
    cases Kind.ofCharacter? c.peek.1 <;>
      exact ⟨⟨rfl, rfl, rfl, rfl⟩, coupling.release looked⟩

/-- Over cursors that show the same the next token is the same, but for where it stands. -/
theorem next_coupled (related : R c c') :
    Same (next c).1 (next c').1 ∧ R (next c).2 (next c').2 := by
  rw [next_eq, next_eq]
  exact first_coupled coupling (coupling.takeRun stops_isBlank related).2

end

/-! ## Runs -/

/-- The runs that are read: of blanks, of a word, and of the digits of a base. -/
inductive IsRun : (Char → Bool) → Prop where
  | blanks : IsRun isBlank
  | word : IsRun isWordCharacter
  | digits (b : Base) : IsRun b.isDigit

theorem IsRun.stops {p : Char → Bool} (run : IsRun p) : Cursor.Stops p := by
  cases run with
  | blanks => exact stops_isBlank
  | word => exact stops_isWordCharacter
  | digits b => exact stops_isDigit b

/-- Moves of a cursor lead to sound cursors, and each run ends at a character that does not belong
to it, never for want of its bound. -/
structure RunsEnd (c : Cursor) : Prop where
  peek : c.peek.2.Sound
  release : c.release.Sound
  run : ∀ p, IsRun p → (c.takeRun p).2.Sound ∧ p (c.takeRun p).2.peek.1 = false

theorem runsEnd (sound : c.Sound) : RunsEnd c where
  peek := sound.peek
  release := sound.release
  run _ run := ⟨sound.takeRun run.stops, Cursor.takeRun_ends run.stops sound⟩

/-! ## The tokens before the end -/

theorem tokensUpTo_succ (n : Nat) (c : Cursor) :
    (tokensUpTo (n + 1) c).1 = if (next c).1.token.kind = .endOfInput then [(next c).1]
      else (next c).1 :: (tokensUpTo n (next c).2).1 := by
  have unfolded : tokensUpTo (n + 1) c =
      (if (next c).1.token.kind = .endOfInput then pure [(next c).1]
        else tokensUpTo n >>= fun xs => pure ((next c).1 :: xs) : Scan (List Lexeme)) (next c).2 :=
    rfl
  rw [unfolded]
  by_cases isEnd : (next c).1.token.kind = .endOfInput
  · rw [if_pos isEnd, if_pos isEnd]
    rfl
  · rw [if_neg isEnd, if_neg isEnd]
    rfl

/-- A bound greater than what is left reads all tokens. -/
theorem tokensUpTo_of_le {n n' : Nat} (sound : c.Sound) (enough : c.left < n) (le : n ≤ n') :
    (tokensUpTo n c).1 = (tokensUpTo n' c).1 := by
  induction n generalizing c n' with
  | zero => cases enough
  | succ n ih =>
    obtain ⟨n', rfl⟩ : ∃ k, n' = k + 1 := Nat.exists_eq_add_one.mpr (by omega)
    rw [tokensUpTo_succ, tokensUpTo_succ]
    split
    · rfl
    · next notEnd =>
      have less := (next_left sound).2 notEnd
      have rest : (tokensUpTo n (next c).2).1 = (tokensUpTo n' (next c).2).1 :=
        ih (next_sound sound) (by omega) (by omega)
      rw [rest]

theorem tokens_of_end (isEnd : (next c).1.token.kind = .endOfInput) :
    (tokens c).1 = [(next c).1] := by
  rw [tokens, tokensUpTo_succ, if_pos isEnd]

theorem tokens_of_not_end (sound : c.Sound) (notEnd : (next c).1.token.kind ≠ .endOfInput) :
    (tokens c).1 = (next c).1 :: (tokens (next c).2).1 := by
  have less := (next_left sound).2 notEnd
  have size := c.left_le_size
  have size' := (next c).2.left_le_size
  rw [tokens, tokensUpTo_succ, if_neg notEnd, tokens,
    tokensUpTo_of_le (next_sound sound) (Nat.lt_of_lt_of_le less size) (Nat.le_max_left _ _),
    tokensUpTo_of_le (next_sound sound) (Nat.lt_succ_of_le size') (Nat.le_max_right c.size _)]

/-- What holds where the text ends, and of a token if it holds after it, holds everywhere. -/
theorem tokens_induction {P : (c : Cursor) → c.Sound → Prop}
    (ended : ∀ c sound, (next c).1.token.kind = .endOfInput → P c sound)
    (token : ∀ c sound, (next c).1.token.kind ≠ .endOfInput →
      P (next c).2 (next_sound sound) → P c sound)
    (c : Cursor) (sound : c.Sound) : P c sound := by
  by_cases isEnd : (next c).1.token.kind = .endOfInput
  · exact ended c sound isEnd
  · have less := (next_left sound).2 isEnd
    exact token c sound isEnd (tokens_induction ended token (next c).2 (next_sound sound))
  termination_by c.left

/-- What holds of every token read holds of all tokens of a text. -/
theorem forall_tokens {P : Lexeme → Prop} (read : ∀ c, P (next c).1) (sound : c.Sound) :
    ∀ x ∈ (tokens c).1, P x := by
  induction c, sound using tokens_induction with
  | ended c sound isEnd =>
    rw [tokens_of_end isEnd]
    exact List.forall_mem_singleton.mpr (read c)
  | token c sound notEnd ih =>
    rw [tokens_of_not_end sound notEnd]
    exact List.forall_mem_cons.mpr ⟨read c, ih⟩

/-- The tokens before the end of the text. -/
def before (c : Cursor) : List Lexeme := (tokens c).1.dropLast

theorem before_of_end (isEnd : (next c).1.token.kind = .endOfInput) : before c = [] := by
  rw [before, tokens_of_end isEnd]
  rfl

theorem before_of_not_end (sound : c.Sound) (notEnd : (next c).1.token.kind ≠ .endOfInput) :
    before c = (next c).1 :: before (next c).2 := by
  have more : (tokens (next c).2).1 ≠ [] := by
    rw [tokens, tokensUpTo_succ]
    split <;> exact List.cons_ne_nil _ _
  rw [before, tokens_of_not_end sound notEnd, List.dropLast_cons_of_ne_nil more, before]

/-- The tokens end with the end of the text, which is not among those before. -/
theorem tokens_ends (c : Cursor) (sound : c.Sound) :
    (∃ e, (tokens c).1 = before c ++ [e] ∧ e.token.kind = .endOfInput) ∧
      ∀ x ∈ before c, x.token.kind ≠ .endOfInput := by
  induction c, sound using tokens_induction with
  | ended c sound isEnd =>
    rw [tokens_of_end isEnd, before_of_end isEnd]
    exact ⟨⟨_, rfl, isEnd⟩, List.forall_mem_nil _⟩
  | token c sound notEnd ih =>
    obtain ⟨⟨e, rest, isEnd⟩, others⟩ := ih
    rw [before_of_not_end sound notEnd, tokens_of_not_end sound notEnd, rest]
    exact ⟨⟨e, rfl, isEnd⟩, List.forall_mem_cons.mpr ⟨notEnd, others⟩⟩

/-- What a token holds, wherever it stands. -/
def content (t : Token) : Kind × String × Option Number := (t.kind, t.text, t.value)

/-- What the tokens before the end of the text hold. -/
def contents (c : Cursor) : List (Kind × String × Option Number) :=
  (before c).map fun x => content x.token

theorem contents_of_end (isEnd : (next c).1.token.kind = .endOfInput) : contents c = [] := by
  rw [contents, before_of_end isEnd]
  rfl

theorem contents_of_not_end (sound : c.Sound) (notEnd : (next c).1.token.kind ≠ .endOfInput) :
    contents c = content (next c).1.token :: contents (next c).2 := by
  rw [contents, before_of_not_end sound notEnd]
  rfl

/-- The tokens to come are those of the characters to come. -/
theorem contents_of_abreast (h : c.Abreast c') : contents c = contents c' := by
  have sound := h.sound
  induction c, sound using tokens_induction generalizing c' with
  | ended c sound isEnd =>
    have same := (next_coupled Cursor.coupling_abreast h).1.kind
    rw [contents_of_end isEnd, contents_of_end (same ▸ isEnd)]
  | token c sound notEnd ih =>
    obtain ⟨same, abreast⟩ := next_coupled Cursor.coupling_abreast h
    have first : content (next c).1.token = content (next c').1.token := by
      rw [content, content, same.kind, same.text, same.value]
    rw [contents_of_not_end sound notEnd, contents_of_not_end h.sound' (same.kind ▸ notEnd), first,
      ih abreast]

end Scan

end ComplexScript.Token
