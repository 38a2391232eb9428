import Mathlib.Data.Nat.Find
import ComplexScript.Proofs.Entry.Independence
import ComplexScript.Proofs.Entry.Listing
import ComplexScript.Proofs.Entry.Statements
set_option autoImplicit false

/-!
# Reading ends

An entry whose first token is the end of the text is the end of the program, and so are all after it
(`next_at_end`).  Any other entry is not, and it uses a token (`next_uses`), whatever is wrong with
its text and even if it is given up.  A token that was used is not read again, so the entries before
the end share out the tokens of the program (`entries_share_tokens`): there are no more of them than
tokens.
-/

namespace ComplexScript.Entry

open ComplexScript.Program
open ComplexScript.Text
open ComplexScript.Token (Kind Scan)
open Read

section

variable {seen ts : List Token} {r s : Reader}

/-- A path that uses nothing leaves the token looked at, and reads nothing after it. -/
theorem Path.left_of_nil (h : Path seen r ts s) (nothing : ts = []) {t : Token}
    (found : r.lookahead = some t) : s.left = r.left := by
  induction h with
  | stay => rfl
  | look _ ih =>
    have looked := Reader.looked_of_some found
    rw [looked] at ih
    exact ih nothing found
  | use => cases nothing
  | report _ _ ih =>
    have ih := ih nothing
    unfold Reader.reported at ih
    split at ih <;> exact ih found
  | giveUp _ _ _ ih => exact ih nothing found

end

/-! ## Entries that are not the end -/

section

variable {fuel : Nat} {ctx : Context}

/-- The tree is not the end of the program. -/
def GoesOn (node : Node) : Prop := node.isEnd = false

theorem loop_goesOn : Yields GoesOn (loop fuel ctx) := by
  cases fuel with
  | zero => exact .starved
  | succ fuel =>
    rw [loop]
    refine .after fun _ => .after fun init => .after fun _ => .after fun condition => ?_
    refine .after fun _ => .after fun step => .after fun _ => .after fun _ => ?_
    exact .after fun body => .pure rfl

theorem conditional_goesOn : Yields GoesOn (conditional fuel ctx) := by
  cases fuel with
  | zero => exact .starved
  | succ fuel =>
    rw [conditional]
    refine .after fun _ => .after fun condition => .after fun _ => .after fun _ => ?_
    refine .after fun thenBlock => .after fun _ => ?_
    split
    · refine .after fun _ => ?_
      split <;> exact .after fun elseBlock => .pure rfl
    · exact .pure rfl

theorem goesOn_of_isExpression {node : Node} (h : node.IsExpression) : GoesOn node := by
  cases node with
  | endOfInput => exact h.elim
  | _ => rfl

theorem instruction_goesOn : Yields GoesOn (instruction fuel ctx) := by
  cases fuel with
  | zero => exact .starved
  | succ fuel =>
    have assigns : Yields GoesOn (assignment fuel ctx) :=
      (Rule.formed fuel .assignment ctx).mono fun _ => goesOn_of_isExpression
    rw [instruction]
    refine .after fun _ => ?_
    split
    · exact .pure rfl
    refine .after fun _ => ?_
    split
    · exact .pure rfl
    refine .after fun _ => ?_
    split
    · exact loop_goesOn
    refine .after fun _ => ?_
    split
    · exact conditional_goesOn
    refine .after fun _ => ?_
    split
    · refine .after fun _ => ?_
      split
      · exact .pure rfl
      · exact .after fun value => .pure rfl
    · exact assigns

theorem terminated_goesOn {inBlock : Bool} {node : Node} (h : GoesOn node) :
    Yields GoesOn (terminated fuel ctx inBlock node) := by
  intro r tree s run
  rcases terminated_cases run with rfl | ⟨_, _, rest, _, rfl⟩
  · exact h
  · rfl

/-- An entry that does not begin at the end of the text is not the end of the program. -/
theorem entry_goesOn {r s : Reader} {node : Node} (notEnd : r.token.kind ≠ .endOfInput)
    (run : entry fuel ctx r = some (node, s)) : GoesOn node := by
  rw [entry, acceptOr_eq] at run
  split at run
  · have goesOn : Yields GoesOn (definition fuel ctx >>= terminated fuel ctx false) := by
      have item : Yields GoesOn (definition fuel ctx) := by
        refine .after fun name => .after fun _ => .after fun params => .after fun _ => ?_
        exact .after fun _ => .after fun body => .pure rfl
      exact item.bind fun _ => terminated_goesOn
    exact goesOn _ _ _ run
  · cases fuel with
    | zero => cases run
    | succ fuel =>
      rw [statement_succ, Reader.token_looked, Reader.looked_looked, if_neg notEnd] at run
      split at run
      · cases run
        rfl
      split at run
      · cases run
        rfl
      exact (instruction_goesOn.bind fun _ => terminated_goesOn) _ _ _ run

end

/-! ## What an entry uses -/

section

variable {limits : Limits} {r s : Reader} {fuel : Nat} {ctx : Context} {node : Node}

/-- To have looked at the first token changes nothing about an entry. -/
theorem entry_looked (fuel : Nat) (ctx : Context) (r : Reader) :
    entry fuel ctx r.looked = entry fuel ctx r := by
  rw [entry, acceptOr_eq, acceptOr_eq, Reader.token_looked, Reader.looked_looked]

/-- An entry uses the first of the tokens to come, unless it is the end of the text. -/
theorem entry_uses (ready : r.Ready) (enough : 16 * r.left + 11 ≤ fuel)
    (notEnd : r.token.kind ≠ .endOfInput) (run : entry fuel ctx r = some (node, s)) :
    ∃ ts, ts ≠ [] ∧ Path [] r ts s := by
  -- The first token is looked at in advance, so that a path without tokens reads nothing at all.
  rw [← entry_looked] at run
  obtain ⟨sound, le⟩ := Reader.looked_left ready.sound
  have enough : 16 * r.looked.left + 11 ≤ fuel := by omega
  have total : Total (Ahead r.looked.left 0 r.token.kind) (entry fuel ctx) _ :=
    entry_total enough r.token.kind
  obtain ⟨_, _, run', used⟩ :=
    total r.looked ⟨⟨sound, Nat.le_refl _⟩, congrArg Token.kind r.token_looked⟩
  cases run.symm.trans run'
  have traced : Traced Anywhere [r.token] (entry fuel ctx) Node.Lists := entry_traced
  obtain ⟨ts, path, _⟩ := traced r.looked node s ready.spelled.looked trivial run
  refine ⟨ts, fun nothing => ?_, .look path⟩
  have same := path.left_of_nil nothing r.looked_lookahead
  have less := used.2
  rw [Rule.uses, if_neg notEnd] at less
  omega

/-- Reading the next entry uses these tokens, whatever it complains about. -/
def Spends (limits : Limits) (r : Reader) (ts : List Token) : Prop :=
  ∃ node s, entry (budget r) { limits := limits } { r with abandoned := false } = some (node, s) ∧
    Path [] { r with abandoned := false } ts s

/-- An entry that does not begin at the end of the text is not the end of the program, and uses the
first of the tokens to come. -/
theorem next_uses (ready : r.Ready) (notEnd : r.token.kind ≠ .endOfInput) :
    (next limits r).1.isEnd = false ∧
      ∃ ts, ts ≠ [] ∧ Spends limits r ts ∧
        r.contents = ts.map Scan.content ++ (next limits r).2.contents := by
  obtain ⟨node, s, run, read, after⟩ := next_read limits ready.sound
  have ready' : Reader.Ready { r with abandoned := false } := ⟨ready.sound, ready.spelled⟩
  have notEnd' : (Reader.token { r with abandoned := false }).kind ≠ .endOfInput := notEnd
  obtain ⟨ts, some, path⟩ := entry_uses ready' (le_budget r) notEnd' run
  rw [read]
  refine ⟨entry_goesOn notEnd' run, ts, some, ⟨node, s, run, path⟩, ?_⟩
  rw [Reader.contents_begun s after.1]
  exact path.contents ready.sound

end

/-! ## Programs -/

/-- The next entry is read on its budget, and on any greater one. -/
theorem next?_of_le {limits : Limits} {r : Reader} (sound : r.cursor.Sound) (sane : r.Sane)
    {fuel : Nat} (le : budget r ≤ fuel) : next? fuel limits r = some (next limits r) := by
  obtain ⟨node, s, run, read, _⟩ := next_read limits sound
  have sane' : Reader.Sane { r with abandoned := false } := sane
  rw [read]
  exact next?_eq_some.mpr ⟨node, s, entry_of_le le sane' run, rfl, rfl⟩

theorem after_sane (limits : Limits) (feed : Feed) (n : Nat) :
    (Reader.after limits n (.ofFeed feed)).Sane := by
  induction n with
  | zero => exact nofun
  | succ n ih => exact (next_sane limits ih).1

/-- The tokens of the first `n` entries, and then those still to be used, are all tokens. -/
theorem contents_after {limits : Limits} {feed : Feed} {uses : Nat → List Token} {n : Nat}
    (each : ∀ k < n, (Reader.after limits k (.ofFeed feed)).contents =
      (uses k).map Scan.content ++ (Reader.after limits (k + 1) (.ofFeed feed)).contents) :
    Scan.contents (.ofFeed feed) = ((List.range n).flatMap uses).map Scan.content ++
      (Reader.after limits n (.ofFeed feed)).contents := by
  induction n with
  | zero => rw [List.range_zero, List.flatMap_nil, List.map_nil, List.nil_append, Reader.after,
      Reader.contents_ofFeed]
  | succ n ih =>
    rw [ih fun k less => each k (Nat.lt_succ_of_lt less), each n (Nat.lt_succ_self n),
      List.range_succ, List.flatMap_append, List.map_append, List.append_assoc, List.flatMap_cons,
      List.flatMap_nil, List.append_nil]

/-- Lists with an element each have at least as many elements together. -/
theorem le_length_flatMap {uses : Nat → List Token} {n : Nat} (some : ∀ k < n, uses k ≠ []) :
    n ≤ ((List.range n).flatMap uses).length := by
  induction n with
  | zero => exact Nat.zero_le _
  | succ n ih =>
    have rest := ih fun k less => some k (Nat.lt_succ_of_lt less)
    have last := List.length_pos_iff.mpr (some n (Nat.lt_succ_self n))
    rw [List.range_succ, List.flatMap_append, List.length_append, List.flatMap_cons,
      List.flatMap_nil, List.append_nil]
    omega

/-- From some entry on the end of the text comes next, and each entry before it has a token. -/
theorem exists_end (limits : Limits) (feed : Feed) {uses : Nat → List Token}
    (each : ∀ n, (Reader.after limits n (.ofFeed feed)).token.kind ≠ .endOfInput → uses n ≠ [] ∧
      (Reader.after limits n (.ofFeed feed)).contents =
        (uses n).map Scan.content ++ (Reader.after limits (n + 1) (.ofFeed feed)).contents) :
    ∃ m ≤ (Scan.contents (.ofFeed feed)).length,
      (Reader.after limits m (.ofFeed feed)).token.kind = .endOfInput ∧
      ∀ n < m, (Reader.after limits n (.ofFeed feed)).token.kind ≠ .endOfInput := by
  have bound : ∀ n, (∀ k < n, (Reader.after limits k (.ofFeed feed)).token.kind ≠ .endOfInput) →
      n ≤ (Scan.contents (.ofFeed feed)).length := by
    intro n goesOn
    have some := le_length_flatMap fun k less => (each k (goesOn k less)).1
    rw [contents_after fun k less => (each k (goesOn k less)).2, List.length_append,
      List.length_map]
    omega
  have ends : ∃ n, (Reader.after limits n (.ofFeed feed)).token.kind = .endOfInput := by
    by_contra never
    have goesOn := not_exists.mp never
    exact absurd (bound _ fun k _ => goesOn k) (Nat.not_succ_le_self _)
  have first := fun n (less : n < Nat.find ends) => Nat.find_min ends less
  exact ⟨Nat.find ends, bound _ first, Nat.find_spec ends, first⟩

section

variable (limits : Limits) (feed : Feed)

/-- A program is read in `m` entries and its end.  The entries share out the tokens before the end
of the text, so that each of them has one at least, and after them the end is read as often as asked
for. -/
structure EndsAfter (m : Nat) : Prop where
  shares : ∃ uses : Nat → List Token,
    ((List.range m).flatMap uses).map Scan.content = Scan.contents (.ofFeed feed) ∧
      ∀ n < m, uses n ≠ [] ∧ Spends limits (.after limits n (.ofFeed feed)) (uses n) ∧
        (nth limits n (.ofFeed feed)).isEnd = false
  ended : (nth limits m (.ofFeed feed)).isEnd = true
  stays : ∀ n, m < n → nth limits n (.ofFeed feed) = endEntry

/-- Every program is read to its end, whatever its text and the limits are: no run of characters is
cut off by its bound, no entry runs out of budget, and the end comes after no more entries than
there are tokens before it. -/
theorem entries_share_tokens :
    (∀ n, (Reader.after limits n (.ofFeed feed)).cursor.Sound) ∧
    (∀ c : Cursor, c.Sound → Scan.RunsEnd c) ∧
    (∀ n fuel, budget (Reader.after limits n (.ofFeed feed)) ≤ fuel →
      next? fuel limits (.after limits n (.ofFeed feed)) =
        some (next limits (.after limits n (.ofFeed feed)))) ∧
    ∃ e, (Scan.tokens (.ofFeed feed)).1 = Scan.before (.ofFeed feed) ++ [e] ∧
      e.token.kind = .endOfInput ∧
      ∃ m ≤ (Scan.before (.ofFeed feed)).length, EndsAfter limits feed m := by
  have ready := after_ready limits feed
  refine ⟨fun n => (ready n).sound, fun c => Scan.runsEnd,
    fun n fuel => next?_of_le (ready n).sound (after_sane limits feed n), ?_⟩
  obtain ⟨⟨e, tokens, isEnd⟩, _⟩ := Scan.tokens_ends _ (Cursor.sound_ofFeed feed)
  refine ⟨e, tokens, isEnd, ?_⟩
  have each : ∀ n, ∃ ts, (Reader.after limits n (.ofFeed feed)).token.kind ≠ .endOfInput →
      ts ≠ [] ∧ Spends limits (.after limits n (.ofFeed feed)) ts ∧
        (Reader.after limits n (.ofFeed feed)).contents =
          ts.map Scan.content ++ (Reader.after limits (n + 1) (.ofFeed feed)).contents := by
    intro n
    by_cases atEnd : (Reader.after limits n (.ofFeed feed)).token.kind = .endOfInput
    · exact ⟨[], fun notEnd => absurd atEnd notEnd⟩
    · obtain ⟨ts, used⟩ := (next_uses (ready n) atEnd).2
      exact ⟨ts, fun _ => used⟩
  choose uses used using each
  obtain ⟨m, le, atEnd, goesOn⟩ := exists_end limits feed fun n notEnd =>
    ⟨(used n notEnd).1, (used n notEnd).2.2⟩
  refine ⟨m, by rwa [Scan.contents, List.length_map] at le, ?_⟩
  have all := contents_after fun k less => (used k (goesOn k less)).2.2
  rw [Reader.contents_of_end (ready m).sound atEnd, List.append_nil] at all
  refine ⟨⟨uses, all.symm, fun n less => ?_⟩, ?_, ?_⟩
  · obtain ⟨some, spends, _⟩ := used n (goesOn n less)
    exact ⟨some, spends, (next_uses (ready n) (goesOn n less)).1⟩
  · rw [nth, next_at_end atEnd]
    rfl
  · intro n less
    have ended : Ended (Reader.after limits n (.ofFeed feed)) := by
      induction less with
      | refl =>
        rw [Reader.after, next_at_end atEnd]
        exact ⟨⟨_, Reader.looked_lookahead _, atEnd⟩, rfl, rfl⟩
      | step _ ih => exact (next_ended ih).2
    exact (next_ended ended).1

end

/-! ## The end of the feed -/

/-- Once the feed has ended, the end of the text is the token looked at. -/
def Reader.Halts (r : Reader) : Prop :=
  r.cursor.ended = true → ∃ t, r.lookahead = some t ∧ t.kind = .endOfInput

section

variable {seen ts : List Token} {r s : Reader}

theorem Reader.Halts.looked (halts : r.Halts) (sound : r.cursor.Sound) : r.looked.Halts := by
  cases found : r.lookahead with
  | some t => rwa [looked_of_some found]
  | none =>
    have goesOn : r.cursor.ended = false := by
      rw [← Bool.not_eq_true]
      intro ended
      obtain ⟨t, waiting, _⟩ := halts ended
      cases found.symm.trans waiting
    have cursor : r.looked.cursor = (Scan.next r.cursor).2 := by
      rw [Reader.looked, found]
      rfl
    have token : r.token = (Scan.next r.cursor).1.token := by
      rw [Reader.token, found]
      rfl
    intro ends
    rw [cursor] at ends
    refine ⟨r.token, r.looked_lookahead, ?_⟩
    rw [token]
    exact Scan.next_of_ends sound goesOn ends

/-- The token at which the feed ends is never used. -/
theorem Path.halts (h : Path seen r ts s) (sound : r.cursor.Sound) (before : r.Halts) :
    s.Halts := by
  induction h with
  | stay => exact before
  | look _ ih => exact ih (Reader.looked_left sound).1 (before.looked sound)
  | use next inText _ ih =>
    refine ih sound fun ended => ?_
    obtain ⟨t, waiting, isEnd⟩ := before ended
    cases next.symm.trans waiting
    exact absurd isEnd inText
  | report _ _ ih =>
    unfold Reader.reported at ih
    split at ih <;> exact ih sound before
  | giveUp _ _ _ ih => exact ih sound before

/-- What follows an entry with which the feed has ended is the end of the program. -/
theorem next_halts (limits : Limits) (ready : r.Ready) (halts : r.Halts) :
    (next limits r).2.Ready ∧ (next limits r).2.Halts := by
  obtain ⟨_, s, _, _, read, path, after, _⟩ := next_path limits ready
  rw [read]
  exact ⟨⟨after.sound, after.spelled⟩, path.halts ready.sound halts⟩

end

end ComplexScript.Entry
