import ComplexScript.Proofs.Entry.Budget
set_option autoImplicit false

/-!
# Readers of equal streams

A relation between cursors that reading neither tells apart nor breaks makes one between readers
(`Reader.Over`), and such readers read the same next entry (`next_over`).  So what a reader reads
depends on the text still to come, not on how it is cut into lines: readers that have read the same
of their entry and have the same characters to come (`Reader.Alike`) read the same entries from
there on (`nth_alike`).
-/

namespace ComplexScript.Entry

open ComplexScript.Text
open Read

/-! ## The entries after each other -/

/-- The reader after `n` entries, the end of the text read as often as asked for. -/
def Reader.after (limits : Limits) : Nat → Reader → Reader
  | 0, r => r
  | n + 1, r => (next limits (after limits n r)).2

/-- The `n`-th entry from a reader, counted from 0. -/
def nth (limits : Limits) (n : Nat) (r : Reader) : Entry := (next limits (r.after limits n)).1

/-! ## Readers over related cursors -/

/-- Readers over related cursors that are in the same state otherwise. -/
structure Reader.Over (R : Cursor → Cursor → Prop) (r r' : Reader) : Prop where
  cursor : R r.cursor r'.cursor
  lookahead : r.lookahead = r'.lookahead
  diagnostics : r.diagnostics = r'.diagnostics
  abandoned : r.abandoned = r'.abandoned
  sane : r.Sane

section

variable {R : Cursor → Cursor → Prop} {r r' : Reader}

theorem Reader.Over.token (bisim : Cursor.Bisimulation R) (h : r.Over R r') :
    r.token = r'.token := by
  rw [Reader.token, Reader.token, h.lookahead, (Token.Scan.next_sim bisim _ _ h.cursor).1]

theorem Reader.Over.looked (bisim : Cursor.Bisimulation R) (h : r.Over R r') :
    r.looked.Over R r'.looked := by
  obtain ⟨same, cursor⟩ := Token.Scan.next_sim bisim _ _ h.cursor
  have sane := invariant_sane.look r h.sane
  unfold Reader.looked at sane ⊢
  rw [← h.lookahead]
  cases found : r.lookahead with
  | some t => exact h
  | none =>
    rw [found] at sane
    refine ⟨cursor, ?_, ?_, h.abandoned, sane⟩
    · rw [fetched, fetched, same]
    · rw [fetched, fetched, same, h.diagnostics]

theorem Reader.Over.reported (h : r.Over R r') (d : Diagnostic) :
    (r.reported d).Over R (r'.reported d) := by
  have sane := invariant_sane.report r d h.sane
  unfold Reader.reported at sane ⊢
  rw [← h.abandoned]
  split
  · exact h
  · exact ⟨h.cursor, h.lookahead, congrArg (· ++ [d]) h.diagnostics, rfl, h.sane⟩

theorem simulation_over (bisim : Cursor.Bisimulation R) :
    Simulation fun r o => ∃ r', o = some r' ∧ r.Over R r' where
  token := by
    rintro r _ ⟨r', rfl, h⟩ _ ⟨⟩
    exact h.token bisim
  lexed := by
    rintro r _ ⟨r', _, h⟩
    exact h.sane.lexed
  abandoned := by
    rintro r _ ⟨r', rfl, h⟩ _ ⟨⟩
    exact h.abandoned
  look := by
    rintro r _ ⟨r', rfl, h⟩
    exact ⟨_, rfl, h.looked bisim⟩
  use := by
    rintro r _ ⟨r', rfl, h⟩
    exact ⟨_, rfl, h.cursor, rfl, h.diagnostics, h.abandoned, invariant_sane.use r h.sane⟩
  report := by
    rintro r _ ⟨r', rfl, h⟩ d
    exact ⟨_, rfl, h.reported d⟩
  giveUp := by
    rintro r _ ⟨r', rfl, h⟩ _ t
    exact ⟨_, rfl, h.cursor, h.lookahead, congrArg (· ++ [_]) h.diagnostics, rfl, h.sane⟩

/-- An entry that is read on one budget is read on any greater one. -/
theorem entry_of_le {fuel fuel' : Nat} {ctx : Context} {r s : Reader} {node : Program.Node}
    (le : fuel ≤ fuel') (sane : r.Sane) (run : entry fuel ctx r = some (node, s)) :
    entry fuel' ctx r = some (node, s) := by
  have sim := entry_sim invariant_sane.simulation le (.refl _ ctx)
  obtain ⟨_, _, ⟨rfl, _⟩, same⟩ := sim r (some r) ⟨rfl, sane⟩ node s run
  obtain ⟨_, ⟨⟩, run'⟩ := same s rfl
  exact run'

/-- Readers over related cursors read the same next entry, and are over related cursors after it. -/
theorem next_over (renewal : Cursor.Renewal R) (limits : Limits) (h : r.Over R r') :
    (next limits r).1 = (next limits r').1 ∧ (next limits r).2.Over R (next limits r').2 := by
  obtain ⟨sound, sound'⟩ := renewal.sound h.cursor
  obtain ⟨node, t, run, read, _⟩ := next_read limits sound
  obtain ⟨node', t', run', read', _⟩ := next_read limits sound'
  have start : Reader.Over R { r with abandoned := false } { r' with abandoned := false } :=
    ⟨h.cursor, h.lookahead, h.diagnostics, rfl, h.sane⟩
  -- The budgets of the two differ, since they are taken from the feeds: compare on the greater one.
  have sane' : Reader.Sane { r' with abandoned := false } := by
    intro t found
    exact h.sane t (h.lookahead.trans found)
  have sim := entry_sim (simulation_over renewal.toBisimulation)
    (Nat.le_max_left (budget r) (budget r')) (.refl _ { limits := limits })
  obtain ⟨_, _, ⟨s, rfl, after⟩, same⟩ := sim _ _ ⟨_, rfl, start⟩ node t run
  obtain ⟨_, ⟨⟩, further⟩ := same s rfl
  have run' := entry_of_le (Nat.le_max_right (budget r) (budget r')) sane' run'
  cases further.symm.trans run'
  rw [read, read']
  refine ⟨?_, renewal.beginEntry after.cursor, after.lookahead, rfl, after.abandoned, after.sane⟩
  rw [after.diagnostics, renewal.raw after.cursor]

end

/-! ## Alike readers -/

/-- Readers that have read the same of their entry and have the same characters to come. -/
abbrev Reader.Alike (r r' : Reader) : Prop := r.Over Cursor.Alike r'

theorem after_alike (limits : Limits) {r r' : Reader} (h : r.Alike r') (n : Nat) :
    (r.after limits n).Alike (r'.after limits n) := by
  induction n with
  | zero => exact h
  | succ n ih => exact (next_over Cursor.renewal_alike limits ih).2

/-- Alike readers read the same entries. -/
theorem nth_alike (limits : Limits) {r r' : Reader} (h : r.Alike r') (n : Nat) :
    nth limits n r = nth limits n r' :=
  (next_over Cursor.renewal_alike limits (after_alike limits h n)).1

end ComplexScript.Entry
