import ComplexScript.Proofs.Entry.Ending
set_option autoImplicit false

/-!
# The tokens fetched for an entry

Reading an entry fetches tokens one after the other, from where the last entry left the cursor
(`next_fetches`).  A token that a fault was found in joins the complaints about the entry that it is
fetched for, whatever the grammar makes of it.
-/

namespace ComplexScript

open ComplexScript.Text

/-- The cursor behind the next `n` tokens. -/
def Token.Scan.after : Nat → Cursor → Cursor
  | 0, c => c
  | n + 1, c => after n (next c).2

theorem Token.Scan.sound_after {c : Cursor} (n : Nat) (sound : c.Sound) : (after n c).Sound := by
  induction n generalizing c with
  | zero => exact sound
  | succ n ih => exact ih (next_sound sound)

namespace Entry

open ComplexScript.Program
open ComplexScript.Token (Scan)

/-- The next `n` tokens are fetched, and the faults of them are among the complaints. -/
structure Fetches (c : Cursor) (n : Nat) (d : Cursor) (complaints : List Diagnostic) : Prop where
  cursor : d = Scan.after n c
  faults : ∀ m < n, ∀ f, (Scan.next (Scan.after m c)).1.fault = some f →
    ⟨(Scan.next (Scan.after m c)).1.token, .lexical f⟩ ∈ complaints

variable {r s : Reader} {seen ts : List Token}

theorem Fetches.cons {c d : Cursor} {n : Nat} {complaints : List Diagnostic}
    (rest : Fetches (Scan.next c).2 n d complaints)
    (first : ∀ f, (Scan.next c).1.fault = some f →
      ⟨(Scan.next c).1.token, .lexical f⟩ ∈ complaints) : Fetches c (n + 1) d complaints where
  cursor := rest.cursor
  faults
    | 0, _ => first
    | m + 1, less => rest.faults m (Nat.lt_of_succ_lt_succ less)

/-- A look fetches a token unless one is waiting. -/
theorem Fetches.of_looked {n : Nat} {complaints : List Diagnostic}
    (rest : Fetches r.looked.cursor n s.cursor complaints)
    (kept : r.looked.diagnostics ⊆ complaints) :
    ∃ n, (r.lookahead = none → 0 < n) ∧ Fetches r.cursor n s.cursor complaints := by
  cases found : r.lookahead with
  | some t =>
    rw [Reader.looked_of_some found] at rest
    exact ⟨n, nofun, rest⟩
  | none =>
    have fetched : r.looked = Read.fetched r (Scan.next r.cursor).1 (Scan.next r.cursor).2 := by
      rw [Reader.looked, found]
    rw [fetched] at rest kept
    refine ⟨n + 1, fun _ => n.succ_pos, rest.cons fun f fault => kept ?_⟩
    rw [Read.fetched, fault]
    exact List.mem_append_right _ List.mem_cons_self

/-- What is fetched on a path is fetched by its looks. -/
theorem Path.fetches (h : Path seen r ts s) : ∃ n, Fetches r.cursor n s.cursor s.diagnostics := by
  induction h with
  | stay seen r => exact ⟨0, rfl, fun _ less => absurd less (Nat.not_lt_zero _)⟩
  | look rest ih =>
    obtain ⟨n, fetches⟩ := ih
    obtain ⟨n, -, fetches⟩ := Fetches.of_looked fetches rest.diagnostics
    exact ⟨n, fetches⟩
  | use _ _ _ ih => exact ih
  | report _ _ ih =>
    unfold Reader.reported at ih
    split at ih <;> exact ih
  | giveUp _ _ _ ih => exact ih

/-- Reading an entry fetches tokens, and one at least if none is waiting.  Their faults are
complaints about the entry. -/
theorem next_fetches (limits : Limits) (ready : r.Ready) :
    ∃ n d, (r.lookahead = none → 0 < n) ∧
      Fetches r.cursor n d (next limits r).1.diagnostics ∧
      (next limits r).2.cursor = d.beginEntry := by
  obtain ⟨node, s, run, read, _⟩ := next_read limits ready.sound
  -- the first thing that reading does is to look
  have spelled : Reader.Spelled { r with abandoned := false } := ready.spelled
  have again := (entry_looked _ _ _).trans run
  have traced : Read.Traced Read.Anywhere [] (entry (budget r) { limits := limits }) Node.Lists :=
    entry_traced
  obtain ⟨ts, path, _⟩ := traced _ node s spelled.looked trivial again
  obtain ⟨n, fetches⟩ := path.fetches
  obtain ⟨n, some, fetches⟩ := Fetches.of_looked fetches path.diagnostics
  rw [read]
  exact ⟨n, s.cursor, some, fetches, rfl⟩

end Entry

end ComplexScript
