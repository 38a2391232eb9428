import ComplexScript.Proofs.Entry.Ending
import ComplexScript.Proofs.Session.Responses
import ComplexScript.Proofs.Text.Interruption
set_option autoImplicit false

/-!
# Failures to read

A failure to read the text costs the entry it cuts, and nothing else.  The session whose feed fails
is compared with the one whose feed ends in the same place (`Along`): the two take the same steps
until one of these asks for the line that does not come.  That step fails and leaves everything but
the reader as it was, whatever the entry looked like so far (`Along.step`).  The failure is
forgotten with it, so that every step after it finds the end of the program (`Halted.step`).
-/

namespace ComplexScript.Session

open ComplexScript.Machine
open ComplexScript.Text (Cursor Feed Reply)

/-- How often a session has asked for a line. -/
def requests (s : Session) : Nat := s.reader.cursor.feed.asked.length

section

variable {s t : Session} {fuel : Nat}

/-! ## Programs that have ended -/

/-- The program has ended, and nothing is left of a failure. -/
structure Halted (s : Session) : Prop where
  lookahead : ∃ t, s.reader.lookahead = some t ∧ t.kind = .endOfInput
  failure : s.reader.cursor.failure = none

/-- A step finds the end of the program.  It ends in that, unless the output refuses the flush,
reports no failure to read, and neither writes nor changes anything. -/
structure FindsEnd (s : Session) (r : Step × Session) : Prop where
  finished : s.sink.flush.1 = none → r.1 = .done .finished
  readable : ∀ failure, r.1 ≠ .failed (.source failure)
  scope : r.2.scope = s.scope
  environment : r.2.environment = s.environment
  text : r.2.sink.text = s.sink.text

theorem findsEnd_advanced (s : Session) : FindsEnd s (s.advanced.conclude .finished) := by
  have sink : s.advanced.sink = s.sink := rfl
  unfold conclude
  dsimp only
  rw [sink]
  cases refusal : s.sink.flush.1 with
  | none => exact ⟨fun _ => rfl, nofun, rfl, rfl, rfl⟩
  | some cause =>
    exact ⟨fun taken => absurd (refusal.symm.trans taken) nofun, nofun, rfl, rfl, rfl⟩

/-- Where a program has ended, a step finds its end without asking for a line, and the end is there
for the next step. -/
theorem Halted.step (fuel : Nat) (h : s.Halted) :
    FindsEnd s (s.step fuel) ∧ (s.step fuel).2.Halted ∧ (s.step fuel).2.requests = s.requests := by
  obtain ⟨⟨t, waiting, isEnd⟩, failure⟩ := h
  have looked : s.reader.looked = s.reader := Entry.Reader.looked_of_some waiting
  have token : s.reader.token.kind = .endOfInput := by
    rw [Entry.Reader.token, waiting]
    exact isEnd
  have read : Entry.next s.options.limits s.reader = _ := Entry.next_at_end token
  rw [looked] at read
  have concluded : s.step fuel = s.advanced.conclude .finished := by
    have readable : s.interruption? = none := by
      rw [interruption?, read]
      exact failure
    have atEnd : s.entry.isEnd = true := by
      rw [entry, read]
      rfl
    rw [step_eq, readable, atEnd]
    rfl
  obtain ⟨_, reader⟩ := step_keeps fuel s
  have after : (s.step fuel).2.reader.lookahead = some t ∧
      (s.step fuel).2.reader.cursor.failure = none ∧
      (s.step fuel).2.reader.cursor.feed = s.reader.cursor.feed := by
    rw [reader, advanced, read]
    exact ⟨waiting, rfl, rfl⟩
  refine ⟨?_, ⟨⟨t, after.1, isEnd⟩, after.2.1⟩, ?_⟩
  · rw [concluded]
    exact findsEnd_advanced s
  · rw [requests, after.2.2, requests]

/-! ## Steps of two sessions -/

/-- Sessions that have asked for as many lines, know and hold the same and have written the same. -/
structure SameSoFar (s t : Session) : Prop where
  requests : t.requests = s.requests
  options : t.options = s.options
  scope : t.scope = s.scope
  state : t.state = s.state

/-- The sessions are the same so far, and their feeds have not parted. -/
structure Along (k : Nat) (cause : String) (rest rest' : List Reply) (s t : Session) : Prop
    extends SameSoFar s t where
  reader : s.reader.Over (Cursor.Parting k cause rest rest') t.reader
  ready : s.reader.Ready
  halts : s.reader.Halts
  notYet : s.requests ≤ k

/-- A step fails over the text, leaves all but the reader as it was, and ends the program. -/
structure Cut (cause : String) (s : Session) (r : Step × Session) : Prop where
  failed : r.1 = .failed (.source (.unreadable cause))
  scope : r.2.scope = s.scope
  state : r.2.state = s.state
  halted : r.2.Halted

variable {k : Nat} {cause : String} {rest rest' : List Reply}

/-- Sessions stay along each other, whatever a step makes of what one of them knows and holds, if
the other takes that over. -/
theorem Along.inSetting (h : Along k cause rest rest' s t) {u : Session}
    (options : u.options = s.options) (reader : u.reader = s.reader) :
    Along k cause rest rest' u (u.inSetting t.options t.reader) := by
  obtain ⟨same, readers, ready, halts, notYet⟩ := h
  have requests : u.requests = s.requests := by rw [Session.requests, reader, Session.requests]
  rw [← reader] at readers ready halts
  exact ⟨⟨same.requests.trans requests.symm, same.options.trans options.symm, rfl, rfl⟩,
    readers, ready, halts, Nat.le_trans (Nat.le_of_eq requests) notYet⟩

/-- Two sessions take the same step unless one asks for the line that fails to come, and then it is
cut. -/
theorem Along.step (fuel : Nat) (h : Along k cause rest rest' s t) :
    (t.step fuel).1 = (s.step fuel).1 ∧ Along k cause rest rest' (s.step fuel).2 (t.step fuel).2 ∨
      Cut cause s (s.step fuel) ∧ (s.step fuel).2.requests = k + 1 := by
  obtain ⟨same, readers⟩ :=
    Entry.next_over (Cursor.renewal_parting k cause rest rest') s.options.limits h.reader
  obtain ⟨ready, halts⟩ := Entry.next_halts s.options.limits h.ready h.halts
  rcases readers.cursor.takeFailure with
    ⟨failures, parting, asked, notYet⟩ | ⟨failure, ended, asked⟩
  · left
    have entry : t.entry = s.entry := by rw [Session.entry, Session.entry, h.options, same]
    have cut : t.interruption? = s.interruption? := by
      rw [interruption?, interruption?, h.options, failures]
    have along : Along k cause rest rest' s.advanced t.advanced := by
      refine ⟨⟨?_, h.options, h.scope, h.state⟩, ?_, ?_, halts, notYet⟩
      · rw [requests, requests, advanced, advanced, h.options]
        exact asked.symm
      · rw [advanced, advanced, h.options]
        exact ⟨parting, readers.lookahead, readers.diagnostics, readers.abandoned, readers.sane⟩
      · exact ⟨ready.sound, ready.spelled⟩
    have advanced : t.advanced = s.advanced.inSetting t.advanced.options t.advanced.reader := by
      rw [Session.inSetting, ← along.scope, ← along.state]
    have step : t.step fuel =
        endInSetting t.advanced.options t.advanced.reader (s.step fuel) :=
      step_inSetting entry cut advanced fun _ => by
        rw [along.options]
        rfl
    obtain ⟨options, reader⟩ := step_keeps fuel s
    rw [step]
    exact ⟨rfl, along.inSetting options reader⟩
  · right
    have interrupted : s.interruption? = some cause := failure
    rw [step_eq, interrupted]
    exact ⟨⟨rfl, rfl, rfl, halts ended, rfl⟩, asked⟩

end

/-! ## Sessions over feeds that part -/

section

variable (before rest rest' : List Reply) (cause : String) (options : Options) (sink : Sink)
  (fuel : Nat → Nat)

/-- After `n` steps of a program whose text cannot be read after some replies. -/
def failing (n : Nat) : Session :=
  (start ⟨before ++ .failure cause :: rest, []⟩ options sink).after fuel n

/-- After `n` steps of a program whose text ends after some replies. -/
def ending (n : Nat) : Session :=
  (start ⟨before ++ .endOfInput :: rest', []⟩ options sink).after fuel n

theorem along_start :
    Along before.length cause rest rest' (failing before rest cause options sink fuel 0)
      (ending before rest' options sink fuel 0) where
  requests := rfl
  options := rfl
  scope := rfl
  state := rfl
  reader := ⟨.before (.ofFeed ⟨[], []⟩) (Cursor.sound_ofFeed _) (Nat.zero_add _) fun _ => rfl, rfl,
    rfl, rfl, nofun⟩
  ready := Entry.ready_ofFeed _
  halts := nofun
  notYet := Nat.zero_le _

/-- The sessions have taken the same steps so far, or the first one has been cut. -/
theorem along_or_halted (n : Nat) :
    let s := failing before rest cause options sink fuel
    let t := ending before rest' options sink fuel
    Along before.length cause rest rest' (s n) (t n) ∧
        (∀ m < n, ((t m).step (fuel m)).1 = ((s m).step (fuel m)).1) ∨
      (s n).Halted ∧ before.length < (s n).requests := by
  intro s t
  induction n with
  | zero => exact .inl ⟨along_start before rest rest' cause options sink fuel, nofun⟩
  | succ n ih =>
    rcases ih with ⟨along, steps⟩ | ⟨halted, later⟩
    · rcases along.step (fuel n) with ⟨same, along⟩ | ⟨cut, requests⟩
      · refine .inl ⟨along, fun m less => ?_⟩
        rcases Nat.lt_succ_iff_lt_or_eq.mp less with less | rfl
        · exact steps m less
        · exact same
      · exact .inr ⟨cut.halted, requests ▸ Nat.lt_succ_self _⟩
    · obtain ⟨_, halted, requests⟩ := halted.step (fuel n)
      exact .inr ⟨halted, requests ▸ later⟩

end

/-- A failure to read costs the entry that it cuts.  The session whose feed fails and the one whose
feed ends in the same place take the same steps and are the same, up to the step that asks for the
line there.  In the first session that step fails with the cause, writes nothing and changes nothing
that the session knows and holds, and from the next one on every step finds the end of the program.
-/
theorem read_failure_costs_cut_entry (before rest rest' : List Reply) (cause : String)
    (options : Options) (sink : Sink) (fuel : Nat → Nat) (n : Nat) :
    let s := failing before rest cause options sink fuel
    let t := ending before rest' options sink fuel
    (s n).requests ≤ before.length →
      SameSoFar (s n) (t n) ∧ (∀ m < n, ((t m).step (fuel m)).1 = ((s m).step (fuel m)).1) ∧
      (before.length < (s (n + 1)).requests →
        Cut cause (s n) ((s n).step (fuel n)) ∧
          ∀ m, n < m → FindsEnd (s m) ((s m).step (fuel m))) := by
  intro s t notYet
  rcases along_or_halted before rest rest' cause options sink fuel n with
    ⟨along, steps⟩ | ⟨_, later⟩
  · refine ⟨along.toSameSoFar, steps, fun asks => ?_⟩
    rcases along.step (fuel n) with ⟨_, along⟩ | ⟨cut, _⟩
    · exact absurd along.notYet (Nat.not_le_of_lt asks)
    · refine ⟨cut, fun m later => ?_⟩
      suffices (s m).Halted from (this.step (fuel m)).1
      induction later with
      | refl => exact cut.halted
      | step _ ih => exact (ih.step _).2.1
  · exact absurd notYet (Nat.not_le_of_lt later)

/-- An assignment, and a conditional whose end cannot be read. -/
def cutConditional : List Reply := [.line "x = 2\n", .line "if (x) \x7b print(x)\n"]

theorem cutConditional_cut :
    let s := failing cutConditional [.line "\x7d\n"] "gone" {} {} fun _ => 99
    let t := ending cutConditional [] {} {} fun _ => 99
    SameSoFar (s 1) (t 1) ∧ Cut "gone" (s 1) ((s 1).step 99) ∧ FindsEnd (s 2) ((s 2).step 99) := by
  intro s t
  have notYet : (s 1).requests ≤ cutConditional.length := by decide +kernel
  have asks : cutConditional.length < (s 2).requests := by decide +kernel
  obtain ⟨same, _, failure⟩ :=
    read_failure_costs_cut_entry cutConditional [.line "\x7d\n"] [] "gone" {} {} (fun _ => 99) 1
      notYet
  obtain ⟨cut, finished⟩ := failure asks
  exact ⟨same, cut, finished 2 (Nat.lt_succ_self 1)⟩

end ComplexScript.Session
