import ComplexScript.Proofs.Entry.Budget
import ComplexScript.Proofs.Entry.Trees
import ComplexScript.Proofs.Session.Outcomes
set_option autoImplicit false

/-!
# What a step makes of its entry

Once a step has read its entry, it looks at the scope and the state of its session alone, and at the
limit on calls if it comes to a run.  The limits and the reader (`Session.inSetting`) make no other
difference to how the step ends, and are there unchanged when it has ended (`step_inSetting`,
`step_keeps`).
-/

namespace ComplexScript.Session

open ComplexScript.Machine
open ComplexScript.Program

/-- The session under other limits and with another reader. -/
def inSetting (options : Options) (reader : Entry.Reader) (s : Session) : Session :=
  { s with options := options, reader := reader }

/-- The end of a step under other limits and with another reader. -/
def endInSetting (options : Options) (reader : Entry.Reader) (r : Step × Session) :
    Step × Session := (r.1, r.2.inSetting options reader)

variable {s t : Session} {fuel : Nat} {options : Options} {reader : Entry.Reader}

theorem conclude_inSetting (outcome : Outcome) (s : Session) :
    (s.inSetting options reader).conclude outcome =
      endInSetting options reader (s.conclude outcome) := by
  have sink : (s.inSetting options reader).sink = s.sink := rfl
  unfold conclude
  dsimp only
  rw [sink]
  cases s.sink.flush.1 <;> rfl

/-- Lines are written, and then either the step goes on or the refusal ends it. -/
theorem report_inSetting (lines : List String) (s : Session) (next : Session → Step × Session)
    (goOn : ∀ t : Session,
      next (t.inSetting options reader) = endInSetting options reader (next t)) :
    (match ((s.inSetting options reader).writeLines lines).1 with
      | none => next ((s.inSetting options reader).writeLines lines).2
      | some cause =>
        (.failed (.output cause), ((s.inSetting options reader).writeLines lines).2)) =
    endInSetting options reader
      (match (s.writeLines lines).1 with
        | none => next (s.writeLines lines).2
        | some cause => (.failed (.output cause), (s.writeLines lines).2)) := by
  have refusal : ((s.inSetting options reader).writeLines lines).1 = (s.writeLines lines).1 := rfl
  have after : ((s.inSetting options reader).writeLines lines).2 =
      (s.writeLines lines).2.inSetting options reader := rfl
  rw [refusal, after]
  cases (s.writeLines lines).1 with
  | none => exact goOn _
  | some cause => rfl

theorem reject_inSetting (lines : List String) (s : Session) :
    (s.inSetting options reader).reject lines =
      endInSetting options reader (s.reject lines) :=
  report_inSetting lines s _ (conclude_inSetting .rejected)

/-- A run that ends in the same way under both limits leaves the same session. -/
theorem run_inSetting {node : Node} {before : Session}
    (same : evaluate options.callDepth fuel node s.state =
      evaluate s.options.callDepth fuel node s.state) :
    run fuel node (before.inSetting options reader) (s.inSetting options reader) =
      endInSetting options reader (run fuel node before s) := by
  have same : evaluate (s.inSetting options reader).options.callDepth fuel node
      (s.inSetting options reader).state = evaluate s.options.callDepth fuel node s.state := same
  unfold run
  rw [same]
  cases evaluate s.options.callDepth fuel node s.state with
  | ok flow t =>
    dsimp only
    cases flow.printable? with
    | none => exact conclude_inSetting _ { s with state := t }
    | some z => exact report_inSetting _ { s with state := t } _ (conclude_inSetting _)
  | error halt t =>
    cases halt with
    | outOfFuel => rfl
    | fault fault =>
      cases fault with
      | output cause => rfl
      | arithmetic _ | unboundVariable _ | undefinedFunction _ | callDepthExceeded _ =>
        exact report_inSetting _ { s with scope := _, state := _ } _ (conclude_inSetting _)

theorem process_inSetting {node : Node}
    (same : (s.scope.checkEntry node).2 = [] → evaluate options.callDepth fuel node s.state =
      evaluate s.options.callDepth fuel node s.state) :
    process fuel node (s.inSetting options reader) =
      endInSetting options reader (process fuel node s) := by
  have scope : (s.inSetting options reader).scope = s.scope := rfl
  unfold process
  dsimp only
  rw [scope]
  split
  · next right =>
    exact run_inSetting (s := { s with scope := _ }) (same (List.isEmpty_iff.mp right))
  · exact report_inSetting _ { s with scope := _ }
      (fun t => { t with scope := s.scope }.conclude .rejected)
      fun t => conclude_inSetting .rejected { t with scope := s.scope }

/-- The failure that cut the next entry, if there is one. -/
def interruption? (s : Session) : Option String :=
  (Entry.next s.options.limits s.reader).2.cursor.failure

/-- Once the entry is read, a step looks at the session that has read it. -/
theorem step_eq (fuel : Nat) (s : Session) :
    s.step fuel =
      match s.interruption? with
      | some cause => (.failed (.source (.unreadable cause)), s.advanced)
      | none =>
        if s.entry.isEnd then s.advanced.conclude .finished
        else if !s.entry.diagnostics.isEmpty then
          s.advanced.reject (s.entry.diagnostics.map (·.render s.entry.text))
        else if s.entry.node.isNoOp then s.advanced.conclude .empty
        else s.advanced.process fuel s.entry.node := rfl

/-- Two steps end in the same way if they have read the same entry, in sessions that then differ in
their limits and readers alone, and their runs, if it comes to runs, end in the same way. -/
theorem step_inSetting (entry : t.entry = s.entry) (cut : t.interruption? = s.interruption?)
    (advanced : t.advanced = s.advanced.inSetting options reader)
    (same : s.Accepted → evaluate options.callDepth fuel s.entry.node s.state =
      evaluate s.options.callDepth fuel s.entry.node s.state) :
    t.step fuel = endInSetting options reader (s.step fuel) := by
  rw [step_eq, step_eq, entry, cut, advanced]
  split
  · rfl
  next readable =>
  split
  · exact conclude_inSetting .finished s.advanced
  next notEnd =>
  split
  · exact reject_inSetting _ s.advanced
  next clean =>
  split
  · exact conclude_inSetting .empty s.advanced
  next notEmpty =>
  refine process_inSetting (s := s.advanced) fun right => same ?_
  exact
    { readable := readable
      notEnd := Bool.eq_false_iff.mpr notEnd
      clean := by simpa using clean
      notEmpty := Bool.eq_false_iff.mpr notEmpty
      right := right }

/-- A step has left the limits as they are, and the reader as it was before. -/
def Keeps (s : Session) (r : Step × Session) : Prop :=
  r.2.options = s.options ∧ r.2.reader = s.reader

/-- Nothing of a step but reading its entry moves the reader. -/
theorem step_keeps (fuel : Nat) (s : Session) : Keeps s.advanced (s.step fuel) := by
  have same : s.step fuel = endInSetting s.options s.advanced.reader (s.step fuel) :=
    step_inSetting rfl rfl rfl fun _ => rfl
  rw [Keeps, same]
  exact ⟨rfl, rfl⟩

/-! ## Steps after each other -/

/-- The session after `n` steps, each with a budget of its own. -/
def after (fuel : Nat → Nat) : Nat → Session → Session
  | 0, s => s
  | n + 1, s => ((s.after fuel n).step (fuel n)).2

/-- The reader is in a state that reading an entry can begin in. -/
theorem after_readable (feed : Text.Feed) (options : Options) (sink : Sink) (fuel : Nat → Nat)
    (n : Nat) :
    let s := (start feed options sink).after fuel n
    s.options = options ∧ s.reader.Sane ∧ s.reader.cursor.Sound := by
  induction n with
  | zero => exact ⟨rfl, nofun, Text.Cursor.sound_ofFeed feed⟩
  | succ n ih =>
    obtain ⟨kept, sane, sound⟩ := ih
    obtain ⟨options', reader⟩ := step_keeps (fuel n) ((start feed options sink).after fuel n)
    obtain ⟨_, t, _, read, after⟩ := Entry.next_read
      ((start feed options sink).after fuel n).options.limits sound
    dsimp only [Session.after]
    rw [options', reader]
    refine ⟨kept, (Entry.next_sane _ sane).1, ?_⟩
    rw [advanced, read]
    exact after.1

end ComplexScript.Session
