import ComplexScript.Proofs.Machine.Frames
import ComplexScript.Session
set_option autoImplicit false

/-!
# Steps of a session

`Session.Effect` lists what a step can do to the scope and the environment: `step_effect` is the
one place where the branches of a step are looked at.  `Session.Reachable` is every session that
steps lead to from a start, past steps that failed as well as past those that did not.
-/

namespace ComplexScript.Session

open ComplexScript.Machine
open ComplexScript.Program

variable {s : Session} {fuel : Nat}

/-- Between calls the environment is at its top level. -/
theorem topLevel_eq_self (noCalls : s.environment.calls = []) :
    s.environment.topLevel = s.environment := by
  rw [Environment.topLevel, ← noCalls]

/-! ## What a step can do -/

/-- The end of a step changes the output alone, and it is the outcome unless the flush fails. -/
theorem conclude_eq (outcome : Outcome) (s : Session) :
    (∃ sink, (conclude outcome s).2 = s.withSink sink) ∧
      ((conclude outcome s).1 = .done outcome ∨
        ∃ failure, (conclude outcome s).1 = .failed failure) := by
  unfold conclude
  dsimp only
  cases s.sink.flush.1 with
  | none => exact ⟨⟨_, rfl⟩, .inl rfl⟩
  | some cause => exact ⟨⟨_, rfl⟩, .inr ⟨.output cause, rfl⟩⟩

/-- The entry that the next step is about. -/
def entry (s : Session) : Entry := (Entry.next s.options.limits s.reader).1

/-- The session that has read its next entry. -/
def advanced (s : Session) : Session :=
  let r := (Entry.next s.options.limits s.reader).2
  { s with reader := { r with cursor := r.cursor.takeFailure.2 } }

/-- What checking the next entry gives. -/
def checked (s : Session) : Scope × List Mistake := s.scope.checkEntry s.entry.node

/-- What a step can do.  The session has always read its entry, and its output may have changed. -/
inductive Effect (fuel : Nat) (s : Session) (r : Step × Session) : Prop where
  /-- the entry was not run, and what was wrong with it was reported -/
  | untouched (session : ∃ sink, r.2 = s.advanced.withSink sink)
  /-- the output refused the report on the mistakes in the entry -/
  | mistaken (clean : s.entry.diagnostics = []) (wrong : s.checked.2 ≠ [])
    (failed : ∃ failure, r.1 = .failed failure)
    (session : ∃ sink, r.2 = { s.advanced with scope := s.checked.1 }.withSink sink)
  /-- the entry was run, if only up to a write that was refused -/
  | ran (clean : s.entry.diagnostics = []) (right : s.checked.2 = [])
    (finished : ∀ t, evaluate s.options.callDepth fuel s.entry.node s.state ≠ .error .outOfFuel t)
    (ended : (∃ shown, r.1 = .done (.evaluated shown)) ∨ ∃ failure, r.1 = .failed failure)
    (session : ∃ sink, r.2 =
      { s.advanced with
        scope := s.checked.1
        state := (evaluate s.options.callDepth fuel s.entry.node).after s.state }.withSink sink)
  /-- the entry was run into a fault -/
  | undone (session : ∃ sink, r.2 =
      { s.advanced with state := { s.state with environment := s.environment.topLevel } }.withSink
        sink)
  | unfinished (unfinished : r.1 = .unfinished)

theorem reject_effect (lines : List String) : Effect fuel s (s.advanced.reject lines) := by
  unfold reject
  dsimp only
  split
  · exact .untouched (conclude_eq _ _).1
  · exact .untouched ⟨_, rfl⟩

theorem run_effect (clean : s.entry.diagnostics = []) (right : s.checked.2 = []) :
    Effect fuel s
      (run fuel s.entry.node s.advanced { s.advanced with scope := s.checked.1 }) := by
  unfold run
  split
  · next flow state evaluated =>
    have evaluated : evaluate s.options.callDepth fuel s.entry.node s.state = .ok flow state :=
      evaluated
    have after : (evaluate s.options.callDepth fuel s.entry.node).after s.state = state :=
      Eval.after_of_ok evaluated
    have finished : ∀ t, evaluate s.options.callDepth fuel s.entry.node s.state ≠
        .error .outOfFuel t := by
      intro t
      rw [evaluated]
      exact nofun
    dsimp only
    split
    · obtain ⟨concluded, ended⟩ := conclude_eq (.evaluated none)
        { s.advanced with scope := s.checked.1, state := state }
      refine .ran clean right finished (ended.imp_left fun h => ⟨none, h⟩) ?_
      rw [after]
      exact concluded
    · next z _ =>
      split
      · obtain ⟨concluded, ended⟩ := conclude_eq (.evaluated (some z))
          ({ s.advanced with scope := s.checked.1, state := state }.writeLines [z.render]).2
        refine .ran clean right finished (ended.imp_left fun h => ⟨some z, h⟩) ?_
        rw [after]
        exact concluded
      · next cause _ =>
        refine .ran clean right finished (.inr ⟨.output cause, rfl⟩) ?_
        rw [after]
        exact ⟨_, rfl⟩
  · exact .unfinished rfl
  · next cause state evaluated =>
    have evaluated : evaluate s.options.callDepth fuel s.entry.node s.state =
        .error (.fault (.output cause)) state := evaluated
    have after : (evaluate s.options.callDepth fuel s.entry.node).after s.state = state :=
      Eval.after_of_error evaluated
    refine .ran clean right ?_ (.inr ⟨.output cause, rfl⟩) ⟨state.sink, ?_⟩
    · intro t
      rw [evaluated]
      exact nofun
    · rw [after]
      rfl
  · next fault state _ _ =>
    dsimp only
    split
    · exact .undone (conclude_eq _ _).1
    · exact .undone ⟨_, rfl⟩

theorem process_effect (clean : s.entry.diagnostics = []) :
    Effect fuel s (process fuel s.entry.node s.advanced) := by
  unfold process
  dsimp only
  split
  · next right => exact run_effect clean (List.isEmpty_iff.mp right)
  · next wrong =>
    have wrong : s.checked.2 ≠ [] := fun h => wrong (List.isEmpty_iff.mpr h)
    split
    · exact .untouched (conclude_eq _ _).1
    · next cause _ => exact .mistaken clean wrong ⟨.output cause, rfl⟩ ⟨_, rfl⟩

/-- Every step has one of the effects. -/
theorem step_effect (fuel : Nat) (s : Session) : Effect fuel s (s.step fuel) := by
  unfold step
  dsimp only
  split
  · exact .untouched ⟨s.sink, rfl⟩
  · split
    · exact .untouched (conclude_eq _ _).1
    · split
      · exact reject_effect _
      · next clean =>
        have clean : s.entry.diagnostics = [] := by
          rw [entry]
          simpa using clean
        split
        · exact .untouched (conclude_eq _ _).1
        · exact process_effect clean

/-! ## Reachable sessions -/

/-- The sessions that any number of steps leads to, whatever they end with.  A step whose budget
is used up is no step: it has a result on a greater budget or on none. -/
inductive Reachable : Session → Prop where
  | start (feed : Text.Feed) (options : Options) (sink : Sink) :
    Reachable (Session.start feed options sink)
  | step {s : Session} (fuel : Nat) (before : Reachable s)
    (finished : (s.step fuel).1 ≠ .unfinished) : Reachable (s.step fuel).2

/-- The sessions that steps lead to of which each has a property, on the budget it is made with. -/
inductive ReachableBy (P : Session → Nat → Prop) : Session → Prop where
  | start (feed : Text.Feed) (options : Options) (sink : Sink) :
    ReachableBy P (Session.start feed options sink)
  | step {s : Session} (fuel : Nat) (before : ReachableBy P s)
    (finished : (s.step fuel).1 ≠ .unfinished) (kept : P s fuel) : ReachableBy P (s.step fuel).2

theorem ReachableBy.reachable {P : Session → Nat → Prop} (h : ReachableBy P s) : Reachable s := by
  induction h with
  | start feed options sink => exact .start feed options sink
  | step fuel _ finished _ ih => exact .step fuel ih finished

/-- Between steps no call is in progress. -/
theorem Reachable.calls_eq_nil (reachable : Reachable s) : s.environment.calls = [] := by
  induction reachable with
  | start feed options sink => rfl
  | @step s fuel before finished ih =>
    cases step_effect fuel s with
    | untouched session =>
      obtain ⟨sink, session⟩ := session
      rw [session]
      exact ih
    | mistaken clean wrong failed session =>
      obtain ⟨sink, session⟩ := session
      rw [session]
      exact ih
    | ran clean right finished ended session =>
      obtain ⟨sink, session⟩ := session
      have within := Task.within s.options.callDepth fuel (.tree s.entry.node) s.state
      have depth : (s.step fuel).2.environment.calls.length = s.environment.calls.length := by
        rw [session]
        exact within.depth
      rw [ih] at depth
      exact List.length_eq_zero_iff.mp depth
    | undone session =>
      obtain ⟨sink, session⟩ := session
      rw [session]
      rfl
    | unfinished unfinished => exact absurd unfinished finished

end ComplexScript.Session
