import ComplexScript.Proofs.Machine.Sinks
import ComplexScript.Proofs.Session.Steps
set_option autoImplicit false

/-!
# Entries without effect

An entry that is rejected, or undone after a fault, leaves nothing behind but its output
(`entry_without_effect`): the names known and all variables and functions are as before, and what
the session does from there on is what it does if the entry is read and never looked at.  That is a
statement about two sessions, so the module first shows that sessions which differ in their output
alone keep in step (`Alike.step`), from one step to whole runs (`transcript_eq`).
-/

namespace ComplexScript.Session

open ComplexScript.Machine
open ComplexScript.Program

variable {base base' : String} {s t : Session}

/-! ## Sessions that differ in their output -/

/-- Two states of a run that differ in the sink alone, where the sinks have taken the same text
since they held `base` and `base'`. -/
def AlikeState (base base' : String) (x y : State) : Prop :=
  x.environment = y.environment ∧ Sink.Alike base base' x.sink y.sink

/-- Two sessions that differ in their output alone, and have written the same text since it was
`base` in the one and `base'` in the other. -/
inductive Alike (base base' : String) : Session → Session → Prop where
  | intro (options : Options) (reader : Entry.Reader) (scope : Scope) {x y : State}
    (states : AlikeState base base' x y) :
    Alike base base' ⟨options, reader, scope, x⟩ ⟨options, reader, scope, y⟩

/-- Two steps that end alike, in sessions that are alike. -/
def EndAlike (base base' : String) (r r' : Step × Session) : Prop :=
  r.1 = r'.1 ∧ Alike base base' r.2 r'.2

theorem Alike.sink (h : Alike base base' s t) : Sink.Alike base base' s.sink t.sink := by
  cases h with
  | intro _ _ _ states => exact states.2

theorem Alike.withSink (h : Alike base base' s t) {k k' : Sink}
    (sinks : Sink.Alike base base' k k') : Alike base base' (s.withSink k) (t.withSink k') := by
  cases h with
  | intro options reader scope states => exact .intro options reader scope ⟨states.1, sinks⟩

theorem Alike.conclude (h : Alike base base' s t) (outcome : Outcome) :
    EndAlike base base' (s.conclude outcome) (t.conclude outcome) := by
  obtain ⟨same, sinks⟩ := h.sink.flush
  have after := h.withSink sinks
  unfold Session.conclude
  dsimp only
  rw [← same]
  cases s.sink.flush.1 with
  | none => exact ⟨rfl, after⟩
  | some cause => exact ⟨rfl, after⟩

/-- Lines are written, and then either the step goes on or the refusal ends it. -/
theorem Alike.report (h : Alike base base' s t) (lines : List String)
    (next next' : Session → Step × Session)
    (goOn : ∀ u v, Alike base base' u v → EndAlike base base' (next u) (next' v)) :
    EndAlike base base'
      (match (s.writeLines lines).1 with
        | none => next (s.writeLines lines).2
        | some cause => (.failed (.output cause), (s.writeLines lines).2))
      (match (t.writeLines lines).1 with
        | none => next' (t.writeLines lines).2
        | some cause => (.failed (.output cause), (t.writeLines lines).2)) := by
  obtain ⟨same, sinks⟩ := h.sink.writeAll (lines.map (· ++ "\n"))
  have after : Alike base base' (s.writeLines lines).2 (t.writeLines lines).2 := h.withSink sinks
  have same : (s.writeLines lines).1 = (t.writeLines lines).1 := same
  rw [← same]
  cases (s.writeLines lines).1 with
  | none => exact goOn _ _ after
  | some cause => exact ⟨rfl, after⟩

theorem Alike.reject (h : Alike base base' s t) (lines : List String) :
    EndAlike base base' (s.reject lines) (t.reject lines) :=
  h.report lines _ _ fun _ _ after => after.conclude .rejected

theorem Alike.run {before before' : Session} (began : Alike base base' before before')
    (h : Alike base base' s t) (fuel : Nat) (node : Node) :
    EndAlike base base' (Session.run fuel node before s) (Session.run fuel node before' t) := by
  obtain ⟨_, _, scope, states⟩ := began
  obtain ⟨options, reader, checked, states'⟩ := h
  have agree : Eval.Agrees (AlikeState base base') (fun _ => False)
      (evaluate options.callDepth fuel node) (evaluate options.callDepth fuel node) _ _ :=
    Task.agrees (lockstep_alike base base') (.inl rfl) (.inl rfl) (.tree node) (d := 0) states'
  obtain ⟨agreeOk, agreeError⟩ := agree
  unfold Session.run
  dsimp only
  split
  · next flow x evaluated =>
    obtain ⟨y, evaluated', related⟩ := agreeOk flow x evaluated
    rw [evaluated']
    dsimp only
    cases flow.printable? with
    | none => exact Alike.conclude (.intro options reader checked related) (.evaluated none)
    | some z =>
      exact Alike.report (.intro options reader checked related) _ _ _ fun _ _ after =>
        after.conclude (.evaluated (some z))
  · next x evaluated =>
    obtain ⟨y, evaluated', related⟩ := agreeError _ x evaluated id
    rw [evaluated']
    exact ⟨rfl, .intro options reader checked related⟩
  · next cause x evaluated =>
    obtain ⟨y, evaluated', related⟩ := agreeError _ x evaluated id
    rw [evaluated']
    exact ⟨rfl, .intro options reader checked related⟩
  · next fault x notOutput evaluated =>
    obtain ⟨y, evaluated', related⟩ := agreeError _ x evaluated id
    rw [evaluated']
    have undone : AlikeState base base' ⟨_, x.sink⟩ ⟨_, y.sink⟩ :=
      ⟨congrArg Environment.topLevel states.1, related.2⟩
    cases fault with
    | output cause => exact absurd rfl (notOutput cause)
    | arithmetic _ | unboundVariable _ | undefinedFunction _ | callDepthExceeded _ =>
      exact Alike.report (.intro options reader scope undone) _ _ _ fun _ _ after =>
        after.conclude (.faulted _)

theorem Alike.process (h : Alike base base' s t) (fuel : Nat) (node : Node) :
    EndAlike base base' (s.process fuel node) (t.process fuel node) := by
  have before := h
  obtain ⟨options, reader, scope, states⟩ := h
  have checked := Alike.intro options reader (scope.checkEntry node).1 states
  unfold Session.process
  dsimp only
  split
  · exact before.run checked fuel node
  · refine checked.report _ (fun u => { u with scope := scope }.conclude .rejected)
      (fun u => { u with scope := scope }.conclude .rejected) fun u v after => ?_
    obtain ⟨options, reader, _, states⟩ := after
    exact Alike.conclude (.intro options reader scope states) .rejected

/-- Sessions that differ in their output alone keep in step. -/
theorem Alike.step (h : Alike base base' s t) (fuel : Nat) :
    EndAlike base base' (s.step fuel) (t.step fuel) := by
  obtain ⟨options, reader, scope, states⟩ := h
  have advanced := fun r => Alike.intro options r scope states
  unfold Session.step
  dsimp only
  split
  · exact ⟨rfl, advanced _⟩
  · split
    · exact (advanced _).conclude .finished
    · split
      · exact (advanced _).reject _
      · split
        · exact (advanced _).conclude .empty
        · exact (advanced _).process fuel _

/-! ## Runs -/

/-- The text that the output has taken from one session to a later one. -/
def added (s t : Session) : String :=
  String.ofList (t.sink.text.toList.drop s.sink.text.length)

/-- What can be seen of a run that makes one step with each of the budgets: how each step ends and
the text that it writes. -/
def transcript : List Nat → Session → List (Step × String)
  | [], _ => []
  | fuel :: fuels, s =>
    let r := s.step fuel
    (r.1, added s r.2) :: transcript fuels r.2

theorem added_eq {text : String} (h : t.sink.text = s.sink.text ++ text) : added s t = text := by
  rw [added, h, String.toList_append, ← String.length_toList, List.drop_left, String.ofList_toList]

/-- Runs of sessions that differ in their output alone cannot be told apart. -/
theorem transcript_eq (h : Alike base base' s t) (fuels : List Nat) :
    transcript fuels s = transcript fuels t := by
  induction fuels generalizing base base' s t with
  | nil => rfl
  | cons fuel fuels ih =>
    have here : Alike s.sink.text t.sink.text s t := by
      obtain ⟨options, reader, scope, same, sinks⟩ := h
      exact .intro options reader scope ⟨same, sinks.toRefusesAlike.alike⟩
    obtain ⟨same, after⟩ := here.step fuel
    obtain ⟨text, left, right⟩ := after.sink.added
    rw [transcript, transcript, same, added_eq left, added_eq right, ih after]

/-! ## Entries without effect -/

/-- An entry that is rejected, or whose run ends in a fault, leaves all names, variables, functions
and calls as they were before it.  From there on the session ends its steps and writes as it would
if the entry had been read and never checked or run, whatever either has written before. -/
theorem entry_without_effect {fuel : Nat} (reachable : Reachable s)
    (ended : (s.step fuel).1 = .done .rejected ∨
      ∃ fault, (s.step fuel).1 = .done (.faulted fault)) :
    (s.step fuel).2.scope = s.scope ∧ (s.step fuel).2.environment = s.environment ∧
      ∀ sink, Sink.RefusesAlike (s.step fuel).2.sink sink → ∀ fuels,
        transcript fuels (s.step fuel).2 = transcript fuels (s.advanced.withSink sink) := by
  have undone : ∃ sink, (s.step fuel).2 = s.advanced.withSink sink := by
    cases step_effect fuel s with
    | untouched session => exact session
    | mistaken _ _ failed _ =>
      obtain ⟨failure, failed⟩ := failed
      rw [failed] at ended
      rcases ended with h | ⟨_, h⟩ <;> cases h
    | ran _ _ _ result _ =>
      rcases result with ⟨shown, result⟩ | ⟨failure, result⟩ <;> rw [result] at ended <;>
        rcases ended with h | ⟨_, h⟩ <;> cases h
    | undone session =>
      obtain ⟨sink, session⟩ := session
      have topLevel : s.environment.topLevel = s.environment := by
        rw [Environment.topLevel, ← reachable.calls_eq_nil]
      rw [topLevel] at session
      exact ⟨sink, session⟩
    | unfinished unfinished =>
      rw [unfinished] at ended
      rcases ended with h | ⟨_, h⟩ <;> cases h
  obtain ⟨sink, session⟩ := undone
  rw [session]
  refine ⟨rfl, rfl, fun other refuses fuels => ?_⟩
  have alike : Alike sink.text other.text (s.advanced.withSink sink) (s.advanced.withSink other) :=
    .intro _ _ _ ⟨rfl, refuses.alike⟩
  exact transcript_eq alike fuels

/-- A session that has defined a function which calls itself without end, and is about to call
it. -/
def runaway : Session :=
  ((start ⟨[.line "fun f() { f() }\n", .line "f()\n"], []⟩ { callDepth := 3 }).step 9).2

theorem runaway_call_without_effect :
    (runaway.step 99).1 = .done (.faulted (.callDepthExceeded 3)) ∧
      (runaway.step 99).2.scope = runaway.scope ∧
      (runaway.step 99).2.environment = runaway.environment := by
  have reachable : Reachable runaway := .step 9 (.start _ _ _) (by decide +kernel)
  have faulted : (runaway.step 99).1 = .done (.faulted (.callDepthExceeded 3)) := by
    decide +kernel
  obtain ⟨scope, environment, _⟩ := entry_without_effect reachable (.inr ⟨_, faulted⟩)
  exact ⟨faulted, scope, environment⟩

end ComplexScript.Session
