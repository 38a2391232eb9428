import ComplexScript.Entry.Basic
import ComplexScript.Machine.Evaluation
import ComplexScript.Scope
import ComplexScript.Text.Failure
set_option autoImplicit false

/-!
# Sessions

A session reads, checks and runs a program one entry at a time; definitions and top-level variables
stay from one entry to the next.  `Session.step` takes one entry as far as it goes: it ends the
session, is empty, is rejected for its text or its names, is evaluated, or is cut short by a fault
and undone.  Apart from these a step can fail, when the text cannot be read or the output cannot be
written.
-/

namespace ComplexScript

open ComplexScript.Machine
open ComplexScript.Program

namespace Session

/-- The limits of a session. -/
structure Options where
  /-- Calls in progress at one point. -/
  callDepth : Nat := 1000
  /-- How deep a text may be nested. -/
  limits : Entry.Limits := {}
  deriving DecidableEq, Repr, Inhabited

/-- What became of an entry. -/
inductive Outcome where
  /-- the program has ended -/
  | finished
  /-- an empty statement -/
  | empty
  /-- mistakes in the text or its names; nothing was run -/
  | rejected
  /-- the entry was run, with the number that was shown if there was one -/
  | evaluated (shown : Option Number)
  /-- a fault cut the run short, and its effects were undone -/
  | faulted (fault : Fault)
  deriving DecidableEq, Repr, Inhabited

/-- Why a session cannot go on. -/
inductive Failure where
  /-- the program text could not be read -/
  | source (failure : Text.Failure)
  /-- the output refused a write or a flush -/
  | output (cause : String)
  deriving DecidableEq, Repr, Inhabited

namespace Failure

/-- The message for a failure. -/
def message : Failure → String
  | source failure => failure.message
  | output _ => "failed to write output"

/-- The code that a failure is filed under. -/
def code : Failure → String
  | source failure => failure.code
  | output _ => "cxl::session::output"

/-- Advice on a failure. -/
def help? : Failure → Option String
  | source failure => failure.help?
  | output _ => none

/-- The cause that a device gave. -/
def cause? : Failure → Option String
  | source failure => failure.cause?
  | output cause => some cause

end Failure

/-- How a step ended. -/
inductive Step where
  | done (outcome : Outcome)
  | failed (failure : Failure)
  /-- the budget for the run was used up -/
  | unfinished
  deriving DecidableEq, Repr, Inhabited

end Session

/-- A session: how far the program has been read, what is known of its names, and what running it
has come to. -/
structure Session where
  options : Session.Options := {}
  reader : Entry.Reader
  scope : Scope := {}
  state : State := {}

namespace Session

/-- A session at the start of a program. -/
def start (feed : Text.Feed) (options : Options := {}) (sink : Sink := {}) : Session :=
  { options := options, reader := .ofFeed feed, state := { sink := sink } }

/-- The environment of a session. -/
def environment (s : Session) : Environment := s.state.environment

/-- The output of a session. -/
def sink (s : Session) : Sink := s.state.sink

/-- Put the output of a session in another state. -/
def withSink (s : Session) (sink : Sink) : Session :=
  { s with state := { s.state with sink := sink } }

/-- Write lines to the output of a session; the cause if one is refused. -/
def writeLines (s : Session) (lines : List String) : Option String × Session :=
  let w := s.sink.writeAll (lines.map (· ++ "\n"))
  (w.1, s.withSink w.2)

/-- End a step with an outcome, which takes a flush of the output. -/
def conclude (outcome : Outcome) (s : Session) : Step × Session :=
  let f := s.sink.flush
  match f.1 with
  | none => (.done outcome, s.withSink f.2)
  | some cause => (.failed (.output cause), s.withSink f.2)

/-- Report what is wrong with an entry, and reject it. -/
def reject (lines : List String) (s : Session) : Step × Session :=
  let w := s.writeLines lines
  match w.1 with
  | none => w.2.conclude .rejected
  | some cause => (.failed (.output cause), w.2)

/-- Run a tree without mistakes.  `before` is the session that a fault takes everything but the
output back to. -/
def run (fuel : Nat) (node : Node) (before s : Session) : Step × Session :=
  match evaluate s.options.callDepth fuel node s.state with
  | .ok flow state =>
    let s := { s with state := state }
    match flow.printable? with
    | none => s.conclude (.evaluated none)
    | some z =>
      let w := s.writeLines [z.render]
      match w.1 with
      | none => w.2.conclude (.evaluated (some z))
      | some cause => (.failed (.output cause), w.2)
  | .error .outOfFuel state => (.unfinished, { s with state := state })
  | .error (.fault (.output cause)) state => (.failed (.output cause), { s with state := state })
  | .error (.fault fault) state =>
    let s :=
      { s with
        scope := before.scope
        state := { state with environment := before.environment.topLevel } }
    let w := s.writeLines ["Runtime error: " ++ fault.message]
    match w.1 with
    | none => w.2.conclude (.faulted fault)
    | some cause => (.failed (.output cause), w.2)

/-- Check a tree, and run it if it has no mistakes.  Mistakes are reported in the scope that the
check left, and the scope before it comes back when that is done. -/
def process (fuel : Nat) (node : Node) (s : Session) : Step × Session :=
  let c := s.scope.checkEntry node
  let checked := { s with scope := c.1 }
  if c.2.isEmpty then run fuel node s checked
  else
    let w := checked.writeLines (c.2.map Mistake.message)
    match w.1 with
    | none => { w.2 with scope := s.scope }.conclude .rejected
    | some cause => (.failed (.output cause), w.2)

/-- Read, check and run the next entry, with a budget for the run. -/
def step (fuel : Nat) (s : Session) : Step × Session :=
  let next := Entry.next s.options.limits s.reader
  let entry := next.1
  let taken := next.2.cursor.takeFailure
  let s := { s with reader := { next.2 with cursor := taken.2 } }
  match taken.1 with
  | some cause => (.failed (.source (.unreadable cause)), s)
  | none =>
    if entry.isEnd then s.conclude .finished
    else if !entry.diagnostics.isEmpty then
      s.reject (entry.diagnostics.map (·.render entry.text))
    else if entry.node.isNoOp then s.conclude .empty
    else s.process fuel entry.node

/-- How a session ended. -/
inductive Ending where
  /-- the program ended -/
  | finished
  | failed (failure : Failure)
  /-- a budget was used up -/
  | unfinished
  deriving DecidableEq, Repr, Inhabited

/-- Take at most `n` steps, up to the end of the program or the first failure. -/
def stepsUpTo (fuel : Nat) : Nat → Session → Ending × Session
  | 0, s => (.unfinished, s)
  | n + 1, s =>
    let t := s.step fuel
    match t.1 with
    | .done .finished => (.finished, t.2)
    | .done _ => stepsUpTo fuel n t.2
    | .failed failure => (.failed failure, t.2)
    | .unfinished => (.unfinished, t.2)

/-- Run a session to its end, with a budget for each run.  Every entry but the end uses a token, so
the characters to come bound the number of steps. -/
def complete (fuel : Nat) (s : Session) : Ending × Session :=
  s.stepsUpTo fuel (s.reader.cursor.size + 2)

end Session

end ComplexScript
