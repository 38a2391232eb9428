set_option autoImplicit false

/-!
# Output

A sink takes text and keeps it in the order it was written.  It may refuse any write and any
flush; which ones is part of the sink, by their number, so that a run is a function of it.  A write
that is refused leaves nothing behind.
-/

namespace ComplexScript.Machine

/-- Where output goes. -/
structure Sink where
  /-- Everything written so far. -/
  text : String := ""
  /-- Writes asked for so far. -/
  writes : Nat := 0
  /-- Flushes asked for so far. -/
  flushes : Nat := 0
  /-- Why a write is refused, if it is. -/
  writeRefusal : Nat → Option String := fun _ => none
  /-- Why a flush is refused, if it is. -/
  flushRefusal : Nat → Option String := fun _ => none

namespace Sink

/-- Write a text, or give the cause of the refusal. -/
def write (s : Sink) (text : String) : Option String × Sink :=
  match s.writeRefusal s.writes with
  | some cause => (some cause, { s with writes := s.writes + 1 })
  | none => (none, { s with text := s.text ++ text, writes := s.writes + 1 })

/-- Pass on what has been written, or give the cause of the refusal. -/
def flush (s : Sink) : Option String × Sink :=
  (s.flushRefusal s.flushes, { s with flushes := s.flushes + 1 })

/-- Write texts one after another until one is refused. -/
def writeAll (s : Sink) : List String → Option String × Sink
  | [] => (none, s)
  | text :: texts =>
    match s.write text with
    | (none, s) => s.writeAll texts
    | (some cause, s) => (some cause, s)

end Sink

end ComplexScript.Machine
