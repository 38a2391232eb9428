import ComplexScript.Diagnostic
import ComplexScript.Program.Node
set_option autoImplicit false

/-!
# Reading entries: one token ahead

An entry is read token by token with one token of lookahead, which is fetched only when a rule
looks at it.  This module has the state of that (`Reader`) and the moves that the grammar rules are
made of: looking, accepting, expecting, reporting, and giving up on a text that is nested too deep.

The rules recurse on a budget.  A move that has run out of it has no result (`starved`), which is
kept apart from every answer about the text.
-/

namespace ComplexScript.Entry

open ComplexScript.Program
open ComplexScript.Text
open ComplexScript.Token (Kind Lexeme Scan)

/-- How deep a text may be nested. -/
structure Limits where
  /-- Groups, blocks and prefix operators open at one point. -/
  nesting : Nat := 200
  /-- Right operands and assigned values open at one point, and statements run together. -/
  chain : Nat := 5000
  deriving DecidableEq, Repr, Inhabited

/-- Where a rule stands in the text around it. -/
structure Context where
  limits : Limits
  /-- Groups, blocks and prefix operators open here. -/
  depth : Nat := 0
  /-- Right operands, assigned values and run-together statements open here. -/
  chain : Nat := 0
  /-- Groups, argument lists and statement headers open here. -/
  groups : Nat := 0
  deriving DecidableEq, Repr, Inhabited

/-- The state of reading. -/
structure Reader where
  cursor : Cursor
  /-- The token looked at and not used yet; `none` when the next look has to fetch one. -/
  lookahead : Option Token := none
  /-- Complaints about the entry so far, in order. -/
  diagnostics : List Diagnostic := []
  /-- The entry has been given up as too deep: nothing more is reported about it. -/
  abandoned : Bool := false
  deriving DecidableEq, Repr, Inhabited

/-- A move of the reader; `none` when its budget ran out. -/
abbrev Read := StateT Reader Option

namespace Read

/-- The budget has run out. -/
def starved {α : Type} : Read α := fun _ => none

/-- A token read is the lookahead, and a fault found in reading it joins the diagnostics, also
those of an entry given up. -/
def fetched (r : Reader) (x : Lexeme) (cursor : Cursor) : Reader :=
  { r with
    cursor := cursor
    lookahead := some x.token
    diagnostics := r.diagnostics ++ x.fault.toList.map fun f => ⟨x.token, .lexical f⟩ }

/-- The next token, fetched if the last one has been used. -/
def look : Read Token := fun r =>
  match r.lookahead with
  | some t => some (t, r)
  | none =>
    let s := Scan.next r.cursor
    some (s.1.token, fetched r s.1 s.2)

/-- Use the next token. -/
def use : Read PUnit := fun r => some (⟨⟩, { r with lookahead := none })

/-- Whether the next token has the given kind. -/
def isNext (kind : Kind) : Read Bool := do
  return (← look).kind = kind

/-- Whether the entry has been given up. -/
def isAbandoned : Read Bool := fun r => some (r.abandoned, r)

/-- Use the next token if it has the given kind. -/
def accept? (kind : Kind) : Read (Option Token) := do
  let t ← look
  if t.kind = kind then
    use
    return some t
  else return none

/-- Use the next token if it has the given kind, and say whether it had. -/
def accept (kind : Kind) : Read Bool := do
  return (← accept? kind).isSome

/-- Report a complaint, unless the entry has been given up. -/
def report (d : Diagnostic) : Read PUnit := fun r =>
  some (⟨⟩, if r.abandoned then r else { r with diagnostics := r.diagnostics ++ [d] })

/-- The tokens that end a statement wherever they stand.  They are left for the rules of
statements, whatever was expected in their place. -/
def endsStatement (kind : Kind) : Bool := kind = .lineBreak || kind = .endOfInput

/-- Use the next token, which has to have the given kind.  Another token is reported and skipped,
unless it ends the statement or the entry has been given up. -/
def expect? (kind : Kind) : Read (Option Token) := do
  let t ← look
  if t.kind = kind then
    use
    return some t
  else
    report ⟨t, .expected kind⟩
    if endsStatement t.kind || (← isAbandoned) then return none
    else
      use
      return none

/-- Use the next token, which has to have the given kind, and say whether it had. -/
def expect (kind : Kind) : Read Bool := do
  return (← expect? kind).isSome

/-! ## Giving up -/

/-- Skip to the end of the line. -/
def skipLine : Nat → Read PUnit
  | 0 => starved
  | fuel + 1 => do
    if endsStatement (← look).kind then return ⟨⟩
    else
      use
      skipLine fuel

/-- Mark the entry as given up. -/
def abandon : Read PUnit := fun r => some (⟨⟩, { r with abandoned := true })

/-- Give up on the entry: report it once and drop the rest of the line. -/
def giveUp (fuel : Nat) : Read PUnit := do
  if ← isAbandoned then return ⟨⟩
  else
    report ⟨← look, .nestingTooDeep⟩
    abandon
    skipLine fuel

/-- Read one level deeper in groups, blocks and prefix operators. -/
def nested (fuel : Nat) (ctx : Context) (rule : Context → Read Node) : Read Node :=
  if ctx.limits.nesting < ctx.depth + 1 then do
    giveUp fuel
    return .noOp
  else rule { ctx with depth := ctx.depth + 1 }

/-- Read the next link of a chain of operands or statements. -/
def chained (fuel : Nat) (ctx : Context) (rule : Context → Read Node) : Read Node :=
  if ctx.limits.chain < ctx.chain + 1 then do
    giveUp fuel
    return .noOp
  else rule { ctx with chain := ctx.chain + 1 }

end Read

end ComplexScript.Entry
