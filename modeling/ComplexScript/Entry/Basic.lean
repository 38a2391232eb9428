import ComplexScript.Entry.Grammar
set_option autoImplicit false

/-!
# Entries

An entry is one top-level item of a program: a function or a statement, with the complaints about
its text and the text itself.  `Entry.next` reads one and begins the next at the origin, so that
the positions of a diagnostic always count from the start of its own entry.
-/

namespace ComplexScript

open ComplexScript.Program
open ComplexScript.Text

/-- One item of a program. -/
structure Entry where
  node : Node
  /-- Complaints about the text, in order. -/
  diagnostics : List Diagnostic
  /-- The text read for the item. -/
  text : String
  deriving Repr, Inhabited

namespace Entry

/-- Whether the program has ended. -/
def isEnd (e : Entry) : Bool := e.node.isEnd

/-- A reader at the start of a feed. -/
def Reader.ofFeed (feed : Feed) : Reader := { cursor := .ofFeed feed }

/-- Read an entry with a budget; `none` when it runs out. -/
def next? (fuel : Nat) (limits : Limits) (r : Reader) : Option (Entry × Reader) := do
  let (node, r) ← entry fuel { limits := limits } { r with abandoned := false }
  let e : Entry := { node := node, diagnostics := r.diagnostics, text := r.cursor.raw }
  return (e, { r with diagnostics := [], cursor := r.cursor.beginEntry })

/-- The budget for an entry.  Between two tokens used, the rules call each other at most about a
dozen deep, and each token uses a character. -/
def budget (r : Reader) : Nat := 32 * (r.cursor.size + 2)

/-- Read the next entry. -/
def next (limits : Limits) (r : Reader) : Entry × Reader :=
  (next? (budget r) limits r).getD ({ node := .endOfInput, diagnostics := [], text := "" }, r)

/-- The entries of a program, up to and including its end, at most `n` of them. -/
def takeUpTo (limits : Limits) : Nat → Reader → List Entry × Reader
  | 0, r => ([], r)
  | n + 1, r =>
    let s := next limits r
    if s.1.isEnd then ([s.1], s.2)
    else
      let rest := takeUpTo limits n s.2
      (s.1 :: rest.1, rest.2)

/-- The entries of a program, up to and including its end.  Every other entry uses a token, so the
characters to come bound their number. -/
def all (limits : Limits) (r : Reader) : List Entry × Reader :=
  takeUpTo limits (r.cursor.size + 2) r

end Entry

end ComplexScript
