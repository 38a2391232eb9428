import ComplexScript.Token.Scan
set_option autoImplicit false

/-!
# Diagnostics

A diagnostic says what is wrong with the text at one token.  It is shown as the line the token
stands on, a caret under the token's first character, and the position with the message.
-/

namespace ComplexScript

open ComplexScript.Text

/-- What is wrong at a token. -/
inductive Diagnostic.Cause where
  /-- another kind of token has to stand here -/
  | expected (kind : Token.Kind)
  /-- nothing can start or go on with this token here -/
  | unexpectedToken
  /-- the text makes no token -/
  | lexical (fault : Token.Fault)
  /-- the text is nested or chained deeper than the limits allow -/
  | nestingTooDeep
  deriving DecidableEq, Repr, Inhabited

/-- A complaint about a program text. -/
structure Diagnostic where
  token : Token
  cause : Diagnostic.Cause
  deriving DecidableEq, Repr, Inhabited

namespace Diagnostic

/-- The message of a diagnostic. -/
def message (d : Diagnostic) : String :=
  match d.cause with
  | .expected kind => "expected " ++ kind.name
  | .unexpectedToken => "unexpected token: " ++ d.token.text
  | .lexical fault => fault.message
  | .nestingTooDeep => "nesting too deep"

/-- The position and the message. -/
def summary (d : Diagnostic) : String := d.token.position.render ++ " " ++ d.message

/-- The line of `text` that the diagnostic is about; a line that is not there shows as empty. -/
def lineText (d : Diagnostic) (text : String) : String :=
  String.ofList ((line? d.token.position.line text.toList).getD [])

/-- The three lines shown for a diagnostic.  The caret stands under the column of the token, and
in the first column for a line break. -/
def render (d : Diagnostic) (text : String) : String :=
  d.lineText text ++ "\n" ++ String.ofList (List.replicate (d.token.position.column - 1) ' ') ++
    "^\n" ++ d.summary

/-- The diagnostics of one text, one after another. -/
def renderAll (ds : List Diagnostic) (text : String) : String :=
  "\n".intercalate (ds.map (·.render text))

end Diagnostic

end ComplexScript
