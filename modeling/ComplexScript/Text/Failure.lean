set_option autoImplicit false

/-!
# Failures to get a program text

A program text may not be there to open, or may break off while it is read.  Either ends the
session that wanted it.
-/

namespace ComplexScript.Text

/-- Why there is no text, or no more of it. -/
inductive Failure where
  /-- the file cannot be opened -/
  | unopened (path : String)
  /-- a read failed, with the cause as the device words it -/
  | unreadable (cause : String)
  deriving DecidableEq, Repr, Inhabited

namespace Failure

/-- The message for a failure. -/
def message : Failure → String
  | unopened path => "failed to open '" ++ path ++ "'"
  | unreadable _ => "failed to read program text"

/-- The code that a failure is filed under. -/
def code : Failure → String
  | unopened _ => "cxl::source::open"
  | unreadable _ => "cxl::source::read"

/-- Advice on a failure. -/
def help? : Failure → Option String
  | unopened _ => some "check that the file exists and is readable"
  | unreadable _ => none

/-- The cause that the device gave. -/
def cause? : Failure → Option String
  | unopened _ => none
  | unreadable cause => some cause

end Failure

end ComplexScript.Text
