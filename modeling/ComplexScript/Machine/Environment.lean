import ComplexScript.Names
import ComplexScript.Program.Node
set_option autoImplicit false

/-!
# Environments

An environment has the functions of a program, its top-level variables and the variables of the
calls in progress.  Only the frame of the innermost call is in use (the top level when there is
none): a call sees its own parameters and variables, never its caller's.
-/

namespace ComplexScript.Machine

open ComplexScript.Program

/-- The variables of one call, or of the top level. -/
abbrev Frame : Type := Table Number

/-- A function: its parameters, bound by position, and its body. -/
structure Function where
  params : List String
  body : Node
  deriving Inhabited, Repr

/-- The functions and variables of a program. -/
@[ext]
structure Environment where
  functions : Table Function := ∅
  /-- The top-level variables. -/
  globals : Frame := ∅
  /-- The frames of the calls in progress, innermost first. -/
  calls : List Frame := []

namespace Environment

/-- The number of calls in progress. -/
def callDepth (e : Environment) : Nat := e.calls.length

/-- The frame in use. -/
def active (e : Environment) : Frame := e.calls.headD e.globals

/-- Change the frame in use. -/
def modifyActive (e : Environment) (f : Frame → Frame) : Environment :=
  match e.calls with
  | [] => { e with globals := f e.globals }
  | frame :: callers => { e with calls := f frame :: callers }

/-- The value of a variable. -/
def get? (e : Environment) (name : String) : Option Number := e.active[name]?

/-- Bind a variable. -/
def set (e : Environment) (name : String) (z : Number) : Environment :=
  e.modifyActive (·.insert name z)

/-- Unbind a variable. -/
def remove (e : Environment) (name : String) : Environment :=
  e.modifyActive (·.erase name)

/-- Bind a variable to what it was bound to before, or unbind it if it was not. -/
def reset (e : Environment) (name : String) (previous : Option Number) : Environment :=
  e.modifyActive (·.reset name previous)

/-- Define a function, in the place of one that had its name. -/
def define (e : Environment) (name : String) (f : Function) : Environment :=
  { e with functions := e.functions.insert name f }

/-- Begin a call. -/
def push (e : Environment) (frame : Frame) : Environment :=
  { e with calls := frame :: e.calls }

/-- End the innermost call. -/
def pop (e : Environment) : Environment := { e with calls := e.calls.tail }

/-- An environment without its calls in progress, as it is returned to after a fault. -/
def topLevel (e : Environment) : Environment := { e with calls := [] }

/-! ## The frame in use -/

@[simp] theorem modifyActive_functions (e : Environment) (f : Frame → Frame) :
    (e.modifyActive f).functions = e.functions := by
  unfold modifyActive; split <;> rfl

@[simp] theorem active_modifyActive (e : Environment) (f : Frame → Frame) :
    (e.modifyActive f).active = f e.active := by
  unfold modifyActive active; split <;> simp_all

@[simp] theorem callDepth_modifyActive (e : Environment) (f : Frame → Frame) :
    (e.modifyActive f).callDepth = e.callDepth := by
  unfold modifyActive callDepth; split <;> simp_all

end Environment

end ComplexScript.Machine
