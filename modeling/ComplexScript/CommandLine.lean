import ComplexScript.Session
set_option autoImplicit false

/-!
# The command line

The program runs a file named on its command line, or its standard input.  What it does is a
function of its arguments, of what stands under the path, and of the bytes of the input.
-/

namespace ComplexScript.CommandLine

open ComplexScript.Text

/-! ## Arguments -/

/-- What the arguments ask for. -/
inductive Command where
  /-- run a file, or standard input when there is no path -/
  | run (path : Option String)
  | help
  | version
  deriving DecidableEq, Repr, Inhabited

/-- What is wrong with the arguments. -/
inductive UsageFault where
  /-- a flag that does not exist, or that takes no value and is given one -/
  | unexpectedFlag (flag : String)
  /-- a second path -/
  | unexpectedPath (path : String)
  /-- a path without characters -/
  | emptyPath
  deriving DecidableEq, Repr, Inhabited

/-- The message for a fault in the arguments. -/
def UsageFault.message : UsageFault → String
  | .unexpectedFlag flag => "unexpected argument '" ++ flag ++ "' found"
  | .unexpectedPath path => "unexpected argument '" ++ path ++ "' found"
  | .emptyPath => "a value is required for '[PATH]' but none was supplied"

/-- Take an argument as the path, after a path that may have been given. -/
def addPath (path : Option String) (arg : String) : Except UsageFault (Option String) :=
  match path with
  | some _ => .error (.unexpectedPath arg)
  | none => if arg.isEmpty then .error .emptyPath else .ok (some arg)

/-- Read arguments that are all paths. -/
def parsePaths (path : Option String) : List String → Except UsageFault Command
  | [] => .ok (.run path)
  | arg :: args =>
    match addPath path arg with
    | .ok path => parsePaths path args
    | .error e => .error e

/-- Read arguments from left to right.  The first flag that asks for a text decides, and the first
fault does; of short flags written together the first counts.  Two dashes end the flags, and a
dash alone is a path. -/
def parse (path : Option String) : List String → Except UsageFault Command
  | [] => .ok (.run path)
  | arg :: args =>
    match arg.toList with
    | ['-', '-'] => parsePaths path args
    | '-' :: '-' :: _ =>
      if arg = "--help" then .ok .help
      else if arg = "--version" then .ok .version
      else .error (.unexpectedFlag arg)
    | '-' :: 'h' :: _ => .ok .help
    | '-' :: 'V' :: _ => .ok .version
    | '-' :: _ :: _ => .error (.unexpectedFlag arg)
    | _ =>
      match addPath path arg with
      | .ok path => parse path args
      | .error e => .error e

/-! ## Texts -/

/-- The version of the program. -/
def versionText : String := "cxl 0.1.0\n"

/-- What the program says about itself. -/
def helpText : String :=
  "An interactive language for complex-number arithmetic\n\n" ++
  "Usage: cxl [PATH]\n\n" ++
  "Arguments:\n" ++
  "  [PATH]  Program file to run (reads standard input when omitted)\n\n" ++
  "Options:\n" ++
  "  -h, --help     Print help\n" ++
  "  -V, --version  Print version\n"

/-! ## Running -/

/-- What stands under a path. -/
inductive Stored where
  | file (bytes : List UInt8)
  | directory
  deriving DecidableEq, Repr, Inhabited

/-- The cause of the failure to read a directory. -/
def directoryCause : String := "Is a directory (os error 21)"

/-- The lines of what stands under a path; a directory can be opened but not read. -/
def Stored.feed : Stored → Feed
  | file bytes => .ofBytes bytes
  | directory => ⟨[.failure directoryCause], []⟩

/-- Open the program text at a path. -/
def openText (path : String) (stored : Option Stored) : Except Failure Feed :=
  match stored with
  | some stored => .ok stored.feed
  | none => .error (.unopened path)

/-- What the program leaves behind. -/
structure Report where
  exitCode : Nat
  /-- Written to standard output. -/
  output : String := ""
  /-- Written to standard error. -/
  complaint : String := ""
  deriving DecidableEq, Repr, Inhabited

/-- The report on a session that could not go on.  A text that cannot be opened has an exit code of
its own. -/
def Report.ofFailure (output : String) (failure : Session.Failure) : Report :=
  { exitCode :=
      match failure with
      | .source (.unopened _) => 2
      | _ => 1
    output := output
    complaint := "error: " ++ failure.message ++ "\n" }

/-- Run a program text to its end; `none` when the budget is used up. -/
def runFeed (fuel : Nat) (feed : Feed) : Option Report :=
  let r := (Session.start feed).complete fuel
  match r.1 with
  | .finished => some { exitCode := 0, output := r.2.sink.text }
  | .failed failure => some (.ofFailure r.2.sink.text failure)
  | .unfinished => none

/-- Carry out a command, given what stands under the path it names and the bytes of standard
input. -/
def Command.execute (fuel : Nat) (stored : Option Stored) (input : List UInt8) :
    Command → Option Report
  | help => some { exitCode := 0, output := helpText }
  | version => some { exitCode := 0, output := versionText }
  | run none => runFeed fuel (.ofBytes input)
  | run (some path) =>
    match openText path stored with
    | .ok feed => runFeed fuel feed
    | .error failure => some (.ofFailure "" (.source failure))

/-- The report on arguments that make no command. -/
def Report.ofUsageFault (fault : UsageFault) : Report :=
  { exitCode := 2, complaint := "error: " ++ fault.message ++ "\n" }

end ComplexScript.CommandLine
