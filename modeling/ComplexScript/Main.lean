import ComplexScript.CommandLine
set_option autoImplicit false

/-!
# The program

The outer layer: it gets the arguments, the file and the input, and writes the report.
-/

namespace ComplexScript.CommandLine

/-- What stands under a path of the file system. -/
def readStored (path : String) : IO (Option Stored) := do
  match ← (IO.FS.Handle.mk path .read).toBaseIO with
  | .error _ => return none
  | .ok handle =>
    match ← handle.readBinToEnd.toBaseIO with
    | .ok bytes => return some (.file bytes.toList)
    | .error _ => return some .directory

/-- Enough for every run that ends in a lifetime. -/
def runBudget : Nat := Nat.pow 2 60

/-- Get what a command needs, and carry it out. -/
def Command.perform (command : Command) : IO (Option Report) := do
  let stored ←
    match command with
    | .run (some path) => readStored path
    | _ => pure none
  let input ←
    match command with
    | .run none => do pure (← (← IO.getStdin).readBinToEnd).toList
    | _ => pure []
  return command.execute runBudget stored input

/-- Read the arguments, and do what they ask for. -/
def report? (args : List String) : IO (Option Report) :=
  match parse none args with
  | .ok command => command.perform
  | .error fault => return some (.ofUsageFault fault)

end ComplexScript.CommandLine

/-- Run the program. -/
def main (args : List String) : IO UInt32 := do
  match ← ComplexScript.CommandLine.report? args with
  | some report =>
    IO.print report.output
    IO.eprint report.complaint
    return UInt32.ofNat report.exitCode
  | none => return 1
