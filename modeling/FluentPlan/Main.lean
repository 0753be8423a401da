import FluentPlan.CommandLine

/-!
The program: reads what the arguments name, runs, and writes what is said.
-/

namespace FluentPlan.CommandLine

/-- The number of a reason, which the system gives with either sign. -/
def reasonCode (code : UInt32) : Nat := if code < 0x80000000 then code.toNat else (-code).toNat

/-- The reason for which the system refuses a file. -/
def fileProblem (e : IO.Error) : FileProblem :=
  match e with
  | .noFileOrDirectory _ code reason => .ofCode (reasonCode code) reason
  | .permissionDenied _ code reason => .ofCode (reasonCode code) reason
  | .inappropriateType _ code reason => .ofCode (reasonCode code) reason
  | .invalidArgument _ code reason => .ofCode (reasonCode code) reason
  | .resourceExhausted _ code reason => .ofCode (reasonCode code) reason
  | .alreadyExists _ code reason => .ofCode (reasonCode code) reason
  | e => .ofCode 0 (toString e)

/-- The contents of a file, or why there are none. -/
def readFile (name : String) : IO (Except FileProblem ByteArray) := do
  try
    return .ok (← IO.FS.readBinFile name)
  catch e => return .error (fileProblem e)

/-- Writes a text to a file, or says why it cannot be written. -/
def writeFile (name text : String) : IO (Except FileProblem Unit) := do
  try
    IO.FS.writeFile name text
    return .ok ()
  catch e => return .error (fileProblem e)

/-- What stands in the input file, or on the standard input where none is named. -/
def readInput (a : Args) : IO (Except FileProblem ByteArray) := do
  match a.input with
  | some name => readFile name
  | none => return .ok (← (← IO.getStdin).readBinToEnd)

/-- Writes a report to both channels and gives its exit code. -/
def deliver (r : Report) : IO UInt32 := do
  IO.print r.stdout
  IO.eprint r.stderr
  return r.exit.toUInt32

/-- Runs the command line on the files of the system. -/
def perform (argv : List String) : IO UInt32 := do
  match Args.parse argv with
  | .error p => deliver (usageReport p)
  | .ok a =>
    if a.help then deliver ⟨0, usage, ""⟩
    else
      let config ← match a.configFile with
        | some name => readFile (plainPath name)
        | none => pure (.error .missing)
      let r := run a config (← readInput a)
      let written ← match r.outcome, a.output with
        | .ok text, some name => writeFile name text
        | _, _ => pure (.ok ())
      match report a r written with
      | .ok said => deliver said
      | .error _ =>
        IO.eprintln "the input has no conversion"
        return 1

end FluentPlan.CommandLine

def main (argv : List String) : IO UInt32 := FluentPlan.CommandLine.perform argv
