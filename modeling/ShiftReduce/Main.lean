import ShiftReduce.CommandLine

/-!
# The program

Reads the file that the command line names and prints what comes of it.
-/

namespace ShiftReduce.CommandLine

/-- Why reading a file failed. An error that names the file comes from opening it, and one that
does not comes from reading what was opened. -/
def readFailure : IO.Error → ReadFailure
  | .noFileOrDirectory .. => .notFound
  | .inappropriateType (some _) .. => .notADirectory
  | .inappropriateType none .. => .isADirectory
  | .permissionDenied .. => .permissionDenied
  | .invalidArgument (some _) .. => .nameTooLong
  | e => .other (toString e)

def readFile (path : String) : IO (Except ReadFailure String) := do
  try
    return textOfBytes (← IO.FS.readBinFile path)
  catch e =>
    return .error (readFailure e)

def usage : String := "usage: [--class lr0|lr1|lalr1] [--eoi NAME] FILE\n"

end ShiftReduce.CommandLine

open ShiftReduce.CommandLine in
def main (args : List String) : IO UInt32 := do
  match parseArgs args with
  | none =>
    IO.eprint usage
    return usageExit.toUInt32
  | some o =>
    let outcome := process o (← readFile o.path)
    IO.print outcome.stdout
    IO.eprint outcome.stderr
    return outcome.exit.toUInt32
