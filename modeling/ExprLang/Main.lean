import ExprLang.Command

/-!
# The command line

Reads the file that the arguments name, runs the command on it, and prints what the
command leaves behind.
-/
namespace ExprLang

/-- The system's number for an error. It may be given with its sign turned. -/
def errorCode (code : UInt32) : Nat := code.toInt32.toInt.natAbs

/-- The reason that the system gives for a file it does not read. -/
def readFailure : IO.Error → ReadFailure
  | .noFileOrDirectory .. => .missing
  | .permissionDenied _ code reason => .ofCode (errorCode code) reason
  | .inappropriateType _ code reason => .ofCode (errorCode code) reason
  | .invalidArgument _ code reason => .ofCode (errorCode code) reason
  | .otherError code reason => .ofCode (errorCode code) reason
  | e => .other 0 (toString e)

/-- The text of a file, if it can be had. -/
def readFile (path : String) : IO (Except ReadFailure String) := do
  try return readText (← IO.FS.readBinFile path)
  catch e => return .error (readFailure e)

end ExprLang

open ExprLang in
def main (args : List String) : IO UInt32 := do
  match Command.ofArguments? args with
  | none =>
    IO.eprint Command.usage
    return 2
  | some (command, path) =>
    let outcome := command.run path (← readFile path)
    IO.print outcome.output
    IO.eprint outcome.errors
    return outcome.code.toUInt32
