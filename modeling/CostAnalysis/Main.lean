import CostAnalysis.Command.Run

/-!
# The program

Files are those of the operating system; results go to the standard output, and
what went wrong goes to the standard error.
-/

namespace CostAnalysis

/-- What the operating system says about an error. -/
def describeError : IO.Error → String
  | .noFileOrDirectory _ code details | .alreadyExists _ code details
  | .invalidArgument _ code details | .permissionDenied _ code details
  | .resourceExhausted _ code details | .inappropriateType _ code details
  | .noSuchThing _ code details | .otherError code details | .resourceBusy code details
  | .unsupportedOperation code details | .illegalOperation code details =>
    numbered code details
  | error => toString error
where
  /-- A description with its number. -/
  numbered (code : UInt32) (details : String) : String :=
    details ++ " (os error " ++ toString code ++ ")"

/-- The result of an action, or what the operating system says about its
failure. -/
def attempt (action : IO α) : IO (Except String α) := do
  try
    return .ok (← action)
  catch error =>
    return .error (describeError error)

/-- The files of the operating system. -/
def systemFiles : FileAccess IO where
  readBytes path :=
    attempt (IO.FS.withFile path .read fun file => return (← file.readBinToEnd).toList)
  writeText path text := attempt (IO.FS.writeFile path text)

end CostAnalysis

open CostAnalysis in
/-- Runs the command line and reports how it ended. -/
def main (args : List String) : IO UInt32 := do
  let outcome ← Command.run systemFiles args
  IO.print outcome.output
  match outcome with
  | .done _ => pure ()
  | .failed error => IO.eprintln error.report
  | .misused fault => IO.eprintln ("error: " ++ fault.message ++ "\n\n" ++ Command.helpText)
  return UInt32.ofNat outcome.exitCode
