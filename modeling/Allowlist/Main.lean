import Allowlist.Command

/-!
# Main — the program

Reads the configuration file that the arguments name, if they name one, and prints the outcome.
-/

open Allowlist.Command

/-- What kept a file from being read. -/
def fileError : IO.Error → FileError
  | .noFileOrDirectory .. => .missing
  | .inappropriateType _ 21 _ => .directory
  | .inappropriateType .. => .notDirectory
  | .invalidArgument .. => .nameTooLong
  | e => .other (toString e)

/-- The text of a file, or why it cannot be read. -/
def readConfig (path : String) : IO (Except FileError String) := do
  try
    match String.fromUTF8? (← IO.FS.readBinFile path) with
    | some text => return .ok text
    | none => return .error .notText
  catch e =>
    return .error (fileError e)

def main (arguments : List String) : IO UInt32 := do
  let text ← match configPath? arguments with
    | some path => readConfig path
    | none => pure (.error .missing)
  let outcome := run (fun _ => text) arguments
  (← IO.getStdout).putStr outcome.stdout
  (← IO.getStderr).putStr outcome.stderr
  return outcome.code.toUInt32
