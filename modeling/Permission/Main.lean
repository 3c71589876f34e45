import Permission.CommandLine.Outcome

/-!
# The program

Reads the words of the command line and the file that they name, prints what `CommandLine.run`
answers, and ends with its exit code.
-/

set_option autoImplicit false

namespace Permission
namespace CommandLine

/-- The fault that a failed attempt to read a file amounts to.  The number of a fault comes with
either sign. -/
def FileFault.ofError (error : IO.Error) : FileFault :=
  match error with
  | .noFileOrDirectory .. => .notFound
  | .inappropriateType _ code _ =>
    if code = 21 || code = 0 - 21 then .isADirectory else .notADirectory
  | .invalidArgument _ code _ =>
    if code = 36 || code = 0 - 36 then .nameTooLong else .other (toString error)
  | _ => .other (toString error)

def readText (path : String) : IO (Except FileFault String) := do
  match ← (IO.FS.readFile path).toBaseIO with
  | .ok text => return .ok text
  | .error error => return .error (.ofError error)

end CommandLine
end Permission

def main (words : List String) : IO UInt32 := do
  let outcome ← Permission.CommandLine.run Permission.CommandLine.readText words
  (← IO.getStdout).putStr outcome.output
  (← IO.getStderr).putStr outcome.errors
  return outcome.code.toUInt32
