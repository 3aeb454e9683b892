import Z80.Journal

/-!
# The command line program

Reads the file that the command line names and prints the response.  With the
option for it, the journal of the machine is printed as well.
-/

namespace Z80

/-- The cause for which a file cannot be read, in words. -/
def causeOf : IO.Error → String
  | .noFileOrDirectory _ _ _ => "No such file or directory (os error 2)"
  | .permissionDenied _ _ _ => "Permission denied (os error 13)"
  | .inappropriateType (some _) _ _ => "Not a directory (os error 20)"
  | .inappropriateType none _ _ => "Is a directory (os error 21)"
  | error => toString error

/-- The content of a file, or the cause for which there is none. -/
def readContent (path : String) : IO (Except String ByteArray) := do
  try
    let content ← IO.FS.readBinFile path
    return .ok content
  catch error =>
    return .error (causeOf error)

/-- Print the events of an invocation that concern the machine. -/
def printJournal (invocation : Invocation) (content : Except String ByteArray) : IO Unit := do
  for event in (Journal.invocation invocation content).filter Event.concernsMachine do
    IO.eprintln event.line

def answer (arguments : List String) : IO UInt32 := do
  let content ← match Invocation.read arguments with
    | .ok invocation => do
        let content ← readContent invocation.program
        if invocation.settings.trace then printJournal invocation content
        pure content
    | .error _ => pure (.error "")
  let response := Invocation.respond arguments fun _ => content
  IO.print response.output
  IO.eprint response.errors
  return response.exitCode.toUInt32

end Z80

def main (arguments : List String) : IO UInt32 :=
  Z80.answer arguments
