import Z80.CommandLine.Execution
import Z80.CommandLine.Report

/-!
# Responses

What a command line leads to, given the content of the files: the exit code is
two if the command line itself is refused, one if its program is, and zero
otherwise.
-/

namespace Z80

/-- What the program does to the outside: its exit code and its two outputs. -/
structure Response where
  exitCode : UInt8 := 0
  output : String := ""
  errors : String := ""
  deriving DecidableEq, Repr

namespace Invocation

/-- Execute the program of an invocation, whose file has the given content. -/
def run (invocation : Invocation) (content : Except String ByteArray) :
    Except Program.Flaw String := do
  let program ← Program.read invocation.program invocation.settings.origin content
  let (summary, debugger) := ({} : Debugger).execute invocation.settings program
  return Debugger.report summary debugger

/-- The response to a command line, where the content of each file is given. -/
def respond (arguments : List String) (content : String → Except String ByteArray) :
    Response :=
  match read arguments with
  | .error flaw => { exitCode := 2, errors := flaw.summary ++ "\n" }
  | .ok invocation =>
      match invocation.run (content invocation.program) with
      | .error flaw => { exitCode := 1, errors := "error: " ++ flaw.message ++ "\n" }
      | .ok output => { output := output }

end Invocation

end Z80
