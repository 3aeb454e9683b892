import Z80.CommandLine.Invocation
import Z80.CommandLine.Program
import Z80.Debugger.Run

/-!
# Executions

Executing a program as the settings ask.  The machine is reset and the program
loaded first, so that only memory and breakpoints of before remain.
-/

namespace Z80

namespace Debugger

/-- Reset the machine, load a program, go to its first address and set the
breakpoints. -/
def prepare (debugger : Debugger) (settings : Settings) (program : Program) : Debugger :=
  let loaded := debugger.reset.load program.origin program.bytes
  settings.breakpoints.foldl setBreakpoint (loaded.patch (Patch.atAddress program.origin))

/-- Execute a program: single steps if they are asked for, a run otherwise. -/
def execute (debugger : Debugger) (settings : Settings) (program : Program) :
    RunSummary × Debugger :=
  let prepared := debugger.prepare settings program
  match settings.step with
  | some count => prepared.stepMany count.toNat
  | none => prepared.runFor settings.maxSteps.toNat

end Debugger

end Z80
