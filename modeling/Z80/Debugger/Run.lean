import Z80.Debugger.Basic

/-!
# Runs

A run steps a machine until it is halted, until it comes to a breakpoint, or
until its budget is spent, with that priority; a run without a budget may never
stop.  The breakpoint at which a run starts does not stop it.  Single stepping
only has a budget, and finds out that the machine is halted when it is asked for
one more step.
-/

namespace Z80

/-- Why a run ended. -/
inductive StopReason where
  | halted
  /-- The next instruction is at a breakpoint and has not been executed. -/
  | breakpoint (address : UInt16)
  | stepLimit
  deriving DecidableEq, Repr, Inhabited

/-- How a run ended. -/
structure RunSummary where
  reason : StopReason
  pc : UInt16
  instructions : Nat
  deriving DecidableEq, Repr, Inhabited

/-- The outcome of a run in words. -/
def RunSummary.describe (summary : RunSummary) : String :=
  let reason :=
    match summary.reason with
    | .halted => "halted"
    | .breakpoint address => "breakpoint at 0x" ++ Hex.word address
    | .stepLimit => "step limit reached"
  reason ++ " (PC=0x" ++ Hex.word summary.pc ++ ", " ++ toString summary.instructions ++
    " instructions)"

namespace Debugger

/-- What ends a run that has made a count of steps, whatever its budget. -/
def stopReason? (debugger : Debugger) (count : Nat) : Option StopReason :=
  if debugger.cpu.halted then some .halted
  else if count != 0 && debugger.breakpoints.contains debugger.pc then
    some (.breakpoint debugger.pc)
  else none

/-- Step on within a budget, where a count of steps has already been made. -/
def runFrom (count : Nat) : Nat → Debugger → RunSummary × Debugger
  | budget, debugger =>
      match debugger.stopReason? count with
      | some reason => (⟨reason, debugger.pc, count⟩, debugger)
      | none =>
          match budget with
          | 0 => (⟨.stepLimit, debugger.pc, count⟩, debugger)
          | rest + 1 => runFrom (count + 1) rest debugger.step

/-- Run for at most a number of instructions. -/
def runFor (debugger : Debugger) (limit : Nat) : RunSummary × Debugger :=
  debugger.runFrom 0 limit

/-- End a run that has made a count of steps, or make one more. -/
def runOnce : Nat × Debugger → (Nat × Debugger) ⊕ (RunSummary × Debugger)
  | (count, debugger) =>
      match debugger.stopReason? count with
      | some reason => .inr (⟨reason, debugger.pc, count⟩, debugger)
      | none => .inl (count + 1, debugger.step)

/-- Step on without a budget, where a count of steps has already been made.
Nothing is said of a run that never stops. -/
def runOn (count : Nat) (debugger : Debugger) : RunSummary × Debugger :=
  Id.run (repeatM (fun state => pure (runOnce state)) (count, debugger))

/-- Run without a limit. -/
def run (debugger : Debugger) : RunSummary × Debugger :=
  debugger.runOn 0

/-- Make up to a number of steps, where a count of steps has already been made. -/
def stepFrom (count : Nat) : Nat → Debugger → RunSummary × Debugger
  | 0, debugger => (⟨.stepLimit, debugger.pc, count⟩, debugger)
  | rest + 1, debugger =>
      if debugger.cpu.halted then
        (⟨.halted, debugger.pc, count⟩, debugger)
      else
        stepFrom (count + 1) rest debugger.step

/-- Make up to a number of steps, breakpoints notwithstanding. -/
def stepMany (debugger : Debugger) (limit : Nat) : RunSummary × Debugger :=
  debugger.stepFrom 0 limit

end Debugger

end Z80
