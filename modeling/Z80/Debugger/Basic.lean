import Z80.Cpu.Patch
import Z80.Cpu.Step
import Z80.Debugger.Breakpoints
import Z80.Debugger.Recent
import Z80.Listing

/-!
# The debugger

A machine under observation: besides processor and memory there are the
breakpoints, the number of instructions executed since the last reset, and a
record of the most recent of them and of the most recent faults.
-/

namespace Z80

/-- An executed instruction, by its address and the bytes that were fetched. -/
structure Executed where
  address : UInt16
  bytes : List UInt8
  deriving DecidableEq, Repr

/-- How many executed instructions, and how many faults, are remembered. -/
def recordCapacity : Nat := 256

theorem recordCapacity_pos : 0 < recordCapacity := by decide

/-- A machine under observation. -/
structure Debugger extends Machine where
  breakpoints : Breakpoints := Breakpoints.empty
  /-- The number of instructions since the last reset, faults included. -/
  executed : Nat := 0
  history : Recent Executed recordCapacity := Recent.empty recordCapacity_pos
  faults : Recent Fault recordCapacity := Recent.empty recordCapacity_pos

instance : Nonempty Debugger :=
  ⟨{}⟩

namespace Debugger

/-- Power the processor on and forget what was executed; memory and breakpoints
stay. -/
def reset (debugger : Debugger) : Debugger :=
  { debugger with
    cpu := Cpu.powerOn
    executed := 0
    history := Recent.empty recordCapacity_pos
    faults := Recent.empty recordCapacity_pos }

def load (debugger : Debugger) (start : UInt16) (bytes : List UInt8) : Debugger :=
  { debugger with memory := debugger.memory.load start bytes }

def write (debugger : Debugger) (address : UInt16) (byte : UInt8) : Debugger :=
  { debugger with memory := debugger.memory.write address byte }

def writeWord (debugger : Debugger) (address : UInt16) (word : UInt16) : Debugger :=
  { debugger with memory := debugger.memory.writeWord address word }

/-- Change the processor state by a patch. -/
def patch (debugger : Debugger) (patch : Patch) : Debugger :=
  { debugger with cpu := patch.apply debugger.cpu }

def exchangeBanks (debugger : Debugger) : Debugger :=
  { debugger with cpu := debugger.cpu.exchangeBanks }

def setBreakpoint (debugger : Debugger) (address : UInt16) : Debugger :=
  { debugger with breakpoints := debugger.breakpoints.insert address }

def clearBreakpoint (debugger : Debugger) (address : UInt16) : Debugger :=
  { debugger with breakpoints := debugger.breakpoints.erase address }

def toggleBreakpoint (debugger : Debugger) (address : UInt16) : Debugger :=
  { debugger with breakpoints := (debugger.breakpoints.toggle address).2 }

def clearBreakpoints (debugger : Debugger) : Debugger :=
  { debugger with breakpoints := Breakpoints.empty }

/-- The address of the next instruction. -/
def pc (debugger : Debugger) : UInt16 :=
  debugger.cpu.pc

def row (debugger : Debugger) (address : UInt16) : Row :=
  Listing.row debugger.memory address

/-- Record an executed instruction. -/
def record (debugger : Debugger) (instruction : Executed) : Debugger :=
  { debugger with
    executed := debugger.executed + 1
    history := debugger.history.push instruction }

/-- Record the outcome of a step at an address where given bytes were listed. -/
def conclude (debugger : Debugger) (address : UInt16) (listed : List UInt8) :
    Outcome → Debugger
  | .halted => debugger
  | .executed _ => debugger.record ⟨address, listed⟩
  | .faulted fault =>
      { debugger.record ⟨address, fault.bytes⟩ with faults := debugger.faults.push fault }

/-- Execute one instruction, whether or not there is a breakpoint at it.  A
halted machine stays as it is. -/
def step (debugger : Debugger) : Debugger :=
  match debugger with
  | ⟨machine, breakpoints, executed, history, faults⟩ =>
      let address := machine.cpu.pc
      let listed := Listing.instructionBytes machine.memory address
      match machine.step with
      | (outcome, next) =>
          conclude ⟨next, breakpoints, executed, history, faults⟩ address listed outcome

theorem step_eq_conclude (debugger : Debugger) :
    debugger.step =
      conclude { debugger with toMachine := debugger.toMachine.step.2 } debugger.pc
        (Listing.instructionBytes debugger.memory debugger.pc)
        (debugger.cpu.step debugger.memory).outcome := rfl

@[simp] theorem toMachine_conclude (debugger : Debugger) (address : UInt16)
    (listed : List UInt8) (outcome : Outcome) :
    (debugger.conclude address listed outcome).toMachine = debugger.toMachine := by
  cases outcome <;> rfl

@[simp] theorem breakpoints_conclude (debugger : Debugger) (address : UInt16)
    (listed : List UInt8) (outcome : Outcome) :
    (debugger.conclude address listed outcome).breakpoints = debugger.breakpoints := by
  cases outcome <;> rfl

@[simp] theorem toMachine_step (debugger : Debugger) :
    debugger.step.toMachine = debugger.toMachine.step.2 := by
  rw [step_eq_conclude, toMachine_conclude]

@[simp] theorem breakpoints_step (debugger : Debugger) :
    debugger.step.breakpoints = debugger.breakpoints := by
  rw [step_eq_conclude, breakpoints_conclude]

end Debugger

end Z80
