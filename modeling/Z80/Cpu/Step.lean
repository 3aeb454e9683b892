import Z80.Cpu.Execute
import Z80.Text.Hex

/-!
# One step

A step fetches and executes one instruction.  A halted processor does nothing.
Bytes that stand for no instruction are a fault: the processor then resumes one
byte past the address of the fault.
-/

namespace Z80

/-- Bytes that stand for no instruction, and where they were fetched. -/
structure Fault where
  address : UInt16
  bytes : List UInt8
  deriving DecidableEq, Repr

def Fault.message (fault : Fault) : String :=
  "unknown opcode" ++ Hex.spacedBytes fault.bytes ++ " at 0x" ++ Hex.word fault.address

inductive Outcome where
  | halted
  | executed (fetched : List UInt8)
  | faulted (fault : Fault)
  deriving DecidableEq, Repr

/-- The outcome of a step, the state after it and the writes it made. -/
structure Step extends Effect where
  outcome : Outcome

namespace Cpu

def step (cpu : Cpu) (memory : Memory) : Step :=
  if cpu.halted then
    { cpu := cpu, outcome := .halted }
  else
    match Instruction.fetch memory cpu.pc with
    | (fetched, next) =>
        let bytes := memory.slice cpu.pc (next - cpu.pc).toNat
        match fetched with
        | some instruction =>
            { (cpu.goto next).execute memory instruction with outcome := .executed bytes }
        | none =>
            { cpu := cpu.goto (cpu.pc + 1), outcome := .faulted ⟨cpu.pc, bytes⟩ }

end Cpu

/-- A processor with its memory. -/
structure Machine where
  cpu : Cpu := {}
  memory : Memory := Memory.zero

namespace Machine

/-- Step the processor and perform its writes. -/
def step (machine : Machine) : Outcome × Machine :=
  match machine with
  | ⟨cpu, memory⟩ =>
      let result := cpu.step memory
      (result.outcome, ⟨result.cpu, memory.perform result.writes⟩)

end Machine

end Z80
