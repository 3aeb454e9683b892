import Z80.Cpu.State

/-!
# Opcode pages

The bytes in front of an opcode select one of seven pages of 256 opcodes.  On
two of the pages the displacement of the operand comes before the opcode.
-/

namespace Z80

/-- A page of opcodes. -/
inductive Page where
  | base
  | bits
  | extended
  | indexed (register : IndexRegister)
  | indexedBits (register : IndexRegister)
  deriving DecidableEq, Repr

namespace Page

def all : List Page :=
  [.base, .bits, .extended, .indexed .ix, .indexed .iy, .indexedBits .ix, .indexedBits .iy]

/-- The bytes that select a page. -/
def leadBytes : Page → List UInt8
  | .base => []
  | .bits => [0xCB]
  | .extended => [0xED]
  | .indexed register => [register.leadByte]
  | .indexedBits register => [register.leadByte, 0xCB]

/-- Whether the displacement comes before the opcode. -/
def displacementFirst : Page → Bool
  | .indexedBits _ => true
  | _ => false

theorem mem_all (page : Page) : page ∈ all := by
  cases page with
  | indexed register => cases register <;> decide
  | indexedBits register => cases register <;> decide
  | _ => decide

end Page

end Z80
