import Z80.Cpu.State

/-!
# Instructions

What an instruction asks for, with its operands, apart from how it is encoded.
Eight-bit operands are registers, cells of memory or constants; a cell is named
by a pointer, so that an instruction on `(HL)` and its indexed forms differ in
the pointer alone.
-/

namespace Z80

/-- The eight-bit registers that operands name. -/
inductive Register where
  | a | b | c | d | e | h | l
  deriving DecidableEq, Repr

/-- The register pairs, and the single registers of the same width. -/
inductive Pair where
  | bc | de | hl | sp | af
  | index (register : IndexRegister)
  deriving DecidableEq, Repr

/-- How an instruction names the cell it reads or writes. -/
inductive Pointer where
  | bc | de | hl
  | absolute (address : UInt16)
  | indexed (register : IndexRegister) (displacement : UInt8)
  deriving DecidableEq, Repr

/-- Where a byte can be kept. -/
inductive Place where
  | register (register : Register)
  | cell (pointer : Pointer)
  deriving DecidableEq, Repr

/-- Where a byte can come from. -/
inductive Source where
  | place (place : Place)
  | constant (byte : UInt8)
  deriving DecidableEq, Repr

/-- Where a word can be kept. -/
inductive WordPlace where
  | pair (pair : Pair)
  | cells (address : UInt16)
  deriving DecidableEq, Repr

/-- Where a word can come from. -/
inductive WordSource where
  | place (place : WordPlace)
  | constant (word : UInt16)
  deriving DecidableEq, Repr

/-- The operations between the accumulator and an operand. -/
inductive Operation where
  | add | addCarry | subtract | subtractCarry | and | xor | or | compare
  deriving DecidableEq, Repr

namespace Operation

def ofCode (code : Fin 8) : Operation :=
  match code with
  | 0 => .add
  | 1 => .addCarry
  | 2 => .subtract
  | 3 => .subtractCarry
  | 4 => .and
  | 5 => .xor
  | 6 => .or
  | _ => .compare

end Operation

inductive Rotation where
  | rlc | rrc | rl | rr | sla | sra | sll | srl
  deriving DecidableEq, Repr

namespace Rotation

def ofCode (code : Fin 8) : Rotation :=
  match code with
  | 0 => .rlc
  | 1 => .rrc
  | 2 => .rl
  | 3 => .rr
  | 4 => .sla
  | 5 => .sra
  | 6 => .sll
  | _ => .srl

end Rotation

/-- The two registers of eight bits outside the banks. -/
inductive SpecialRegister where
  | i | r
  deriving DecidableEq, Repr

/-- The way a block instruction moves through memory. -/
inductive Direction where
  | up | down
  deriving DecidableEq, Repr

/-- The word added to a pointer for one move. -/
def Direction.stride : Direction → UInt16
  | .up => 1
  | .down => 0xFFFF

/-- An instruction with its operands. -/
inductive Instruction where
  | nop
  | halt
  | disableInterrupts
  | enableInterrupts
  | setInterruptMode (mode : InterruptMode)
  | load (target : Place) (source : Source)
  | loadWord (target : WordPlace) (source : WordSource)
  /-- Load the accumulator from a special register, testing it. -/
  | readSpecial (register : SpecialRegister)
  | writeSpecial (register : SpecialRegister)
  | push (pair : Pair)
  | pop (pair : Pair)
  | exchangeAF
  | exchangePairs
  | exchangeDEHL
  | exchangeStackTop (pair : Pair)
  | accumulate (operation : Operation) (source : Source)
  | increment (place : Place)
  | decrement (place : Place)
  | incrementPair (pair : Pair)
  | decrementPair (pair : Pair)
  | addPair (target source : Pair)
  | addCarryPair (source : Pair)
  | subtractCarryPair (source : Pair)
  /-- Rotate the accumulator, leaving the flags of its value alone. -/
  | rotateAccumulator (rotation : Rotation)
  | rotate (rotation : Rotation) (place : Place)
  | testBit (position : Fin 8) (place : Place)
  | resetBit (position : Fin 8) (place : Place)
  | setBit (position : Fin 8) (place : Place)
  | decimalAdjust
  | complement
  | negate
  | setCarry
  | complementCarry
  /-- Rotate the low digit of the accumulator into the cell at HL from below. -/
  | rotateDigitLeft
  /-- Rotate the low digit of the accumulator into the cell at HL from above. -/
  | rotateDigitRight
  | jump (condition : Option Condition) (target : UInt16)
  | jumpTo (pair : Pair)
  | jumpRelative (condition : Option Condition) (displacement : UInt8)
  /-- Decrement B and jump unless it became zero. -/
  | decrementJump (displacement : UInt8)
  | call (condition : Option Condition) (target : UInt16)
  | ret (condition : Option Condition)
  | restart (vector : UInt16)
  | copyBlock (direction : Direction) (repeats : Bool)
  | compareBlock (direction : Direction) (repeats : Bool)
  deriving DecidableEq, Repr

end Z80
