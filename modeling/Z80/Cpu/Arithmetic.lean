import Z80.Flags
import Z80.Instruction.Basic

/-!
# Arithmetic

The results and flags of the arithmetic, logic and shift operations, as
functions of their operands.  Each returns the result together with the flags
afterwards; an operation that leaves some flags alone takes the flags before.
-/

namespace Z80

namespace Arithmetic

def add (left right : UInt8) (carry : Bool) : UInt8 × Flags :=
  let total := left.toNat + right.toNat + carry.toNat
  let result := UInt8.ofNat total
  (result,
    { sign := isNegative result
      zero := result == 0
      halfCarry := 15 < left.toNat % 16 + right.toNat % 16 + carry.toNat
      overflow :=
        isNegative left == isNegative right && isNegative left != isNegative result
      subtract := false
      carry := 255 < total })

/-- Subtract a byte and a borrow from a byte. -/
def subtract (left right : UInt8) (borrow : Bool) : UInt8 × Flags :=
  let taken := right.toNat + borrow.toNat
  let result := left - UInt8.ofNat taken
  (result,
    { sign := isNegative result
      zero := result == 0
      halfCarry := left.toNat % 16 < right.toNat % 16 + borrow.toNat
      overflow :=
        isNegative left != isNegative right && isNegative left != isNegative result
      subtract := true
      carry := left.toNat < taken })

def logicFlags (result : UInt8) (halfCarry : Bool) : Flags :=
  { sign := isNegative result
    zero := result == 0
    halfCarry := halfCarry
    overflow := Flags.evenParity result }

/-- Combine the accumulator with an operand. -/
def combine (operation : Operation) (accumulator operand : UInt8) (carry : Bool) :
    UInt8 × Flags :=
  match operation with
  | .add => add accumulator operand false
  | .addCarry => add accumulator operand carry
  | .subtract => subtract accumulator operand false
  | .subtractCarry => subtract accumulator operand carry
  | .and => (accumulator &&& operand, logicFlags (accumulator &&& operand) true)
  | .xor => (accumulator ^^^ operand, logicFlags (accumulator ^^^ operand) false)
  | .or => (accumulator ||| operand, logicFlags (accumulator ||| operand) false)
  | .compare => (accumulator, (subtract accumulator operand false).2)

/-- Add one to a byte, keeping the carry flag. -/
def increment (flags : Flags) (byte : UInt8) : UInt8 × Flags :=
  let result := byte + 1
  (result,
    { sign := isNegative result
      zero := result == 0
      halfCarry := byte.toNat % 16 == 15
      overflow := byte == 0x7F
      subtract := false
      carry := flags.carry })

/-- Take one from a byte, keeping the carry flag. -/
def decrement (flags : Flags) (byte : UInt8) : UInt8 × Flags :=
  let result := byte - 1
  (result,
    { sign := isNegative result
      zero := result == 0
      halfCarry := byte.toNat % 16 == 0
      overflow := byte == 0x80
      subtract := true
      carry := flags.carry })

/-- Whether the top bit of a word, its sign, is set. -/
def isNegativeWord (word : UInt16) : Bool :=
  0x8000 ≤ word

/-- Add two words, keeping the flags that judge the result. -/
def addWord (flags : Flags) (left right : UInt16) : UInt16 × Flags :=
  (left + right,
    { flags with
      halfCarry := 4095 < left.toNat % 4096 + right.toNat % 4096
      subtract := false
      carry := 65535 < left.toNat + right.toNat })

def addCarryWord (left right : UInt16) (carry : Bool) : UInt16 × Flags :=
  let total := left.toNat + right.toNat + carry.toNat
  let result := UInt16.ofNat total
  (result,
    { sign := isNegativeWord result
      zero := result == 0
      halfCarry := 4095 < left.toNat % 4096 + right.toNat % 4096 + carry.toNat
      overflow :=
        isNegativeWord left == isNegativeWord right &&
          isNegativeWord left != isNegativeWord result
      subtract := false
      carry := 65535 < total })

def subtractCarryWord (left right : UInt16) (borrow : Bool) : UInt16 × Flags :=
  let taken := right.toNat + borrow.toNat
  let result := left - UInt16.ofNat taken
  (result,
    { sign := isNegativeWord result
      zero := result == 0
      halfCarry := left.toNat % 4096 < right.toNat % 4096 + borrow.toNat
      overflow :=
        isNegativeWord left != isNegativeWord right &&
          isNegativeWord left != isNegativeWord result
      subtract := true
      carry := left.toNat < taken })

/-- Turn the binary sum or difference of two packed decimal bytes into a packed
decimal byte. -/
def decimalAdjust (flags : Flags) (byte : UInt8) : UInt8 × Flags :=
  let lowWrong := flags.halfCarry || 9 < byte.toNat % 16
  let highWrong := flags.carry || 0x99 < byte
  let correction : UInt8 := (if lowWrong then 0x06 else 0) + (if highWrong then 0x60 else 0)
  let result := if flags.subtract then byte - correction else byte + correction
  (result,
    { sign := isNegative result
      zero := result == 0
      halfCarry :=
        if flags.subtract then flags.halfCarry && byte.toNat % 16 < 6
        else 9 < byte.toNat % 16
      overflow := Flags.evenParity result
      subtract := flags.subtract
      carry := highWrong })

/-- A bit that enters a byte from below. -/
def fromBelow (bit : Bool) : UInt8 :=
  if bit then 0x01 else 0

/-- A bit that enters a byte from above. -/
def fromAbove (bit : Bool) : UInt8 :=
  if bit then 0x80 else 0

/-- Rotate or shift a byte by one place; the bit that leaves is the new carry. -/
def shift (rotation : Rotation) (byte : UInt8) (carry : Bool) : UInt8 × Bool :=
  let top := isNegative byte
  let bottom := byte % 2 == 1
  match rotation with
  | .rlc => (byte * 2 + fromBelow top, top)
  | .rrc => (byte / 2 + fromAbove bottom, bottom)
  | .rl => (byte * 2 + fromBelow carry, top)
  | .rr => (byte / 2 + fromAbove carry, bottom)
  | .sla => (byte * 2, top)
  | .sra => (byte / 2 + fromAbove top, bottom)
  | .sll => (byte * 2 + 1, top)
  | .srl => (byte / 2, bottom)

/-- Rotate or shift a byte, judging the result. -/
def rotate (rotation : Rotation) (byte : UInt8) (carry : Bool) : UInt8 × Flags :=
  let shifted := shift rotation byte carry
  (shifted.1, { logicFlags shifted.1 false with carry := shifted.2 })

/-- Rotate the accumulator, keeping the flags that judge a result. -/
def rotateAccumulator (flags : Flags) (rotation : Rotation) (byte : UInt8) :
    UInt8 × Flags :=
  let shifted := shift rotation byte flags.carry
  (shifted.1, { flags with halfCarry := false, subtract := false, carry := shifted.2 })

/-- The byte in which one bit is set. -/
def mask (position : Fin 8) : UInt8 :=
  1 <<< UInt8.ofNat position

/-- The flags after testing one bit. -/
def testBit (flags : Flags) (position : Fin 8) (byte : UInt8) : Flags :=
  let isSet := byte &&& mask position != 0
  { sign := position == 7 && isSet
    zero := !isSet
    halfCarry := true
    overflow := !isSet
    subtract := false
    carry := flags.carry }

/-- The cell and the accumulator after the low digit of the accumulator has
entered the cell from below. -/
def digitLeft (accumulator cell : UInt8) : UInt8 × UInt8 :=
  (cell * 16 + accumulator % 16, accumulator / 16 * 16 + cell / 16)

/-- The cell and the accumulator after the low digit of the accumulator has
entered the cell from above. -/
def digitRight (accumulator cell : UInt8) : UInt8 × UInt8 :=
  (accumulator * 16 + cell / 16, accumulator / 16 * 16 + cell % 16)

end Arithmetic

end Z80
