import Z80.Opcode.Fields
import Z80.Word

/-!
# Condition flags

The six flags of the processor, the byte they occupy in the accumulator pair,
and the four tests that conditional jumps, calls and returns make on them in
either sense.  Two bits of the byte stand for no flag and read as zero.
-/

namespace Z80

/-- The six condition flags. -/
structure Flags where
  sign : Bool := false
  zero : Bool := false
  halfCarry : Bool := false
  /-- Even parity after logic, signed overflow after arithmetic. -/
  overflow : Bool := false
  /-- Whether the last arithmetic operation was a subtraction. -/
  subtract : Bool := false
  carry : Bool := false
  deriving DecidableEq, Repr, Inhabited

namespace Flags

/-- The bits of the flag byte that stand for a flag. -/
def definedBits : UInt8 := 0xD7

/-- Forget the bits of a flag byte that stand for no flag. -/
def truncateByte (byte : UInt8) : UInt8 :=
  byte &&& definedBits

/-- A flag in the given position of a byte. -/
def placeBit (isSet : Bool) (position : UInt8) : UInt8 :=
  if isSet then position else 0

def toByte (flags : Flags) : UInt8 :=
  placeBit flags.sign 0x80 ||| placeBit flags.zero 0x40 |||
    placeBit flags.halfCarry 0x10 ||| placeBit flags.overflow 0x04 |||
    placeBit flags.subtract 0x02 ||| placeBit flags.carry 0x01

def ofByte (byte : UInt8) : Flags where
  sign := byte &&& 0x80 != 0
  zero := byte &&& 0x40 != 0
  halfCarry := byte &&& 0x10 != 0
  overflow := byte &&& 0x04 != 0
  subtract := byte &&& 0x02 != 0
  carry := byte &&& 0x01 != 0

def evenParity (byte : UInt8) : Bool :=
  (List.range 8).countP (fun position => byte.toNat.testBit position) % 2 == 0

/-- Set the sign and zero flags by a result. -/
def setSignZero (flags : Flags) (result : UInt8) : Flags :=
  { flags with sign := isNegative result, zero := result == 0 }

/-- Set the sign, zero and parity flags by a result. -/
def setSignZeroParity (flags : Flags) (result : UInt8) : Flags :=
  { flags.setSignZero result with overflow := evenParity result }

def names (flags : Flags) : List String :=
  [(flags.sign, "S"), (flags.zero, "Z"), (flags.halfCarry, "H"),
    (flags.overflow, "PV"), (flags.subtract, "N"), (flags.carry, "C")].filterMap
      fun entry => if entry.1 then some entry.2 else none

@[simp] theorem ofByte_toByte (flags : Flags) : ofByte flags.toByte = flags := by
  rcases flags with ⟨sign, zero, halfCarry, overflow, subtract, carry⟩
  revert sign zero halfCarry overflow subtract carry
  decide

end Flags

/-- What a conditional jump, call or return waits for. -/
inductive Condition where
  | notZero | zero | noCarry | carry | parityOdd | parityEven | positive | negative
  deriving DecidableEq, Repr

namespace Condition

/-- The condition with a given three-bit code. -/
def ofCode (code : Fin 8) : Condition :=
  match code with
  | 0 => .notZero
  | 1 => .zero
  | 2 => .noCarry
  | 3 => .carry
  | 4 => .parityOdd
  | 5 => .parityEven
  | 6 => .positive
  | _ => .negative

def holds (flags : Flags) : Condition → Bool
  | .notZero => !flags.zero
  | .zero => flags.zero
  | .noCarry => !flags.carry
  | .carry => flags.carry
  | .parityOdd => !flags.overflow
  | .parityEven => flags.overflow
  | .positive => !flags.sign
  | .negative => flags.sign

end Condition

end Z80
