/-!
# The fields of an opcode byte

An opcode byte splits into a two-bit and two three-bit fields.  Register pairs
are numbered by the upper two bits of the middle field; its lowest bit chooses
between two forms of an instruction.
-/

namespace Z80

namespace Fields

/-- The two-bit codes are written as numerals. -/
instance neZero_four : @NeZero Nat Zero.ofOfNat0 4 := ⟨by decide⟩

/-- The three-bit codes are written as numerals. -/
instance neZero_eight : @NeZero Nat Zero.ofOfNat0 8 := ⟨by decide⟩

/-- Bits seven and six. -/
def group (opcode : UInt8) : Fin 4 :=
  ⟨opcode.toNat / 64, by have := opcode.toNat_lt; omega⟩

/-- Bits five to three. -/
def middle (opcode : UInt8) : Fin 8 :=
  ⟨opcode.toNat / 8 % 8, by omega⟩

/-- Bits two to zero. -/
def last (opcode : UInt8) : Fin 8 :=
  ⟨opcode.toNat % 8, by omega⟩

/-- Bits five and four, the number of a register pair. -/
def pair (opcode : UInt8) : Fin 4 :=
  ⟨opcode.toNat / 16 % 4, by omega⟩

/-- Bit three, which chooses the second of two forms. -/
def second (opcode : UInt8) : Bool :=
  opcode.toNat / 8 % 2 == 1

end Fields

end Z80
