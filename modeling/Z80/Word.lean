/-!
# Words and their bytes

A word is a sixteen-bit address or register pair.  This file splits it into its
two bytes, puts two bytes together, and extends a signed byte to a word.
-/

namespace Z80

def highByte (word : UInt16) : UInt8 :=
  (word / 256).toUInt8

def lowByte (word : UInt16) : UInt8 :=
  word.toUInt8

/-- The word with the given bytes, the more significant one first. -/
def wordOfBytes (high low : UInt8) : UInt16 :=
  high.toUInt16 * 256 + low.toUInt16

/-- Whether the top bit of a byte, its sign, is set. -/
def isNegative (byte : UInt8) : Bool :=
  128 ≤ byte

/-- A displacement, a byte in two's complement, as a word to be added. -/
def signExtend (displacement : UInt8) : UInt16 :=
  if isNegative displacement then displacement.toUInt16 + 0xFF00
  else displacement.toUInt16

@[simp] theorem highByte_wordOfBytes (high low : UInt8) :
    highByte (wordOfBytes high low) = high := by
  apply UInt8.toNat_inj.mp
  have highBound := high.toNat_lt
  have lowBound := low.toNat_lt
  simp only [highByte, wordOfBytes, UInt16.toNat_toUInt8, UInt16.toNat_div,
    UInt16.toNat_add, UInt16.toNat_mul, UInt8.toNat_toUInt16, UInt16.reduceToNat]
  omega

@[simp] theorem lowByte_wordOfBytes (high low : UInt8) :
    lowByte (wordOfBytes high low) = low := by
  apply UInt8.toNat_inj.mp
  have highBound := high.toNat_lt
  have lowBound := low.toNat_lt
  simp only [lowByte, wordOfBytes, UInt16.toNat_toUInt8,
    UInt16.toNat_add, UInt16.toNat_mul, UInt8.toNat_toUInt16, UInt16.reduceToNat]
  omega

@[simp] theorem wordOfBytes_highByte_lowByte (word : UInt16) :
    wordOfBytes (highByte word) (lowByte word) = word := by
  apply UInt16.toNat_inj.mp
  have bound := word.toNat_lt
  simp only [highByte, lowByte, wordOfBytes, UInt16.toNat_toUInt8, UInt16.toNat_div,
    UInt16.toNat_add, UInt16.toNat_mul, UInt8.toNat_toUInt16, UInt16.reduceToNat]
  omega

end Z80
