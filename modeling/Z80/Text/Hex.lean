import Z80.Text.Basic

/-!
# Hexadecimal text

Bytes are written with two upper-case digits and words with four.  Larger and
negative quantities, which only occur in messages, are written with as many
digits as they need, and a negative one as its 64-bit two's complement.
-/

namespace Z80

namespace Hex

/-- The upper-case digit of a value below sixteen. -/
def digit (value : Nat) : Char :=
  if value < 10 then Char.ofNat (48 + value) else Char.ofNat (55 + value)

def byteDigits (byte : UInt8) : Text :=
  [digit (byte.toNat / 16), digit (byte.toNat % 16)]

def wordDigits (word : UInt16) : Text :=
  [digit (word.toNat / 4096), digit (word.toNat / 256 % 16),
    digit (word.toNat / 16 % 16), digit (word.toNat % 16)]

/-- The digits of a natural number without leading zeros. -/
def digits (number : Nat) : Text :=
  if number < 16 then [digit number]
  else digits (number / 16) ++ [digit (number % 16)]

/-- A byte as a two-digit string. -/
def byte (value : UInt8) : String :=
  String.ofList (byteDigits value)

/-- A word as a four-digit string. -/
def word (value : UInt16) : String :=
  String.ofList (wordDigits value)

/-- The digits of a byte sequence, without separators. -/
def bytes (values : List UInt8) : String :=
  String.ofList (values.flatMap byteDigits)

/-- The digits of a byte sequence, each byte after a space. -/
def spacedBytes (values : List UInt8) : String :=
  String.ofList (values.flatMap fun value => ' ' :: byteDigits value)

/-- An integer with at least four digits; a negative one in sixty-four bits. -/
def address (number : Int) : String :=
  let shown := digits (number % 0x10000000000000000).toNat
  String.ofList (List.replicate (4 - shown.length) '0' ++ shown)

end Hex

end Z80
