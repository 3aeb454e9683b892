import Z80.Opcode.Table

/-!
# Listings

The written form of the instructions in memory.  Constants are hexadecimal, a
relative jump shows the address it leads to, a displacement carries its sign,
and a byte that begins no instruction is shown as data.
-/

namespace Z80

namespace Operand

/-- A word written in hexadecimal, the less significant byte given first. -/
def wordText (low high : UInt8) : Text :=
  '0' :: 'x' :: Hex.wordDigits (wordOfBytes high low)

/-- A byte written in hexadecimal. -/
def byteText (value : UInt8) : Text :=
  '0' :: 'x' :: Hex.byteDigits value

/-- A displacement written in hexadecimal with its sign. -/
def displacementText (displacement : UInt8) : Text :=
  if isNegative displacement then '-' :: byteText (0 - displacement)
  else '+' :: byteText displacement

/-- The text of an operand that is filled in by the first bytes of a payload.
The next instruction stands at the given address. -/
def text (next : UInt16) (operand : Operand) (payload : List UInt8) : Text :=
  match operand, payload with
  | .byte, value :: _ => byteText value
  | .word, low :: high :: _ => wordText low high
  | .cell, low :: high :: _ => '(' :: wordText low high ++ [')']
  | .relative, displacement :: _ =>
      '0' :: 'x' :: Hex.wordDigits (next + signExtend displacement)
  | .indexed register, displacement :: _ =>
      '(' :: register.name.toList ++ displacementText displacement ++ [')']
  | operand, _ => operand.template

/-- The texts of operands that a payload fills in one after another. -/
def texts (next : UInt16) : List Operand → List UInt8 → List Text
  | [], _ => []
  | operand :: rest, payload =>
      operand.text next payload :: texts next rest (payload.drop operand.size)

end Operand

/-- One line of a listing. -/
structure Row where
  address : UInt16
  bytes : List UInt8
  text : Text
  deriving DecidableEq, Repr

namespace Row

def length (row : Row) : UInt16 :=
  UInt16.ofNat row.bytes.length

def next (row : Row) : UInt16 :=
  row.address + row.length

/-- The row for an entry at an address whose bytes are known. -/
def ofEntry (entry : Entry) (address : UInt16) (bytes : List UInt8) : Row where
  address := address
  bytes := bytes
  text :=
    Entry.statement entry.mnemonic
      (Operand.texts (address + UInt16.ofNat entry.length) entry.operands
        ((bytes.drop entry.payloadOffset).take entry.payloadSize))

/-- The row for a byte that begins no instruction. -/
def ofData (address : UInt16) (byte : UInt8) : Row where
  address := address
  bytes := [byte]
  text := 'D' :: 'B' :: ' ' :: Operand.byteText byte

/-- The row as a line: address, bytes in a column of twelve characters, text. -/
def line (row : Row) : String :=
  let bytes := Text.join [' '] (row.bytes.map Hex.byteDigits)
  let column := bytes ++ List.replicate (12 - bytes.length) ' '
  String.ofList (Hex.wordDigits row.address ++ ' ' :: ' ' :: column ++ ' ' :: row.text)

end Row

namespace Listing

/-- The number of bytes of the instruction at an address, where a byte that
begins no instruction counts as one. -/
def instructionLength (memory : Memory) (address : UInt16) : Nat :=
  (Table.lookup? memory address).elim 1 Entry.length

/-- The bytes of the instruction at an address. -/
def instructionBytes (memory : Memory) (address : UInt16) : List UInt8 :=
  memory.slice address (instructionLength memory address)

theorem instructionBytes_of_lookup? {memory : Memory} {address : UInt16} {entry : Entry}
    (found : Table.lookup? memory address = some entry) :
    instructionBytes memory address = memory.slice address entry.length := by
  rw [instructionBytes, instructionLength, found, Option.elim_some]

def row (memory : Memory) (address : UInt16) : Row :=
  match Table.lookup? memory address with
  | some entry => Row.ofEntry entry address (memory.slice address entry.length)
  | none => Row.ofData address (memory.read address)

/-- Consecutive rows from an address on. -/
def rows (memory : Memory) (address : UInt16) : Nat → List Row
  | 0 => []
  | count + 1 =>
      let first := row memory address
      first :: rows memory first.next count

end Listing

end Z80
