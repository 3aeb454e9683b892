import Z80.Instruction.Basic
import Z80.Memory
import Z80.Opcode.Fields

/-!
# Fetching instructions

An instruction is read byte by byte from memory, wrapping past the last
address.  A fetch yields the instruction, or nothing if the bytes stand for
none, and the address after the last byte it took; no byte is looked at without
being taken.
-/

namespace Z80

/-- A reading of consecutive bytes, which yields a value and the address after
the bytes it took. -/
def Fetch (α : Type) : Type :=
  Memory → UInt16 → α × UInt16

namespace Fetch

instance : Monad Fetch where
  pure value := fun _memory address => (value, address)
  bind first rest := fun memory address =>
    match first memory address with
    | (value, after) => rest value memory after

instance : LawfulMonad Fetch :=
  LawfulMonad.mk' Fetch
    (fun _ => rfl)
    (fun _ _ => rfl)
    (fun _ _ _ => rfl)

def byte : Fetch UInt8 := fun memory address =>
  (memory.read address, address + 1)

/-- Take a word, the less significant byte first. -/
def word : Fetch UInt16 := do
  let low ← byte
  let high ← byte
  return wordOfBytes high low

end Fetch

namespace Instruction

/-- The bytes taken stand for no instruction. -/
def unknown : Fetch (Option Instruction) :=
  pure none

/-- The bytes taken make up the instruction. -/
def plain (instruction : Instruction) : Fetch (Option Instruction) :=
  pure (some instruction)

/-- One more byte completes the instruction. -/
def withByte (complete : UInt8 → Instruction) : Fetch (Option Instruction) := do
  let byte ← Fetch.byte
  return some (complete byte)

/-- One more word completes the instruction. -/
def withWord (complete : UInt16 → Instruction) : Fetch (Option Instruction) := do
  let word ← Fetch.word
  return some (complete word)

/-- The place with a given three-bit code. -/
def place (code : Fin 8) : Place :=
  match code with
  | 0 => .register .b
  | 1 => .register .c
  | 2 => .register .d
  | 3 => .register .e
  | 4 => .register .h
  | 5 => .register .l
  | 6 => .cell .hl
  | _ => .register .a

/-- The pair with a given two-bit code, in all instructions but two. -/
def pair (code : Fin 4) : Pair :=
  match code with
  | 0 => .bc
  | 1 => .de
  | 2 => .hl
  | _ => .sp

/-- The pair with a given two-bit code, where it is pushed or popped. -/
def stackPair (code : Fin 4) : Pair :=
  match code with
  | 0 => .bc
  | 1 => .de
  | 2 => .hl
  | _ => .af

/-- The pair with a given two-bit code, where an index register replaces HL. -/
def indexPair (register : IndexRegister) (code : Fin 4) : Pair :=
  match code with
  | 0 => .bc
  | 1 => .de
  | 2 => .index register
  | _ => .sp

def accumulator : Place :=
  .register .a

/-- The instruction on a place that a bit-page opcode stands for. -/
def ofBitOpcode (opcode : UInt8) (target : Place) : Instruction :=
  let position := Fields.middle opcode
  match Fields.group opcode with
  | 0 => .rotate (Rotation.ofCode position) target
  | 1 => .testBit position target
  | 2 => .resetBit position target
  | _ => .setBit position target

/-- Finish an instruction of the unprefixed page, of opcodes below `0x40`. -/
def fetchLow (opcode : UInt8) : Fetch (Option Instruction) :=
  let middle := Fields.middle opcode
  let pairCode := Fields.pair opcode
  match Fields.last opcode with
  | 0 =>
      match middle with
      | 0 => plain .nop
      | 1 => plain .exchangeAF
      | 2 => withByte .decrementJump
      | 3 => withByte (.jumpRelative none)
      | code => withByte (.jumpRelative (some (Condition.ofCode (code - 4))))
  | 1 =>
      if Fields.second opcode then plain (.addPair .hl (pair pairCode))
      else withWord fun word => .loadWord (.pair (pair pairCode)) (.constant word)
  | 2 =>
      match middle with
      | 0 => plain (.load (.cell .bc) (.place accumulator))
      | 1 => plain (.load accumulator (.place (.cell .bc)))
      | 2 => plain (.load (.cell .de) (.place accumulator))
      | 3 => plain (.load accumulator (.place (.cell .de)))
      | 4 => withWord fun word => .loadWord (.cells word) (.place (.pair .hl))
      | 5 => withWord fun word => .loadWord (.pair .hl) (.place (.cells word))
      | 6 => withWord fun word => .load (.cell (.absolute word)) (.place accumulator)
      | _ => withWord fun word => .load accumulator (.place (.cell (.absolute word)))
  | 3 =>
      if Fields.second opcode then plain (.decrementPair (pair pairCode))
      else plain (.incrementPair (pair pairCode))
  | 4 => plain (.increment (place middle))
  | 5 => plain (.decrement (place middle))
  | 6 => withByte fun byte => .load (place middle) (.constant byte)
  | _ =>
      match middle with
      | 4 => plain .decimalAdjust
      | 5 => plain .complement
      | 6 => plain .setCarry
      | 7 => plain .complementCarry
      | code => plain (.rotateAccumulator (Rotation.ofCode code))

/-- Finish an instruction of the unprefixed page, of opcodes from `0xC0` on. -/
def fetchHigh (opcode : UInt8) : Fetch (Option Instruction) :=
  let middle := Fields.middle opcode
  let condition := Condition.ofCode middle
  match Fields.last opcode with
  | 0 => plain (.ret (some condition))
  | 1 =>
      match middle with
      | 1 => plain (.ret none)
      | 3 => plain .exchangePairs
      | 5 => plain (.jumpTo .hl)
      | 7 => plain (.loadWord (.pair .sp) (.place (.pair .hl)))
      | _ => plain (.pop (stackPair (Fields.pair opcode)))
  | 2 => withWord (.jump (some condition))
  | 3 =>
      match middle with
      | 0 => withWord (.jump none)
      | 4 => plain (.exchangeStackTop .hl)
      | 5 => plain .exchangeDEHL
      | 6 => plain .disableInterrupts
      | 7 => plain .enableInterrupts
      | _ => unknown
  | 4 => withWord (.call (some condition))
  | 5 =>
      match middle with
      | 1 => withWord (.call none)
      | 3 => unknown
      | 5 => unknown
      | 7 => unknown
      | _ => plain (.push (stackPair (Fields.pair opcode)))
  | 6 => withByte fun byte => .accumulate (Operation.ofCode middle) (.constant byte)
  | _ => plain (.restart (opcode &&& 0x38).toUInt16)

/-- Finish an instruction of the unprefixed page. -/
def fetchBase (opcode : UInt8) : Fetch (Option Instruction) :=
  match Fields.group opcode with
  | 0 => fetchLow opcode
  | 1 =>
      if opcode = 0x76 then plain .halt
      else
        plain (.load (place (Fields.middle opcode)) (.place (place (Fields.last opcode))))
  | 2 =>
      plain
        (.accumulate (Operation.ofCode (Fields.middle opcode))
          (.place (place (Fields.last opcode))))
  | _ => fetchHigh opcode

/-- Finish an instruction of the extended page. -/
def fetchExtended (opcode : UInt8) : Fetch (Option Instruction) :=
  let source := pair (Fields.pair opcode)
  match opcode with
  | 0x42 | 0x52 | 0x62 | 0x72 => plain (.subtractCarryPair source)
  | 0x4A | 0x5A | 0x6A | 0x7A => plain (.addCarryPair source)
  | 0x43 | 0x53 | 0x63 | 0x73 =>
      withWord fun word => .loadWord (.cells word) (.place (.pair source))
  | 0x4B | 0x5B | 0x6B | 0x7B =>
      withWord fun word => .loadWord (.pair source) (.place (.cells word))
  | 0x44 => plain .negate
  | 0x45 | 0x4D => plain (.ret none)
  | 0x46 => plain (.setInterruptMode .zero)
  | 0x56 => plain (.setInterruptMode .one)
  | 0x5E => plain (.setInterruptMode .two)
  | 0x47 => plain (.writeSpecial .i)
  | 0x4F => plain (.writeSpecial .r)
  | 0x57 => plain (.readSpecial .i)
  | 0x5F => plain (.readSpecial .r)
  | 0x67 => plain .rotateDigitRight
  | 0x6F => plain .rotateDigitLeft
  | 0xA0 => plain (.copyBlock .up false)
  | 0xA8 => plain (.copyBlock .down false)
  | 0xB0 => plain (.copyBlock .up true)
  | 0xB8 => plain (.copyBlock .down true)
  | 0xA1 => plain (.compareBlock .up false)
  | 0xA9 => plain (.compareBlock .down false)
  | 0xB1 => plain (.compareBlock .up true)
  | 0xB9 => plain (.compareBlock .down true)
  | _ => unknown

/-- Finish an instruction of an index page, where the register stands for HL
and a cell near it for the one at HL. -/
def fetchIndexed (register : IndexRegister) (opcode : UInt8) :
    Fetch (Option Instruction) :=
  let middle := Fields.middle opcode
  let last := Fields.last opcode
  let self := Pair.index register
  let near := fun displacement => Place.cell (.indexed register displacement)
  match opcode with
  | 0x09 | 0x19 | 0x29 | 0x39 =>
      plain (.addPair self (indexPair register (Fields.pair opcode)))
  | 0x21 => withWord fun word => .loadWord (.pair self) (.constant word)
  | 0x22 => withWord fun word => .loadWord (.cells word) (.place (.pair self))
  | 0x2A => withWord fun word => .loadWord (.pair self) (.place (.cells word))
  | 0x23 => plain (.incrementPair self)
  | 0x2B => plain (.decrementPair self)
  | 0x34 => withByte fun displacement => .increment (near displacement)
  | 0x35 => withByte fun displacement => .decrement (near displacement)
  | 0x36 => do
      let displacement ← Fetch.byte
      withByte fun byte => .load (near displacement) (.constant byte)
  | 0xE1 => plain (.pop self)
  | 0xE3 => plain (.exchangeStackTop self)
  | 0xE5 => plain (.push self)
  | 0xE9 => plain (.jumpTo self)
  | 0xF9 => plain (.loadWord (.pair .sp) (.place (.pair self)))
  | _ =>
      if Fields.group opcode = 1 ∧ last = 6 ∧ middle ≠ 6 then
        withByte fun displacement => .load (place middle) (.place (near displacement))
      else if Fields.group opcode = 1 ∧ middle = 6 ∧ last ≠ 6 then
        withByte fun displacement => .load (near displacement) (.place (place last))
      else if Fields.group opcode = 2 ∧ last = 6 then
        withByte fun displacement =>
          .accumulate (Operation.ofCode middle) (.place (near displacement))
      else
        unknown

/-- Finish an instruction of an indexed bit page, whose displacement comes
before its opcode. -/
def fetchIndexedBit (register : IndexRegister) : Fetch (Option Instruction) := do
  let displacement ← Fetch.byte
  let opcode ← Fetch.byte
  if Fields.last opcode = 6 then
    plain (ofBitOpcode opcode (.cell (.indexed register displacement)))
  else
    unknown

def fetch : Fetch (Option Instruction) := do
  let first ← Fetch.byte
  if first = 0xCB then
    let opcode ← Fetch.byte
    plain (ofBitOpcode opcode (place (Fields.last opcode)))
  else if first = 0xED then
    let opcode ← Fetch.byte
    fetchExtended opcode
  else
    match IndexRegister.ofLeadByte? first with
    | some register =>
        let opcode ← Fetch.byte
        if opcode = 0xCB then fetchIndexedBit register
        else fetchIndexed register opcode
    | none => fetchBase first

end Instruction

end Z80
