import Z80.Cpu.Arithmetic
import Z80.Instruction.Fetch

/-!
# Executing instructions

What one instruction does to the processor and which cells it writes.  The
program counter already stands behind the instruction.  An instruction reads
memory before it writes, so its effect is the new state together with the
writes in the order in which they happen.
-/

namespace Z80

/-- A byte and the address it is written to. -/
structure Write where
  address : UInt16
  byte : UInt8
  deriving DecidableEq, Repr

def Memory.perform (memory : Memory) (writes : List Write) : Memory :=
  writes.foldl (fun current write => current.write write.address write.byte) memory

/-- The word in a cell and the one after it, as a processor reads it: byte by byte. -/
def Memory.busReadWord (memory : Memory) (address : UInt16) : UInt16 :=
  let low := memory.read address
  let high := memory.read (address + 1)
  wordOfBytes high low

/-- A processor and a request read the same words. -/
@[simp] theorem Memory.busReadWord_eq_readWord (memory : Memory) (address : UInt16) :
    memory.busReadWord address = memory.readWord address := rfl

/-- The state after an instruction and the writes it makes. -/
structure Effect where
  cpu : Cpu
  writes : List Write := []

/-- The writes that put a word into a cell and the one after it. -/
def Write.word (address : UInt16) (word : UInt16) : List Write :=
  [⟨address, lowByte word⟩, ⟨address + 1, highByte word⟩]

namespace Cpu

def register (cpu : Cpu) : Register → UInt8
  | .a => cpu.main.a
  | .b => cpu.main.b
  | .c => cpu.main.c
  | .d => cpu.main.d
  | .e => cpu.main.e
  | .h => cpu.main.h
  | .l => cpu.main.l

def setRegister (cpu : Cpu) (register : Register) (byte : UInt8) : Cpu :=
  match register with
  | .a => { cpu with main := { cpu.main with a := byte } }
  | .b => { cpu with main := { cpu.main with b := byte } }
  | .c => { cpu with main := { cpu.main with c := byte } }
  | .d => { cpu with main := { cpu.main with d := byte } }
  | .e => { cpu with main := { cpu.main with e := byte } }
  | .h => { cpu with main := { cpu.main with h := byte } }
  | .l => { cpu with main := { cpu.main with l := byte } }

def pair (cpu : Cpu) : Pair → UInt16
  | .bc => cpu.main.bc
  | .de => cpu.main.de
  | .hl => cpu.main.hl
  | .sp => cpu.sp
  | .af => cpu.main.af
  | .index register => cpu.index register

def setPair (cpu : Cpu) (pair : Pair) (word : UInt16) : Cpu :=
  match pair with
  | .bc => { cpu with main := cpu.main.setBC word }
  | .de => { cpu with main := cpu.main.setDE word }
  | .hl => { cpu with main := cpu.main.setHL word }
  | .sp => { cpu with sp := word }
  | .af => { cpu with main := cpu.main.setAF word }
  | .index register => cpu.setIndex register word

/-- A pair keeps a word, except that the flags have no place for two of its bits. -/
theorem pair_setPair (cpu : Cpu) {target : Pair} (plain : target ≠ .af) (word : UInt16) :
    (cpu.setPair target word).pair target = word := by
  cases target with
  | bc => exact cpu.main.bc_setBC word
  | de => exact cpu.main.de_setDE word
  | hl => exact cpu.main.hl_setHL word
  | sp => rfl
  | af => exact absurd rfl plain
  | index register => exact cpu.index_setIndex register word

theorem pair_setPair_of_ne (cpu : Cpu) {target other : Pair} (distinct : other ≠ target)
    (word : UInt16) : (cpu.setPair target word).pair other = cpu.pair other := by
  cases target with
  | index register =>
      cases register <;> rcases other with _ | _ | _ | _ | _ | ⟨_ | _⟩ <;>
        first | exact absurd rfl distinct | rfl
  | _ => cases other <;> first | exact absurd rfl distinct | rfl

def setFlags (cpu : Cpu) (flags : Flags) : Cpu :=
  { cpu with main := { cpu.main with flags := flags } }

theorem pair_setFlags (cpu : Cpu) {target : Pair} (plain : target ≠ .af) (flags : Flags) :
    (cpu.setFlags flags).pair target = cpu.pair target := by
  cases target with
  | af => exact absurd rfl plain
  | index register => cases register <;> rfl
  | _ => rfl

def setAccumulator (cpu : Cpu) (result : UInt8 × Flags) : Cpu :=
  { cpu with main := { cpu.main with a := result.1, flags := result.2 } }

/-- The address a pointer stands for. -/
def address (cpu : Cpu) : Pointer → UInt16
  | .bc => cpu.main.bc
  | .de => cpu.main.de
  | .hl => cpu.main.hl
  | .absolute address => address
  | .indexed register displacement => cpu.index register + signExtend displacement

/-- The byte kept in a place. -/
def byteIn (cpu : Cpu) (memory : Memory) : Place → UInt8
  | .register register => cpu.register register
  | .cell pointer => memory.read (cpu.address pointer)

def byteFrom (cpu : Cpu) (memory : Memory) : Source → UInt8
  | .place place => cpu.byteIn memory place
  | .constant byte => byte

def wordFrom (cpu : Cpu) (memory : Memory) : WordSource → UInt16
  | .place (.pair pair) => cpu.pair pair
  | .place (.cells address) => memory.busReadWord address
  | .constant word => word

def keep (cpu : Cpu) (place : Place) (byte : UInt8) : Effect :=
  match place with
  | .register register => { cpu := cpu.setRegister register byte }
  | .cell pointer => { cpu := cpu, writes := [⟨cpu.address pointer, byte⟩] }

def keepWord (cpu : Cpu) (place : WordPlace) (word : UInt16) : Effect :=
  match place with
  | .pair pair => { cpu := cpu.setPair pair word }
  | .cells address => { cpu := cpu, writes := Write.word address word }

/-- Replace the byte in a place and set the flags. -/
def replace (cpu : Cpu) (place : Place) (result : UInt8 × Flags) : Effect :=
  (cpu.setFlags result.2).keep place result.1

/-- Put a word on top of the stack, the more significant byte first. -/
def push (cpu : Cpu) (word : UInt16) : Effect where
  cpu := { cpu with sp := cpu.sp - 2 }
  writes := [⟨cpu.sp - 1, highByte word⟩, ⟨cpu.sp - 2, lowByte word⟩]

def pop (cpu : Cpu) (memory : Memory) : UInt16 × Cpu :=
  (memory.busReadWord cpu.sp, { cpu with sp := cpu.sp + 2 })

/-- Whether a condition, if there is one, is met. -/
def permits (cpu : Cpu) (condition : Option Condition) : Bool :=
  condition.all fun condition => condition.holds cpu.main.flags

def goto (cpu : Cpu) (target : UInt16) : Cpu :=
  { cpu with pc := target }

/-- Continue at a displacement from the next instruction. -/
def gotoRelative (cpu : Cpu) (displacement : UInt8) : Cpu :=
  cpu.goto (cpu.pc + signExtend displacement)

/-- Continue at an address after putting the return address on the stack. -/
def enter (cpu : Cpu) (target : UInt16) : Effect :=
  let pushed := cpu.push cpu.pc
  { pushed with cpu := pushed.cpu.goto target }

/-- Continue at the address on top of the stack. -/
def leave (cpu : Cpu) (memory : Memory) : Cpu :=
  let popped := cpu.pop memory
  popped.2.goto popped.1

/-- Load the accumulator from a special register; the overflow flag then shows
whether interrupts are enabled. -/
def readSpecial (cpu : Cpu) (register : SpecialRegister) : Cpu :=
  let byte :=
    match register with
    | .i => cpu.i
    | .r => cpu.r
  cpu.setAccumulator
    (byte,
      { cpu.main.flags.setSignZero byte with
        halfCarry := false
        overflow := cpu.interruptsEnabled
        subtract := false })

/-- Load a special register from the accumulator. -/
def writeSpecial (cpu : Cpu) (register : SpecialRegister) : Cpu :=
  match register with
  | .i => { cpu with i := cpu.main.a }
  | .r => { cpu with r := cpu.main.a }

/-- Store the cell of a digit rotation, and keep its accumulator. -/
def rotateDigit (cpu : Cpu) (result : UInt8 × UInt8) : Effect where
  cpu :=
    cpu.setAccumulator
      (result.2,
        { cpu.main.flags.setSignZeroParity result.2 with
          halfCarry := false
          subtract := false })
  writes := [⟨cpu.main.hl, result.1⟩]

/-- Run the instruction again, which is two bytes long. -/
def again (cpu : Cpu) : Cpu :=
  cpu.goto (cpu.pc - 2)

/-- Copy the cell at HL to the one at DE, move both pointers and count down; a
repeating copy runs again until the count is zero. -/
def copyBlock (cpu : Cpu) (memory : Memory) (direction : Direction) (repeats : Bool) :
    Effect :=
  let count := cpu.main.bc - 1
  let bank :=
    ((cpu.main.setHL (cpu.main.hl + direction.stride)).setDE
      (cpu.main.de + direction.stride)).setBC count
  let flags :=
    { cpu.main.flags with halfCarry := false, overflow := count != 0, subtract := false }
  let moved := { cpu with main := { bank with flags := flags } }
  { cpu := if repeats && count != 0 then moved.again else moved
    writes := [⟨cpu.main.de, memory.read cpu.main.hl⟩] }

/-- Compare the accumulator with the cell at HL, move the pointer and count
down; a repeating search runs again until the count is zero or a cell matches. -/
def compareBlock (cpu : Cpu) (memory : Memory) (direction : Direction) (repeats : Bool) :
    Cpu :=
  let byte := memory.read cpu.main.hl
  let difference := cpu.main.a - byte
  let count := cpu.main.bc - 1
  let bank := (cpu.main.setHL (cpu.main.hl + direction.stride)).setBC count
  let flags :=
    { cpu.main.flags.setSignZero difference with
      halfCarry := cpu.main.a % 16 < byte % 16
      overflow := count != 0
      subtract := true }
  let moved := { cpu with main := { bank with flags := flags } }
  if repeats && count != 0 && difference != 0 then moved.again else moved

def execute (cpu : Cpu) (memory : Memory) : Instruction → Effect
  | .nop => { cpu := cpu }
  | .halt => { cpu := { cpu with halted := true } }
  | .disableInterrupts => { cpu := { cpu with interruptsEnabled := false } }
  | .enableInterrupts => { cpu := { cpu with interruptsEnabled := true } }
  | .setInterruptMode mode => { cpu := { cpu with interruptMode := mode } }
  | .load target source => cpu.keep target (cpu.byteFrom memory source)
  | .loadWord target source => cpu.keepWord target (cpu.wordFrom memory source)
  | .readSpecial register => { cpu := cpu.readSpecial register }
  | .writeSpecial register => { cpu := cpu.writeSpecial register }
  | .push pair => cpu.push (cpu.pair pair)
  | .pop pair =>
      let popped := cpu.pop memory
      { cpu := popped.2.setPair pair popped.1 }
  | .exchangeAF => { cpu := cpu.exchangeAF }
  | .exchangePairs => { cpu := cpu.exchangePairs }
  | .exchangeDEHL =>
      { cpu := { cpu with main := (cpu.main.setDE cpu.main.hl).setHL cpu.main.de } }
  | .exchangeStackTop pair =>
      { cpu := cpu.setPair pair (memory.busReadWord cpu.sp)
        writes := Write.word cpu.sp (cpu.pair pair) }
  | .accumulate operation source =>
      { cpu :=
          cpu.setAccumulator
            (Arithmetic.combine operation cpu.main.a (cpu.byteFrom memory source)
              cpu.main.flags.carry) }
  | .increment place =>
      cpu.replace place (Arithmetic.increment cpu.main.flags (cpu.byteIn memory place))
  | .decrement place =>
      cpu.replace place (Arithmetic.decrement cpu.main.flags (cpu.byteIn memory place))
  | .incrementPair pair => { cpu := cpu.setPair pair (cpu.pair pair + 1) }
  | .decrementPair pair => { cpu := cpu.setPair pair (cpu.pair pair - 1) }
  | .addPair target source =>
      let result := Arithmetic.addWord cpu.main.flags (cpu.pair target) (cpu.pair source)
      { cpu := (cpu.setFlags result.2).setPair target result.1 }
  | .addCarryPair source =>
      let result :=
        Arithmetic.addCarryWord cpu.main.hl (cpu.pair source) cpu.main.flags.carry
      { cpu := (cpu.setFlags result.2).setPair .hl result.1 }
  | .subtractCarryPair source =>
      let result :=
        Arithmetic.subtractCarryWord cpu.main.hl (cpu.pair source) cpu.main.flags.carry
      { cpu := (cpu.setFlags result.2).setPair .hl result.1 }
  | .rotateAccumulator rotation =>
      { cpu :=
          cpu.setAccumulator
            (Arithmetic.rotateAccumulator cpu.main.flags rotation cpu.main.a) }
  | .rotate rotation place =>
      cpu.replace place
        (Arithmetic.rotate rotation (cpu.byteIn memory place) cpu.main.flags.carry)
  | .testBit position place =>
      { cpu :=
          cpu.setFlags
            (Arithmetic.testBit cpu.main.flags position (cpu.byteIn memory place)) }
  | .resetBit position place =>
      cpu.keep place (cpu.byteIn memory place &&& ~~~(Arithmetic.mask position))
  | .setBit position place =>
      cpu.keep place (cpu.byteIn memory place ||| Arithmetic.mask position)
  | .decimalAdjust =>
      { cpu := cpu.setAccumulator (Arithmetic.decimalAdjust cpu.main.flags cpu.main.a) }
  | .complement =>
      { cpu :=
          cpu.setAccumulator
            (~~~cpu.main.a, { cpu.main.flags with halfCarry := true, subtract := true }) }
  | .negate => { cpu := cpu.setAccumulator (Arithmetic.subtract 0 cpu.main.a false) }
  | .setCarry =>
      { cpu :=
          cpu.setFlags
            { cpu.main.flags with halfCarry := false, subtract := false, carry := true } }
  | .complementCarry =>
      { cpu :=
          cpu.setFlags
            { cpu.main.flags with
              halfCarry := cpu.main.flags.carry
              subtract := false
              carry := !cpu.main.flags.carry } }
  | .rotateDigitLeft =>
      cpu.rotateDigit (Arithmetic.digitLeft cpu.main.a (memory.read cpu.main.hl))
  | .rotateDigitRight =>
      cpu.rotateDigit (Arithmetic.digitRight cpu.main.a (memory.read cpu.main.hl))
  | .jump condition target =>
      { cpu := if cpu.permits condition then cpu.goto target else cpu }
  | .jumpTo pair => { cpu := cpu.goto (cpu.pair pair) }
  | .jumpRelative condition displacement =>
      { cpu := if cpu.permits condition then cpu.gotoRelative displacement else cpu }
  | .decrementJump displacement =>
      let counted := cpu.setRegister .b (cpu.main.b - 1)
      { cpu := if counted.main.b != 0 then counted.gotoRelative displacement else counted }
  | .call condition target =>
      if cpu.permits condition then cpu.enter target else { cpu := cpu }
  | .ret condition =>
      { cpu := if cpu.permits condition then cpu.leave memory else cpu }
  | .restart vector => cpu.enter vector
  | .copyBlock direction repeats => cpu.copyBlock memory direction repeats
  | .compareBlock direction repeats => { cpu := cpu.compareBlock memory direction repeats }

end Cpu

end Z80
