import Z80.Flags

/-!
# Processor state

The registers of the processor and its three control settings.  The general
registers form a bank, of which there are two: the main one, on which
instructions act, and its shadow, which only the exchange instructions reach.
The interrupt settings are recorded, although no interrupt is ever delivered.
-/

namespace Z80

/-- The general registers: the accumulator, its flags and three pairs. -/
structure Bank where
  a : UInt8 := 0
  flags : Flags := {}
  b : UInt8 := 0
  c : UInt8 := 0
  d : UInt8 := 0
  e : UInt8 := 0
  h : UInt8 := 0
  l : UInt8 := 0
  deriving DecidableEq, Repr, Inhabited

namespace Bank

def af (bank : Bank) : UInt16 := wordOfBytes bank.a bank.flags.toByte

def bc (bank : Bank) : UInt16 := wordOfBytes bank.b bank.c

def de (bank : Bank) : UInt16 := wordOfBytes bank.d bank.e

def hl (bank : Bank) : UInt16 := wordOfBytes bank.h bank.l

def setAF (bank : Bank) (word : UInt16) : Bank :=
  { bank with a := highByte word, flags := Flags.ofByte (lowByte word) }

def setBC (bank : Bank) (word : UInt16) : Bank :=
  { bank with b := highByte word, c := lowByte word }

def setDE (bank : Bank) (word : UInt16) : Bank :=
  { bank with d := highByte word, e := lowByte word }

def setHL (bank : Bank) (word : UInt16) : Bank :=
  { bank with h := highByte word, l := lowByte word }

@[simp] theorem bc_setBC (bank : Bank) (word : UInt16) : (bank.setBC word).bc = word := by
  simp [bc, setBC]

@[simp] theorem de_setDE (bank : Bank) (word : UInt16) : (bank.setDE word).de = word := by
  simp [de, setDE]

@[simp] theorem hl_setHL (bank : Bank) (word : UInt16) : (bank.setHL word).hl = word := by
  simp [hl, setHL]

end Bank

inductive IndexRegister where
  | ix | iy
  deriving DecidableEq, Repr

namespace IndexRegister

def name : IndexRegister → String
  | .ix => "IX"
  | .iy => "IY"

/-- The byte in front of an instruction that makes it use the register. -/
def leadByte : IndexRegister → UInt8
  | .ix => 0xDD
  | .iy => 0xFD

/-- The index register that a lead byte selects. -/
def ofLeadByte? (byte : UInt8) : Option IndexRegister :=
  if byte = 0xDD then some .ix
  else if byte = 0xFD then some .iy
  else none

end IndexRegister

/-- The three ways of serving an interrupt. -/
inductive InterruptMode where
  | zero | one | two
  deriving DecidableEq, Repr, Inhabited

namespace InterruptMode

def number : InterruptMode → Nat
  | .zero => 0
  | .one => 1
  | .two => 2

/-- The mode with a given number, where numbers past the last mode mean that one. -/
def ofNumber : Nat → InterruptMode
  | 0 => .zero
  | 1 => .one
  | _ => .two

end InterruptMode

/-- The whole state of the processor. -/
structure Cpu where
  main : Bank := {}
  shadow : Bank := {}
  /-- The interrupt vector base. -/
  i : UInt8 := 0
  /-- The memory refresh counter. -/
  r : UInt8 := 0
  ix : UInt16 := 0
  iy : UInt16 := 0
  sp : UInt16 := 0
  pc : UInt16 := 0
  halted : Bool := false
  interruptsEnabled : Bool := false
  interruptMode : InterruptMode := .zero
  deriving DecidableEq, Repr, Inhabited

namespace Cpu

/-- The state after power-on: all zero but the stack pointer. -/
def powerOn : Cpu := { sp := 0xFFFF }

def index (cpu : Cpu) : IndexRegister → UInt16
  | .ix => cpu.ix
  | .iy => cpu.iy

def setIndex (cpu : Cpu) (register : IndexRegister) (word : UInt16) : Cpu :=
  match register with
  | .ix => { cpu with ix := word }
  | .iy => { cpu with iy := word }

/-- Swap the accumulator and the flags with their shadows. -/
def exchangeAF (cpu : Cpu) : Cpu :=
  { cpu with
    main := { cpu.main with a := cpu.shadow.a, flags := cpu.shadow.flags }
    shadow := { cpu.shadow with a := cpu.main.a, flags := cpu.main.flags } }

/-- Swap the three register pairs with their shadows. -/
def exchangePairs (cpu : Cpu) : Cpu :=
  { cpu with
    main := { cpu.shadow with a := cpu.main.a, flags := cpu.main.flags }
    shadow := { cpu.main with a := cpu.shadow.a, flags := cpu.shadow.flags } }

def exchangeBanks (cpu : Cpu) : Cpu :=
  { cpu with main := cpu.shadow, shadow := cpu.main }

@[simp] theorem exchangeBanks_exchangeBanks (cpu : Cpu) :
    cpu.exchangeBanks.exchangeBanks = cpu := rfl

@[simp] theorem index_setIndex (cpu : Cpu) (register : IndexRegister) (word : UInt16) :
    (cpu.setIndex register word).index register = word := by
  cases register <;> rfl

end Cpu

end Z80
