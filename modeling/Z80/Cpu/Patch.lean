import Z80.Cpu.State

/-!
# Partial updates of the processor state

A patch has an optional slot for each register, flag and control setting.
Applying it changes what its present slots name and nothing else.  The flags
can be given as a whole byte and one by one; the byte comes first, so that a
single flag wins over it.

Patches compose: `first.andThen second` has the effect of `first` and then
`second`.  A flag that only the first patch names does not survive a flag byte
of the second.

Main statement: applying the patch taken from a state reproduces that state.
-/

namespace Z80

/-- New values for some flags. -/
structure FlagsPatch where
  sign : Option Bool := none
  zero : Option Bool := none
  halfCarry : Option Bool := none
  overflow : Option Bool := none
  subtract : Option Bool := none
  carry : Option Bool := none
  deriving DecidableEq, Repr

/-- New values for some registers of a bank. -/
structure BankPatch where
  a : Option UInt8 := none
  /-- The flags as one byte. -/
  f : Option UInt8 := none
  flags : FlagsPatch := {}
  b : Option UInt8 := none
  c : Option UInt8 := none
  d : Option UInt8 := none
  e : Option UInt8 := none
  h : Option UInt8 := none
  l : Option UInt8 := none
  deriving DecidableEq, Repr

/-- New values for some parts of the processor state. -/
structure Patch where
  main : BankPatch := {}
  shadow : BankPatch := {}
  i : Option UInt8 := none
  r : Option UInt8 := none
  ix : Option UInt16 := none
  iy : Option UInt16 := none
  sp : Option UInt16 := none
  pc : Option UInt16 := none
  halted : Option Bool := none
  interruptsEnabled : Option Bool := none
  /-- The number of the interrupt mode, where numbers past the last mode mean that one. -/
  interruptMode : Option UInt8 := none
  deriving DecidableEq, Repr

namespace FlagsPatch

/-- Set the flags whose slots are present. -/
def apply (patch : FlagsPatch) (flags : Flags) : Flags where
  sign := patch.sign.getD flags.sign
  zero := patch.zero.getD flags.zero
  halfCarry := patch.halfCarry.getD flags.halfCarry
  overflow := patch.overflow.getD flags.overflow
  subtract := patch.subtract.getD flags.subtract
  carry := patch.carry.getD flags.carry

def ofFlags (flags : Flags) : FlagsPatch where
  sign := some flags.sign
  zero := some flags.zero
  halfCarry := some flags.halfCarry
  overflow := some flags.overflow
  subtract := some flags.subtract
  carry := some flags.carry

/-- The slots of the second patch, and where they are absent those of the first. -/
def andThen (first second : FlagsPatch) : FlagsPatch where
  sign := second.sign.or first.sign
  zero := second.zero.or first.zero
  halfCarry := second.halfCarry.or first.halfCarry
  overflow := second.overflow.or first.overflow
  subtract := second.subtract.or first.subtract
  carry := second.carry.or first.carry

end FlagsPatch

namespace BankPatch

/-- Set the registers whose slots are present, the flag byte before single flags. -/
def apply (patch : BankPatch) (bank : Bank) : Bank where
  a := patch.a.getD bank.a
  flags := patch.flags.apply ((patch.f.map Flags.ofByte).getD bank.flags)
  b := patch.b.getD bank.b
  c := patch.c.getD bank.c
  d := patch.d.getD bank.d
  e := patch.e.getD bank.e
  h := patch.h.getD bank.h
  l := patch.l.getD bank.l

def ofBank (bank : Bank) : BankPatch where
  a := some bank.a
  f := some bank.flags.toByte
  flags := FlagsPatch.ofFlags bank.flags
  b := some bank.b
  c := some bank.c
  d := some bank.d
  e := some bank.e
  h := some bank.h
  l := some bank.l

/-- The slots of the second patch, and where they are absent those of the first.
A flag byte of the second hides the single flags of the first. -/
def andThen (first second : BankPatch) : BankPatch where
  a := second.a.or first.a
  f := second.f.or first.f
  flags := if second.f.isSome then second.flags else first.flags.andThen second.flags
  b := second.b.or first.b
  c := second.c.or first.c
  d := second.d.or first.d
  e := second.e.or first.e
  h := second.h.or first.h
  l := second.l.or first.l

end BankPatch

namespace Patch

/-- Set what the present slots name. -/
def apply (patch : Patch) (cpu : Cpu) : Cpu where
  main := patch.main.apply cpu.main
  shadow := patch.shadow.apply cpu.shadow
  i := patch.i.getD cpu.i
  r := patch.r.getD cpu.r
  ix := patch.ix.getD cpu.ix
  iy := patch.iy.getD cpu.iy
  sp := patch.sp.getD cpu.sp
  pc := patch.pc.getD cpu.pc
  halted := patch.halted.getD cpu.halted
  interruptsEnabled := patch.interruptsEnabled.getD cpu.interruptsEnabled
  interruptMode :=
    (patch.interruptMode.map fun number => InterruptMode.ofNumber number.toNat).getD
      cpu.interruptMode

/-- The slots of the second patch, and where they are absent those of the first. -/
def andThen (first second : Patch) : Patch where
  main := first.main.andThen second.main
  shadow := first.shadow.andThen second.shadow
  i := second.i.or first.i
  r := second.r.or first.r
  ix := second.ix.or first.ix
  iy := second.iy.or first.iy
  sp := second.sp.or first.sp
  pc := second.pc.or first.pc
  halted := second.halted.or first.halted
  interruptsEnabled := second.interruptsEnabled.or first.interruptsEnabled
  interruptMode := second.interruptMode.or first.interruptMode

/-- The patch that restores a state. -/
def ofCpu (cpu : Cpu) : Patch where
  main := BankPatch.ofBank cpu.main
  shadow := BankPatch.ofBank cpu.shadow
  i := some cpu.i
  r := some cpu.r
  ix := some cpu.ix
  iy := some cpu.iy
  sp := some cpu.sp
  pc := some cpu.pc
  halted := some cpu.halted
  interruptsEnabled := some cpu.interruptsEnabled
  interruptMode := some (UInt8.ofNat cpu.interruptMode.number)

/-- The patch that sets nothing but the program counter. -/
def atAddress (address : UInt16) : Patch where
  pc := some address

@[simp] theorem apply_empty (cpu : Cpu) : ({} : Patch).apply cpu = cpu := rfl

@[simp] theorem apply_ofCpu (source target : Cpu) :
    (ofCpu source).apply target = source := by
  rcases source with ⟨main, shadow, i, r, ix, iy, sp, pc, halted, enabled, mode⟩
  cases mode <;> rfl

end Patch

end Z80
