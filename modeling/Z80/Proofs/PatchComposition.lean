import Z80.Cpu.Patch
import Z80.Instruction.Basic

/-!
# Patches one after another

A processor state is the values of its fields, and a patch says for each field what
it becomes, if the patch names it: a flag is named by its own slot or, failing that,
by the flag byte.  Patches compose field by field, so that two patches one after
another are one patch in which the second wins.
-/

namespace Z80

/-- A condition flag by its name. -/
inductive FlagName where
  | sign | zero | halfCarry | overflow | subtract | carry
  deriving DecidableEq, Repr

/-- A part of a bank that a patch can name. -/
inductive BankField where
  | register (register : Register)
  | flag (name : FlagName)
  deriving DecidableEq, Repr

/-- A part of the processor state that a patch can name. -/
inductive Field where
  | main (part : BankField)
  | shadow (part : BankField)
  | i | r
  | ix | iy | sp | pc
  | halted | interruptsEnabled
  | interruptMode
  deriving DecidableEq, Repr

def BankField.Value : BankField → Type
  | .register _ => UInt8
  | .flag _ => Bool

/-- What a part of the processor state holds. -/
def Field.Value : Field → Type
  | .main part => part.Value
  | .shadow part => part.Value
  | .i | .r => UInt8
  | .ix | .iy | .sp | .pc => UInt16
  | .halted | .interruptsEnabled => Bool
  | .interruptMode => InterruptMode

/-! ## The fields of a state -/

namespace Flags

def value (flags : Flags) : FlagName → Bool
  | .sign => flags.sign
  | .zero => flags.zero
  | .halfCarry => flags.halfCarry
  | .overflow => flags.overflow
  | .subtract => flags.subtract
  | .carry => flags.carry

theorem ext_value {first second : Flags}
    (equal : ∀ name, first.value name = second.value name) : first = second := by
  cases first
  cases second
  simp only [mk.injEq]
  exact ⟨equal .sign, equal .zero, equal .halfCarry, equal .overflow, equal .subtract,
    equal .carry⟩

end Flags

namespace Bank

def value (bank : Bank) : (part : BankField) → part.Value
  | .register .a => bank.a
  | .register .b => bank.b
  | .register .c => bank.c
  | .register .d => bank.d
  | .register .e => bank.e
  | .register .h => bank.h
  | .register .l => bank.l
  | .flag name => bank.flags.value name

theorem ext_value {first second : Bank}
    (equal : ∀ part, first.value part = second.value part) : first = second := by
  cases first
  cases second
  simp only [mk.injEq]
  exact ⟨equal (.register .a), Flags.ext_value fun name => equal (.flag name),
    equal (.register .b), equal (.register .c), equal (.register .d), equal (.register .e),
    equal (.register .h), equal (.register .l)⟩

end Bank

namespace Cpu

def value (cpu : Cpu) : (field : Field) → field.Value
  | .main part => cpu.main.value part
  | .shadow part => cpu.shadow.value part
  | .i => cpu.i
  | .r => cpu.r
  | .ix => cpu.ix
  | .iy => cpu.iy
  | .sp => cpu.sp
  | .pc => cpu.pc
  | .halted => cpu.halted
  | .interruptsEnabled => cpu.interruptsEnabled
  | .interruptMode => cpu.interruptMode

/-- States with the same value in every field are equal. -/
theorem ext_value {first second : Cpu}
    (equal : ∀ field, first.value field = second.value field) : first = second := by
  cases first
  cases second
  simp only [mk.injEq]
  exact ⟨Bank.ext_value fun part => equal (.main part),
    Bank.ext_value fun part => equal (.shadow part), equal .i, equal .r, equal .ix, equal .iy,
    equal .sp, equal .pc, equal .halted, equal .interruptsEnabled, equal .interruptMode⟩

end Cpu

/-! ## The fields that a patch names -/

namespace FlagsPatch

def slot (patch : FlagsPatch) : FlagName → Option Bool
  | .sign => patch.sign
  | .zero => patch.zero
  | .halfCarry => patch.halfCarry
  | .overflow => patch.overflow
  | .subtract => patch.subtract
  | .carry => patch.carry

theorem value_apply (patch : FlagsPatch) (flags : Flags) (name : FlagName) :
    (patch.apply flags).value name = (patch.slot name).getD (flags.value name) := by
  cases name <;> rfl

theorem slot_andThen (first second : FlagsPatch) (name : FlagName) :
    (first.andThen second).slot name = (second.slot name).or (first.slot name) := by
  cases name <;> rfl

end FlagsPatch

namespace BankPatch

/-- What a part of a bank becomes, where a single flag wins over the flag byte. -/
def slot (patch : BankPatch) : (part : BankField) → Option part.Value
  | .register .a => patch.a
  | .register .b => patch.b
  | .register .c => patch.c
  | .register .d => patch.d
  | .register .e => patch.e
  | .register .h => patch.h
  | .register .l => patch.l
  | .flag name =>
      (patch.flags.slot name).or (patch.f.map fun byte => (Flags.ofByte byte).value name)

theorem value_apply (patch : BankPatch) (bank : Bank) (part : BankField) :
    (patch.apply bank).value part = (patch.slot part).getD (bank.value part) := by
  cases part with
  | register register => cases register <;> rfl
  | flag name =>
      change (patch.flags.apply _).value name = Option.getD (Option.or _ _) _
      rw [FlagsPatch.value_apply]
      cases patch.flags.slot name with
      | some flag => rfl
      | none => cases patch.f <;> rfl

theorem slot_andThen (first second : BankPatch) (part : BankField) :
    (first.andThen second).slot part = (second.slot part).or (first.slot part) := by
  cases part with
  | register register => cases register <;> rfl
  | flag name =>
      change Option.or ((if second.f.isSome then second.flags else _ : FlagsPatch).slot name)
        ((second.f.or first.f).map _) = Option.or (Option.or _ _) (Option.or _ _)
      cases second.f with
      | some byte =>
          -- the later flag byte decides every flag that the later patch does not name
          change Option.or (second.flags.slot name) _ = _
          cases second.flags.slot name <;> rfl
      | none =>
          have merged := FlagsPatch.slot_andThen first.flags second.flags name
          change Option.or ((first.flags.andThen second.flags).slot name) _ = _
          rw [merged]
          cases second.flags.slot name <;> rfl

end BankPatch

namespace Patch

/-- What a field becomes by a patch, if the patch names it. -/
def slot (patch : Patch) : (field : Field) → Option field.Value
  | .main part => patch.main.slot part
  | .shadow part => patch.shadow.slot part
  | .i => patch.i
  | .r => patch.r
  | .ix => patch.ix
  | .iy => patch.iy
  | .sp => patch.sp
  | .pc => patch.pc
  | .halted => patch.halted
  | .interruptsEnabled => patch.interruptsEnabled
  | .interruptMode =>
      patch.interruptMode.map fun number => InterruptMode.ofNumber number.toNat

/-- A patch gives the fields it names their new values, and the others keep theirs. -/
theorem value_apply (patch : Patch) (cpu : Cpu) (field : Field) :
    (patch.apply cpu).value field = (patch.slot field).getD (cpu.value field) := by
  cases field with
  | main part => exact patch.main.value_apply cpu.main part
  | shadow part => exact patch.shadow.value_apply cpu.shadow part
  | _ => rfl

theorem slot_andThen (first second : Patch) (field : Field) :
    (first.andThen second).slot field = (second.slot field).or (first.slot field) := by
  cases field with
  | main part => exact first.main.slot_andThen second.main part
  | shadow part => exact first.shadow.slot_andThen second.shadow part
  | interruptMode => exact Option.map_or
  | _ => rfl

theorem apply_andThen (first second : Patch) (cpu : Cpu) :
    (first.andThen second).apply cpu = second.apply (first.apply cpu) := by
  apply Cpu.ext_value
  intro field
  rw [value_apply, value_apply, value_apply, slot_andThen, Option.getD_or]

theorem apply_apply (patch : Patch) (cpu : Cpu) :
    patch.apply (patch.apply cpu) = patch.apply cpu := by
  apply Cpu.ext_value
  intro field
  rw [value_apply, value_apply]
  cases patch.slot field <;> rfl

/-- Two patches one after another are one patch, in which the slots of the second win over
those of the first, and its flag byte over the single flags of the first.  A patch applied
twice is a patch applied once, and the empty patch changes nothing.  A field that a patch
names takes the value it is given, and a field that it does not name keeps its own. -/
theorem patches_compose (first second : Patch) (cpu : Cpu) :
    second.apply (first.apply cpu) = (first.andThen second).apply cpu ∧
    first.apply (first.apply cpu) = first.apply cpu ∧
    ({} : Patch).apply cpu = cpu ∧
    (∀ field value, first.slot field = some value → (first.apply cpu).value field = value) ∧
    (∀ field, first.slot field = none → (first.apply cpu).value field = cpu.value field) := by
  refine ⟨(apply_andThen first second cpu).symm, apply_apply first cpu, apply_empty cpu, ?_, ?_⟩
  · intro field value named
    rw [value_apply, named, Option.getD_some]
  · intro field unnamed
    rw [value_apply, unnamed, Option.getD_none]

/-- A flag that is set and a flag byte that clears it, and the registers they leave alone. -/
theorem patches_compose_flags :
    let first : Patch := { main := { b := some 7, flags := { zero := some true } } }
    let second : Patch := { main := { f := some 0x01 } }
    let cpu := Cpu.powerOn
    second.apply (first.apply cpu) =
        Patch.apply { main := { b := some 7, f := some 0x01 } } cpu ∧
      (first.slot (.main (.register .b)) = some (7 : UInt8) ∧
        (first.apply cpu).value (.main (.register .b)) = (7 : UInt8)) ∧
      (first.slot .sp = none ∧ (first.apply cpu).value .sp = (0xFFFF : UInt16)) := by
  intro first second cpu
  have named : first.slot (.main (.register .b)) = some (7 : UInt8) := rfl
  have unnamed : first.slot .sp = none := rfl
  obtain ⟨merged, -, -, given, kept⟩ := patches_compose first second cpu
  exact ⟨merged, ⟨named, given _ _ named⟩, unnamed, kept .sp unnamed⟩

end Patch

end Z80
