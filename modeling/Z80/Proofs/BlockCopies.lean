import Z80.Proofs.StepAgreement
import Mathlib.Logic.Function.Iterate

/-!
# Repeating block copies

A repeating copy moves one byte for each step and runs again until its count is
zero.  As long as it does not overwrite itself, it copies as many cells as the
count says, one after another, and then goes on behind itself.
-/

namespace Z80

namespace Direction

/-- A pointer after a number of moves. -/
def moved (direction : Direction) (pointer : UInt16) (count : Nat) : UInt16 :=
  match direction with
  | .up => pointer + UInt16.ofNat count
  | .down => pointer - UInt16.ofNat count

/-- The table's entry for the repeating copy that moves in a direction. -/
def copyEntry : Direction → Entry
  | .up => ⟨.extended, 0xB0, .ldir, []⟩
  | .down => ⟨.extended, 0xB8, .lddr, []⟩

/-- The two bytes of the repeating copy that moves in a direction. -/
def copyBytes : Direction → List UInt8
  | .up => [0xED, 0xB0]
  | .down => [0xED, 0xB8]

@[simp] theorem moved_zero (direction : Direction) (pointer : UInt16) :
    direction.moved pointer 0 = pointer := by
  cases direction with
  | up => exact UInt16.add_zero pointer
  | down => exact UInt16.sub_zero pointer

theorem moved_add_stride (direction : Direction) (pointer : UInt16) (count : Nat) :
    direction.moved pointer count + direction.stride = direction.moved pointer (count + 1) := by
  cases direction with
  | up =>
      simp only [moved, stride, UInt16.ofNat_add, UInt16.add_assoc]
      rfl
  | down =>
      apply UInt16.toNat_inj.mp
      simp only [moved, stride, UInt16.toNat_add, UInt16.toNat_sub, UInt16.toNat_ofNat',
        UInt16.reduceToNat]
      omega

end Direction

namespace Memory

/-- Copy cells one after another, while both pointers move in a direction. -/
def copyCells (memory : Memory) (direction : Direction) (source target : UInt16) :
    Nat → Memory
  | 0 => memory
  | count + 1 =>
      let copied := memory.copyCells direction source target count
      copied.write (direction.moved target count)
        (copied.read (direction.moved source count))

end Memory

namespace Bank

/-- How often a repeating block instruction runs at most: as often as the count
says, where zero stands for the whole of memory. -/
def blockCount (bank : Bank) : Nat :=
  if bank.bc = 0 then 65536 else bank.bc.toNat

theorem blockCount_pos (bank : Bank) : 0 < bank.blockCount := by
  unfold blockCount
  split
  · omega
  · rename_i counted
    have nonzero : bank.bc.toNat ≠ 0 := fun zero => counted (UInt16.toNat_inj.mp zero)
    omega

/-- Counting down reaches zero after all runs and not before. -/
theorem bc_sub_eq_zero_iff (bank : Bank) {count : Nat} (positive : 0 < count)
    (within : count ≤ bank.blockCount) :
    bank.bc - UInt16.ofNat count = 0 ↔ count = bank.blockCount := by
  have bound := bank.bc.toNat_lt
  rw [← UInt16.toNat_inj, UInt16.toNat_sub, UInt16.toNat_ofNat', UInt16.toNat_zero]
  unfold blockCount at *
  split at within
  · rename_i zero
    rw [if_pos zero, zero, UInt16.toNat_zero]
    omega
  · rename_i counted
    rw [if_neg counted]
    omega

/-- Counting down once more. -/
theorem bc_sub_sub_one (bank : Bank) (count : Nat) :
    bank.bc - UInt16.ofNat count - 1 = bank.bc - UInt16.ofNat (count + 1) := by
  apply UInt16.toNat_inj.mp
  simp only [UInt16.toNat_sub, UInt16.toNat_ofNat', UInt16.reduceToNat]
  omega

/-- The registers after a number of copies.  The first copy clears two of the
flags, and every copy shows in a third one whether another one is to follow. -/
def afterCopies (bank : Bank) (direction : Direction) (count : Nat) : Bank :=
  let left := bank.bc - UInt16.ofNat count
  { ((bank.setHL (direction.moved bank.hl count)).setDE
      (direction.moved bank.de count)).setBC left with
    flags :=
      if count = 0 then bank.flags
      else
        { bank.flags with halfCarry := false, overflow := left != 0, subtract := false } }

@[simp] theorem afterCopies_zero (bank : Bank) (direction : Direction) :
    bank.afterCopies direction 0 = bank := by
  simp [afterCopies, setHL, setDE, setBC, hl, de, bc]

variable (bank : Bank) (direction : Direction) (count : Nat)

@[simp] theorem hl_afterCopies :
    (bank.afterCopies direction count).hl = direction.moved bank.hl count :=
  wordOfBytes_highByte_lowByte _

@[simp] theorem de_afterCopies :
    (bank.afterCopies direction count).de = direction.moved bank.de count :=
  wordOfBytes_highByte_lowByte _

@[simp] theorem bc_afterCopies :
    (bank.afterCopies direction count).bc = bank.bc - UInt16.ofNat count :=
  wordOfBytes_highByte_lowByte _

/-- What one more copy makes of the registers. -/
theorem afterCopies_succ :
    let left := bank.bc - UInt16.ofNat (count + 1)
    let former := bank.afterCopies direction count
    { ((former.setHL (direction.moved bank.hl (count + 1))).setDE
        (direction.moved bank.de (count + 1))).setBC left with
      flags :=
        { former.flags with halfCarry := false, overflow := left != 0, subtract := false } } =
      bank.afterCopies direction (count + 1) := by
  cases count <;> rfl

end Bank

namespace Machine

/-- The machine after one step. -/
def next (machine : Machine) : Machine :=
  machine.step.2

end Machine

namespace Cpu

/-- The processor after a number of copies of a block, whose instruction stands at
the program counter. -/
def afterCopies (cpu : Cpu) (direction : Direction) (count : Nat) : Cpu :=
  { cpu with
    main := cpu.main.afterCopies direction count
    pc := if count = cpu.main.blockCount then cpu.pc + 2 else cpu.pc }

@[simp] theorem afterCopies_zero (cpu : Cpu) (direction : Direction) :
    cpu.afterCopies direction 0 = cpu := by
  have counted := cpu.main.blockCount_pos
  simp [afterCopies, counted.ne]

/-- One more copy follows the former ones until the count is used up. -/
theorem copyBlock_afterCopies (cpu : Cpu) (memory : Memory) (direction : Direction)
    {count : Nat} (unfinished : count < cpu.main.blockCount) :
    ((cpu.afterCopies direction count).goto (cpu.pc + 2)).copyBlock memory direction true =
      { cpu := cpu.afterCopies direction (count + 1)
        writes :=
          [⟨direction.moved cpu.main.de count,
            memory.read (direction.moved cpu.main.hl count)⟩] } := by
  have left := cpu.main.bc_sub_sub_one count
  have finished : cpu.main.bc - UInt16.ofNat (count + 1) = 0 ↔
      count + 1 = cpu.main.blockCount :=
    cpu.main.bc_sub_eq_zero_iff (Nat.succ_pos count) unfinished
  have back : cpu.pc + 2 - 2 = cpu.pc := UInt16.add_sub_cancel cpu.pc 2
  have bank := cpu.main.afterCopies_succ direction count
  dsimp only at bank
  simp only [copyBlock, goto, afterCopies, Bank.hl_afterCopies, Bank.de_afterCopies,
    Bank.bc_afterCopies, Direction.moved_add_stride, left, bank, Bool.true_and]
  by_cases last : count + 1 = cpu.main.blockCount
  · simp only [finished.mpr last, if_pos last, bne_self_eq_false, Bool.false_eq_true,
      if_false]
  · have more : (cpu.main.bc - UInt16.ofNat (count + 1) != 0) = true :=
      bne_iff_ne.mpr (mt finished.mp last)
    simp only [more, if_neg last, if_true, again, goto, back]

/-- After the last copy the count is zero and three flags are clear. -/
theorem afterCopies_blockCount (cpu : Cpu) (direction : Direction) :
    let total := cpu.main.blockCount
    cpu.afterCopies direction total =
      { cpu with
        pc := cpu.pc + 2
        main :=
          { ((cpu.main.setHL (direction.moved cpu.main.hl total)).setDE
              (direction.moved cpu.main.de total)).setBC 0 with
            flags :=
              { cpu.main.flags with
                halfCarry := false, overflow := false, subtract := false } } } := by
  have positive := cpu.main.blockCount_pos
  have left : cpu.main.bc - UInt16.ofNat cpu.main.blockCount = 0 :=
    (cpu.main.bc_sub_eq_zero_iff positive le_rfl).mpr rfl
  simp only [afterCopies, Bank.afterCopies, left, if_neg positive.ne', if_true,
    bne_self_eq_false]

/-- Where the bytes of a repeating copy stand, a step makes one copy. -/
theorem step_of_copyBytes {cpu : Cpu} {memory : Memory} {direction : Direction}
    (running : cpu.halted = false)
    (stored : memory.slice cpu.pc 2 = direction.copyBytes) :
    cpu.step memory =
      { (cpu.goto (cpu.pc + 2)).copyBlock memory direction true with
        outcome := .executed direction.copyBytes } := by
  have member : direction.copyEntry ∈ Table.entries := by
    cases direction <;> exact Table.mem_entries.mpr (by decide)
  have meaning : direction.copyEntry.meaning? [] = some (.copyBlock direction true) := by
    cases direction <;> rfl
  have encoded : direction.copyEntry.encode [] = direction.copyBytes := by
    cases direction <;> rfl
  have length : direction.copyEntry.length = 2 := by cases direction <;> rfl
  rw [← encoded, ← length] at stored
  rw [step_of_slice running member meaning (by cases direction <;> rfl) stored, encoded, length]
  rfl

end Cpu

namespace Machine

/-- Each step makes one copy, as long as the former copies left the instruction
in its place. -/
theorem next_iterate_copy {cpu : Cpu} {memory : Memory} {direction : Direction}
    (running : cpu.halted = false)
    (intact : ∀ count < cpu.main.blockCount,
      (memory.copyCells direction cpu.main.hl cpu.main.de count).slice cpu.pc 2 =
        direction.copyBytes)
    {count : Nat} (within : count ≤ cpu.main.blockCount) :
    next^[count] ⟨cpu, memory⟩ =
      ⟨cpu.afterCopies direction count,
        memory.copyCells direction cpu.main.hl cpu.main.de count⟩ := by
  induction count with
  | zero =>
      rw [Cpu.afterCopies_zero]
      rfl
  | succ count ih =>
      have unfinished : count < cpu.main.blockCount := within
      have pc : (cpu.afterCopies direction count).pc = cpu.pc := if_neg unfinished.ne
      have stored := intact count unfinished
      rw [← pc] at stored
      have alive : (cpu.afterCopies direction count).halted = false := running
      have stepped := Cpu.step_of_copyBytes alive stored
      rw [pc, Cpu.copyBlock_afterCopies cpu _ direction unfinished] at stepped
      rw [Function.iterate_succ_apply', ih unfinished.le]
      unfold next step
      dsimp only
      rw [stepped]
      rfl

/-- A repeating copy that is not overwritten before it is done runs as many steps as
the count in BC says, zero standing for 65536.  Every step executes it, and it stays
at its address before the last one.  In the end it stands behind itself, that many
cells have been copied one after another, both pointers have moved past them, the
count is zero, and three flags are clear; nothing else has changed. -/
theorem block_copies_complete (cpu : Cpu) (memory : Memory) (direction : Direction)
    (running : cpu.halted = false)
    (stored : memory.slice cpu.pc 2 = direction.copyBytes)
    (intact : ∀ count < cpu.main.blockCount,
      (memory.copyCells direction cpu.main.hl cpu.main.de count).slice cpu.pc 2 =
        memory.slice cpu.pc 2) :
    let start : Machine := ⟨cpu, memory⟩
    let total := cpu.main.blockCount
    (∀ count < total,
      (next^[count] start).step.1 = .executed direction.copyBytes ∧
      (next^[count] start).cpu.pc = cpu.pc) ∧
    (next^[total] start).memory =
      memory.copyCells direction cpu.main.hl cpu.main.de total ∧
    (next^[total] start).cpu =
      { cpu with
        pc := cpu.pc + 2
        main :=
          { ((cpu.main.setHL (direction.moved cpu.main.hl total)).setDE
              (direction.moved cpu.main.de total)).setBC 0 with
            flags :=
              { cpu.main.flags with
                halfCarry := false, overflow := false, subtract := false } } } := by
  intro start total
  rw [stored] at intact
  have reached {count : Nat} (within : count ≤ total) :=
    next_iterate_copy running intact within
  refine ⟨?_, ?_, ?_⟩
  · intro count unfinished
    have pc : (cpu.afterCopies direction count).pc = cpu.pc := if_neg unfinished.ne
    have alive : (cpu.afterCopies direction count).halted = false := running
    have stands := intact count unfinished
    rw [← pc] at stands
    rw [reached unfinished.le]
    exact ⟨congrArg Step.outcome (Cpu.step_of_copyBytes alive stands), pc⟩
  · rw [reached le_rfl]
  · rw [reached le_rfl]
    exact cpu.afterCopies_blockCount direction

/-- A copy onto its own source, by an instruction that lies across the last address:
one byte fills three cells. -/
theorem block_copies_complete_fill :
    let memory := ((Memory.zero.write 0xFFFF 0xED).write 0 0xB0).write 0x4000 7
    let cpu : Cpu :=
      { pc := 0xFFFF, main := { b := 0, c := 3, d := 0x40, e := 1, h := 0x40, l := 0 } }
    let done := next^[3] ⟨cpu, memory⟩
    cpu.halted = false ∧ memory.slice cpu.pc 2 = Direction.up.copyBytes ∧
      cpu.main.blockCount = 3 ∧
      (∀ count < 3, (memory.copyCells .up 0x4000 0x4001 count).slice cpu.pc 2 =
        memory.slice cpu.pc 2) ∧
      done.memory.slice 0x4000 5 = [7, 7, 7, 7, 0] ∧ done.cpu.pc = 1 := by
  intro memory cpu done
  have stored : memory.slice cpu.pc 2 = Direction.up.copyBytes := by
    simp [memory, cpu, Memory.slice, Memory.read_write, Direction.copyBytes]
  have count : cpu.main.blockCount = 3 := by decide
  have intact : ∀ count < 3, (memory.copyCells .up 0x4000 0x4001 count).slice cpu.pc 2 =
      memory.slice cpu.pc 2 := by
    intro count few
    obtain rfl | rfl | rfl : count = 0 ∨ count = 1 ∨ count = 2 := by omega
    all_goals
      simp [memory, cpu, Memory.copyCells, Memory.slice, Memory.read_write, Direction.moved]
  have source : cpu.main.hl = 0x4000 := by decide
  have target : cpu.main.de = 0x4001 := by decide
  have stands : ∀ count < cpu.main.blockCount,
      (memory.copyCells .up cpu.main.hl cpu.main.de count).slice cpu.pc 2 =
        memory.slice cpu.pc 2 := by
    rw [count, source, target]
    exact intact
  obtain ⟨-, cells, registers⟩ := block_copies_complete cpu memory .up rfl stored stands
  rw [count] at cells registers
  refine ⟨rfl, stored, count, intact, ?_, ?_⟩
  · rw [cells, source, target]
    simp [memory, Memory.copyCells, Memory.slice, Memory.read_write, Direction.moved]
  · exact (congrArg Cpu.pc registers).trans (by decide : (0xFFFF : UInt16) + 2 = 1)

end Machine

end Z80
