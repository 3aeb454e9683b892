import Z80.Proofs.BlockCopies
import Z80.Proofs.ByteChains
import Z80.Proofs.MemoryBlocks
import Z80.Proofs.NumberThreads

/-!
# Walks over cells

Some instructions change the cell at HL with the help of the accumulator and the flags.
Code that executes such an instruction and moves HL to the next cell, again and again,
threads the accumulator and the flags through the bytes of the cells.  As long as the walk
does not lap the memory, every cell is met as it was at the beginning and left as the
instruction made it.
-/

namespace Z80

namespace Direction

theorem moved_stride (direction : Direction) (pointer : UInt16) (count : Nat) :
    direction.moved (pointer + direction.stride) count = direction.moved pointer (count + 1) := by
  rw [← direction.moved_add_stride]
  cases direction with
  | up =>
      simp only [moved, stride, UInt16.add_assoc]
      rw [UInt16.add_comm 1]
  | down =>
      apply UInt16.toNat_inj.mp
      simp only [moved, stride, UInt16.toNat_add, UInt16.toNat_sub]
      omega

/-- A pointer comes back to where it was only after it has met every cell. -/
theorem moved_ne (direction : Direction) (pointer : UInt16) {count : Nat}
    (positive : 0 < count) (bounded : count < 65536) : direction.moved pointer count ≠ pointer := by
  intro equal
  have values := congrArg UInt16.toNat equal
  have pointerLt := pointer.toNat_lt
  cases direction with
  | up =>
      simp only [moved, UInt16.toNat_add, UInt16.toNat_ofNat'] at values
      omega
  | down =>
      simp only [moved, UInt16.toNat_sub, UInt16.toNat_ofNat'] at values
      omega

/-- The instruction that moves HL to the next cell. -/
def move : Direction → Instruction
  | .up => .incrementPair .hl
  | .down => .decrementPair .hl

end Direction

namespace Memory

/-- The bytes of the cells that a pointer meets, in that order. -/
def met (memory : Memory) (direction : Direction) (start : UInt16) : Nat → List UInt8
  | 0 => []
  | count + 1 => memory.read start :: memory.met direction (start + direction.stride) count

@[simp] theorem length_met (memory : Memory) (direction : Direction) (start : UInt16)
    (count : Nat) : (memory.met direction start count).length = count := by
  induction count generalizing start with
  | zero => rfl
  | succ count ih => simp [met, ih]

theorem met_up (memory : Memory) (start : UInt16) (count : Nat) :
    memory.met .up start count = memory.slice start count := by
  induction count generalizing start with
  | zero => rfl
  | succ count ih => exact congrArg (memory.read start :: ·) (ih (start + 1))

theorem reverse_met_down (memory : Memory) (start : UInt16) (count : Nat) :
    (memory.met .down start (count + 1)).reverse =
      memory.slice (start - UInt16.ofNat count) (count + 1) := by
  obtain ⟨lowest, rfl⟩ : ∃ lowest, start = lowest + UInt16.ofNat count :=
    ⟨start - UInt16.ofNat count, (UInt16.sub_add_cancel ..).symm⟩
  rw [UInt16.add_sub_cancel]
  induction count with
  | zero =>
      have here : lowest + UInt16.ofNat 0 = lowest := UInt16.add_zero lowest
      rw [here]
      rfl
  | succ count ih =>
      have below : lowest + UInt16.ofNat (count + 1) + Direction.down.stride =
          lowest + UInt16.ofNat count := by
        apply UInt16.toNat_inj.mp
        simp only [Direction.stride, UInt16.toNat_add, UInt16.toNat_ofNat', UInt16.reduceToNat]
        omega
      rw [met, below, List.reverse_cons, ih, slice_append memory lowest (count + 1) 1]
      rfl

theorem met_eq_of_read_eq {first second : Memory} {direction : Direction} {start : UInt16}
    {count : Nat}
    (equal : ∀ index < count,
      first.read (direction.moved start index) = second.read (direction.moved start index)) :
    first.met direction start count = second.met direction start count := by
  induction count generalizing start with
  | zero => rfl
  | succ count ih =>
      have here := equal 0 (Nat.succ_pos count)
      rw [Direction.moved_zero] at here
      rw [met, met, here, ih]
      intro index indexLt
      rw [Direction.moved_stride]
      exact equal (index + 1) (Nat.succ_lt_succ indexLt)

end Memory

/-- What an instruction makes of a byte and of the accumulator with the flags. -/
abbrev CellOperation := UInt8 → UInt8 × Flags → UInt8 × (UInt8 × Flags)

namespace Instruction

/-- An instruction does nothing but apply an operation to the cell at HL. -/
def Revises (instruction : Instruction) (operation : CellOperation) : Prop :=
  ∀ machine : Machine,
    let cpu := machine.cpu
    let result := operation (machine.memory.read cpu.main.hl) (cpu.main.a, cpu.main.flags)
    machine.execute instruction =
      ⟨cpu.setAccumulator result.2, machine.memory.write cpu.main.hl result.1⟩

end Instruction

namespace Machine

open Arithmetic

/-- Execute instructions one after another, and move HL after each of them. -/
def walk (machine : Machine) (direction : Direction) : List Instruction → Machine
  | [] => machine
  | instruction :: rest =>
      (machine.executeAll [instruction, direction.move]).walk direction rest

theorem execute_move (machine : Machine) (direction : Direction) :
    machine.execute direction.move =
      { machine with
        cpu :=
          { machine.cpu with
            main := machine.cpu.main.setHL (machine.cpu.main.hl + direction.stride) } } := by
  cases direction with
  | up => rfl
  | down =>
      have before : machine.cpu.main.hl - 1 = machine.cpu.main.hl + 0xFFFF :=
        UInt16.sub_eq_add_neg _ _
      exact congrArg (fun pointer => Machine.mk
        { machine.cpu with main := machine.cpu.main.setHL pointer } machine.memory) before

/-- The machine after the cell at HL was revised and HL moved on. -/
def revised (machine : Machine) (direction : Direction) (result : UInt8 × (UInt8 × Flags)) :
    Machine where
  cpu :=
    { machine.cpu with
      main :=
        (machine.cpu.setAccumulator result.2).main.setHL
          (machine.cpu.main.hl + direction.stride) }
  memory := machine.memory.write machine.cpu.main.hl result.1

@[simp] theorem hl_revised (machine : Machine) (direction : Direction)
    (result : UInt8 × (UInt8 × Flags)) :
    (machine.revised direction result).cpu.main.hl =
      machine.cpu.main.hl + direction.stride :=
  Bank.hl_setHL _ _

theorem executeAll_move {instruction : Instruction} {operation : CellOperation}
    (revises : instruction.Revises operation) (direction : Direction) (machine : Machine) :
    machine.executeAll [instruction, direction.move] =
      machine.revised direction (operation (machine.memory.read machine.cpu.main.hl)
        (machine.cpu.main.a, machine.cpu.main.flags)) := by
  change (machine.execute instruction).execute direction.move = _
  rw [execute_move, revises machine]
  rfl

/-- A walk that does not lap the memory applies the operation of its instruction to the
cells that it meets, and leaves the other cells alone. -/
theorem walk_replicate {instruction : Instruction} {operation : CellOperation}
    (revises : instruction.Revises operation) (direction : Direction) {count : Nat}
    (bounded : count ≤ 65536) (machine : Machine) :
    let start := machine.cpu.main.hl
    let threaded := thread operation (machine.cpu.main.a, machine.cpu.main.flags)
      (machine.memory.met direction start count)
    let done := machine.walk direction (List.replicate count instruction)
    done.memory.met direction start count = threaded.1 ∧
      (done.cpu.main.a, done.cpu.main.flags) = threaded.2 ∧
      ∀ address, (∀ index < count, direction.moved start index ≠ address) →
        done.memory.read address = machine.memory.read address := by
  induction count generalizing machine with
  | zero => exact ⟨rfl, rfl, fun _ _ => rfl⟩
  | succ count ih =>
      intro start threaded done
      let first := operation (machine.memory.read start)
        (machine.cpu.main.a, machine.cpu.main.flags)
      let next := machine.revised direction first
      have doneEq : done = next.walk direction (List.replicate count instruction) := by
        change (machine.executeAll [instruction, direction.move]).walk direction _ = _
        rw [executeAll_move revises]
      have away : ∀ index < count,
          direction.moved (start + direction.stride) index ≠ start := by
        intro index indexLt
        rw [Direction.moved_stride]
        exact direction.moved_ne start (Nat.succ_pos index) (by omega)
      -- The cells ahead still hold what they held before the first one was revised.
      have ahead : next.memory.met direction (start + direction.stride) count =
          machine.memory.met direction (start + direction.stride) count := by
        apply Memory.met_eq_of_read_eq
        intro index indexLt
        exact (Memory.read_write ..).trans (if_neg (away index indexLt))
      obtain ⟨bytes, state, others⟩ := ih (by omega) next
      rw [hl_revised, ← doneEq] at bytes state others
      rw [ahead] at bytes state
      have here : done.memory.read start = first.1 :=
        (others start away).trans (Memory.read_write_same ..)
      refine ⟨?_, state, ?_⟩
      · rw [Memory.met, here, bytes]
        rfl
      · intro address outside
        have notStart : address ≠ start := by
          have apart := outside 0 (Nat.succ_pos count)
          rw [Direction.moved_zero] at apart
          exact apart.symm
        have later : ∀ index < count,
            direction.moved (start + direction.stride) index ≠ address := by
          intro index indexLt
          rw [Direction.moved_stride]
          exact outside (index + 1) (Nat.succ_lt_succ indexLt)
        calc
          done.memory.read address = next.memory.read address := others address later
          _ = machine.memory.read address := (Memory.read_write ..).trans (if_neg notStart)

end Machine

end Z80
