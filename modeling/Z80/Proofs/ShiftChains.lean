import Z80.Proofs.CellWalks
import Z80.Proofs.NumberThreads

/-!
# Shifts of numbers of several bytes

A shift or a rotation through the carry moves the bits of one byte, and a digit rotation
moves half a byte between a cell and the accumulator.  What one byte loses, the next one
takes in: from the least significant byte on, a chain multiplies a number of any length by
two or sixteen, and from the most significant byte on, it divides it.
-/

namespace Z80

namespace Arithmetic

theorem rotate_rl_value (byte : UInt8) (carry : Bool) :
    (rotate .rl byte carry).1.toNat + 256 * (rotate .rl byte carry).2.carry.toNat =
      2 * byte.toNat + carry.toNat := by
  have result : (rotate .rl byte carry).1 = byte * 2 + fromBelow carry := rfl
  have left : (rotate .rl byte carry).2.carry = isNegative byte := rfl
  have entered : (fromBelow carry).toNat = carry.toNat := by cases carry <;> rfl
  have bound := byte.toNat_lt
  have carryBound := carry.toNat_le
  rw [result, left, UInt8.toNat_add, UInt8.toNat_mul, entered]
  rcases signedValue_cases byte with ⟨top, high, -⟩ | ⟨top, low, -⟩ <;>
    simp only [top, Bool.toNat_true, Bool.toNat_false, UInt8.reduceToNat] <;>
    omega

theorem rotate_rr_value (byte : UInt8) (carry : Bool) :
    2 * (rotate .rr byte carry).1.toNat + (rotate .rr byte carry).2.carry.toNat =
      byte.toNat + 256 * carry.toNat := by
  have result : (rotate .rr byte carry).1 = byte / 2 + fromAbove carry := rfl
  have left : (rotate .rr byte carry).2.carry = (byte % 2 == 1) := rfl
  have entered : (fromAbove carry).toNat = 128 * carry.toNat := by cases carry <;> rfl
  have bound := byte.toNat_lt
  have carryBound := carry.toNat_le
  have bottom : (byte % 2 == 1).toNat = byte.toNat % 2 := by
    by_cases odd : byte % 2 = 1
    · have value := congrArg UInt8.toNat odd
      simp only [UInt8.toNat_mod, UInt8.reduceToNat] at value
      simp [odd, value]
    · have value : byte.toNat % 2 ≠ 1 := fun equal =>
        odd (UInt8.toNat_inj.mp (by simpa using equal))
      simp only [beq_eq_false_iff_ne.mpr odd, Bool.toNat_false]
      omega
  rw [result, left, bottom, UInt8.toNat_add, UInt8.toNat_div, entered]
  simp only [UInt8.reduceToNat]
  omega

theorem rotate_sla_eq (byte : UInt8) (carry : Bool) :
    rotate .sla byte carry = rotate .rl byte false := by
  have shifted : byte * 2 + fromBelow false = byte * 2 := UInt8.add_zero _
  simp only [rotate, shift, shifted]

theorem rotate_srl_eq (byte : UInt8) (carry : Bool) :
    rotate .srl byte carry = rotate .rr byte false := by
  have shifted : byte / 2 + fromAbove false = byte / 2 := UInt8.add_zero _
  simp only [rotate, shift, shifted]

theorem rotate_sra_eq (byte : UInt8) (carry : Bool) :
    rotate .sra byte carry = rotate .rr byte (isNegative byte) :=
  rfl

/-- A rotation of a byte, with the flags as the state that is handed on. -/
def rotating (rotation : Rotation) (byte : UInt8) (flags : Flags) : UInt8 × Flags :=
  rotate rotation byte flags.carry

/-- A rotation of the cell at HL, which leaves the accumulator alone. -/
def rotatingCell (rotation : Rotation) : CellOperation := fun byte state =>
  let result := rotate rotation byte state.2.carry
  (result.1, state.1, result.2)

theorem multiplies_rotating :
    Multiplies (rotating .rl) 2 fun flags => flags.carry.toNat :=
  fun byte flags => rotate_rl_value byte flags.carry

theorem divides_rotating : Divides (rotating .rr) 2 fun flags => flags.carry.toNat :=
  fun byte flags => rotate_rr_value byte flags.carry

theorem multiplies_rotatingCell :
    Multiplies (rotatingCell .rl) 2 fun state => state.2.carry.toNat :=
  fun byte state => rotate_rl_value byte state.2.carry

theorem divides_rotatingCell :
    Divides (rotatingCell .rr) 2 fun state => state.2.carry.toNat :=
  fun byte state => rotate_rr_value byte state.2.carry

/-- A digit rotation of the cell at HL. -/
def rotatingDigits (digits : UInt8 → UInt8 → UInt8 × UInt8) : CellOperation :=
  fun cell state =>
    let result := digits state.1 cell
    (result.1, result.2,
      { state.2.setSignZeroParity result.2 with halfCarry := false, subtract := false })

theorem digitLeft_value (accumulator cell : UInt8) :
    (digitLeft accumulator cell).1.toNat +
        256 * ((digitLeft accumulator cell).2.toNat % 16) =
      16 * cell.toNat + accumulator.toNat % 16 := by
  have bound := accumulator.toNat_lt
  have cellBound := cell.toNat_lt
  simp only [digitLeft, UInt8.toNat_add, UInt8.toNat_mul, UInt8.toNat_div, UInt8.toNat_mod,
    UInt8.reduceToNat]
  omega

theorem digitRight_value (accumulator cell : UInt8) :
    16 * (digitRight accumulator cell).1.toNat +
        (digitRight accumulator cell).2.toNat % 16 =
      cell.toNat + 256 * (accumulator.toNat % 16) := by
  have bound := accumulator.toNat_lt
  have cellBound := cell.toNat_lt
  simp only [digitRight, UInt8.toNat_add, UInt8.toNat_mul, UInt8.toNat_div, UInt8.toNat_mod,
    UInt8.reduceToNat]
  omega

theorem multiplies_digitLeft :
    Multiplies (rotatingDigits digitLeft) 16 fun state => state.1.toNat % 16 :=
  fun cell state => digitLeft_value state.1 cell

theorem divides_digitRight :
    Divides (rotatingDigits digitRight) 16 fun state => state.1.toNat % 16 :=
  fun cell state => digitRight_value state.1 cell

theorem high_digitLeft (accumulator cell : UInt8) :
    (digitLeft accumulator cell).2.toNat / 16 = accumulator.toNat / 16 := by
  have bound := accumulator.toNat_lt
  have cellBound := cell.toNat_lt
  simp only [digitLeft, UInt8.toNat_add, UInt8.toNat_mul, UInt8.toNat_div, UInt8.reduceToNat]
  omega

theorem high_digitRight (accumulator cell : UInt8) :
    (digitRight accumulator cell).2.toNat / 16 = accumulator.toNat / 16 := by
  have bound := accumulator.toNat_lt
  have cellBound := cell.toNat_lt
  simp only [digitRight, UInt8.toNat_add, UInt8.toNat_mul, UInt8.toNat_div, UInt8.toNat_mod,
    UInt8.reduceToNat]
  omega

end Arithmetic

open Arithmetic

theorem Instruction.revises_rotate (rotation : Rotation) :
    (Instruction.rotate rotation (.cell .hl)).Revises (rotatingCell rotation) :=
  fun _ => rfl

theorem Instruction.revises_rotateDigitLeft :
    Instruction.rotateDigitLeft.Revises (rotatingDigits digitLeft) :=
  fun _ => rfl

theorem Instruction.revises_rotateDigitRight :
    Instruction.rotateDigitRight.Revises (rotatingDigits digitRight) :=
  fun _ => rfl

/-- A byte and the place where it is to be shifted. -/
structure Placed where
  byte : UInt8
  place : Place

namespace Placed

/-- Put the byte into its place and rotate it there. -/
def code (rotation : Rotation) (placed : Placed) : List Instruction :=
  [.load placed.place (.constant placed.byte), .rotate rotation placed.place]

theorem executeAll_code (rotation : Rotation) (placed : Placed) (machine : Machine) :
    let done := machine.executeAll (placed.code rotation)
    (done.cpu.byteIn done.memory placed.place, done.cpu.main.flags) =
      rotating rotation placed.byte machine.cpu.main.flags := by
  obtain ⟨byte, place⟩ := placed
  cases place with
  | register register => cases register <;> rfl
  | cell pointer =>
      have address (flags : Flags) :
          (machine.cpu.setFlags flags).address pointer = machine.cpu.address pointer := by
        cases pointer with
        | indexed register displacement => cases register <;> rfl
        | _ => rfl
      let loaded := machine.memory.write (machine.cpu.address pointer) byte
      let result := rotate rotation (loaded.read (machine.cpu.address pointer))
        machine.cpu.main.flags.carry
      have executed : machine.executeAll (code rotation ⟨byte, .cell pointer⟩) =
          ⟨machine.cpu.setFlags result.2,
            loaded.write ((machine.cpu.setFlags result.2).address pointer) result.1⟩ := rfl
      have read : loaded.read (machine.cpu.address pointer) = byte :=
        Memory.read_write_same ..
      rw [executed]
      simp only [Cpu.byteIn, address, Memory.read_write_same, result, read]
      rfl

/-- Code that shifts a number of at least one byte, with one rotation for the first byte and
another one for the others. -/
def chain (opening following : Rotation) (first : Placed) (rest : List Placed) :
    List (List Instruction × Place) :=
  (first.code opening, first.place) ::
    rest.map fun placed => (placed.code following, placed.place)

end Placed

namespace Machine

/-- Execute several pieces of code, and gather what each of them leaves in a place and
finally in the flags. -/
def gather (machine : Machine) : List (List Instruction × Place) → List UInt8 × Flags
  | [] => ([], machine.cpu.main.flags)
  | (code, place) :: rest =>
      let done := machine.executeAll code
      let others := done.gather rest
      (done.cpu.byteIn done.memory place :: others.1, others.2)

theorem gather_eq_thread (rotation : Rotation) (machine : Machine) (rest : List Placed) :
    machine.gather (rest.map fun placed => (placed.code rotation, placed.place)) =
      thread (rotating rotation) machine.cpu.main.flags (rest.map Placed.byte) := by
  induction rest generalizing machine with
  | nil => rfl
  | cons placed rest ih =>
      have executed := placed.executeAll_code rotation machine
      dsimp only at executed
      rw [List.map_cons, gather, ih, List.map_cons, thread, ← executed]

/-- A chain threads the rotation of its later bytes through all of them, if that rotation
does to the first byte, with some carry, what the rotation of the first byte does. -/
theorem gather_chain {opening following : Rotation} {first : Placed} {carry : Bool}
    (machine : Machine) (rest : List Placed)
    (opens : rotate opening first.byte machine.cpu.main.flags.carry =
      rotate following first.byte carry) :
    machine.gather (Placed.chain opening following first rest) =
      thread (rotating following) { machine.cpu.main.flags with carry := carry }
        ((first :: rest).map Placed.byte) := by
  have executed := first.executeAll_code opening machine
  dsimp only at executed
  have same : rotating opening first.byte machine.cpu.main.flags =
      rotating following first.byte { machine.cpu.main.flags with carry := carry } := opens
  rw [Placed.chain, gather, gather_eq_thread, List.map_cons, thread, ← same, ← executed]

/-- Rotate the cell at HL and then, one after another, the cells that follow in a
direction. -/
def walkRotating (machine : Machine) (direction : Direction) (opening following : Rotation)
    (count : Nat) : Machine :=
  machine.walk direction
    (.rotate opening (.cell .hl) :: List.replicate count (.rotate following (.cell .hl)))

theorem walkRotating_eq_walk {opening following : Rotation} {carry : Bool}
    (machine : Machine) (direction : Direction) (count : Nat)
    (opens : rotate opening (machine.memory.read machine.cpu.main.hl)
        machine.cpu.main.flags.carry =
      rotate following (machine.memory.read machine.cpu.main.hl) carry) :
    machine.walkRotating direction opening following count =
      { machine with
        cpu := machine.cpu.setFlags { machine.cpu.main.flags with carry := carry } }.walk
          direction (List.replicate (count + 1) (.rotate following (.cell .hl))) := by
  rw [walkRotating, List.replicate_succ, walk, walk,
    executeAll_move (Instruction.revises_rotate opening),
    executeAll_move (Instruction.revises_rotate following)]
  unfold rotatingCell
  dsimp only
  rw [opens]
  rfl

section Rotations

variable (machine : Machine) {count : Nat} (bounded : count < 65536)

include bounded

theorem walkRotating_eq_thread {opening following : Rotation} {carry : Bool}
    (direction : Direction)
    (opens : rotate opening (machine.memory.read machine.cpu.main.hl)
        machine.cpu.main.flags.carry =
      rotate following (machine.memory.read machine.cpu.main.hl) carry) :
    let start := machine.cpu.main.hl
    let done := machine.walkRotating direction opening following count
    let threaded := thread (rotatingCell following)
      (machine.cpu.main.a, { machine.cpu.main.flags with carry := carry })
      (machine.memory.met direction start (count + 1))
    done.memory.met direction start (count + 1) = threaded.1 ∧
      done.cpu.main.flags = threaded.2.2 := by
  intro start done threaded
  obtain ⟨bytes, state, -⟩ := walk_replicate (Instruction.revises_rotate following) direction
    (Nat.succ_le_of_lt bounded)
    { machine with
      cpu := machine.cpu.setFlags { machine.cpu.main.flags with carry := carry } }
  rw [← walkRotating_eq_walk machine direction count opens] at bytes state
  exact ⟨bytes, congrArg Prod.snd state⟩

theorem isDouble_walkRotating :
    let start := machine.cpu.main.hl
    let done := machine.walkRotating .up .sla .rl count
    IsDouble (machine.memory.slice start (count + 1))
      (done.memory.slice start (count + 1), done.cpu.main.flags) := by
  intro start done
  obtain ⟨bytes, flags⟩ := walkRotating_eq_thread machine bounded .up
    (rotate_sla_eq (machine.memory.read start) machine.cpu.main.flags.carry)
  rw [← Memory.met_up, ← Memory.met_up, bytes, flags]
  exact isDouble_thread multiplies_rotatingCell rfl _

theorem isHalf_walkRotating :
    let start := machine.cpu.main.hl - UInt16.ofNat count
    let done := machine.walkRotating .down .srl .rr count
    IsHalf (machine.memory.slice start (count + 1))
      (done.memory.slice start (count + 1), done.cpu.main.flags) := by
  intro start done
  obtain ⟨bytes, flags⟩ := walkRotating_eq_thread machine bounded .down
    (rotate_srl_eq (machine.memory.read machine.cpu.main.hl) machine.cpu.main.flags.carry)
  rw [← Memory.reverse_met_down, ← Memory.reverse_met_down, bytes, flags]
  exact isHalf_thread divides_rotatingCell rfl _

theorem isSignedHalf_walkRotating :
    let start := machine.cpu.main.hl - UInt16.ofNat count
    let done := machine.walkRotating .down .sra .rr count
    IsSignedHalf (machine.memory.slice start (count + 1))
      (done.memory.slice start (count + 1), done.cpu.main.flags) := by
  intro start done
  obtain ⟨bytes, flags⟩ := walkRotating_eq_thread machine bounded .down
    (rotate_sra_eq (machine.memory.read machine.cpu.main.hl) machine.cpu.main.flags.carry)
  rw [← Memory.reverse_met_down, ← Memory.reverse_met_down, bytes, flags]
  exact isSignedHalf_thread divides_rotatingCell rfl _

end Rotations

/-- What rotating digits leaves: a number in cells and a digit in the lower half of the
accumulator, whose upper half stays as it was, as the carry does. -/
structure RotatesDigits (machine done : Machine) (start : UInt16) (count : Nat)
    (number digit : Nat) : Prop where
  number_eq : hexadecimal (done.memory.slice start count) = number
  digit_eq : done.cpu.main.a.toNat % 16 = digit
  upper_eq : done.cpu.main.a.toNat / 16 = machine.cpu.main.a.toNat / 16
  carry_eq : done.cpu.main.flags.carry = machine.cpu.main.flags.carry

section Digits

variable (machine : Machine) {count : Nat} (bounded : count < 65536)

include bounded

/-- A walk with a digit rotation that keeps the upper half of the accumulator. -/
theorem walk_rotatingDigits {instruction : Instruction}
    {digits : UInt8 → UInt8 → UInt8 × UInt8}
    (revises : instruction.Revises (rotatingDigits digits))
    (keeps : ∀ accumulator cell : UInt8,
      (digits accumulator cell).2.toNat / 16 = accumulator.toNat / 16)
    (direction : Direction) :
    let start := machine.cpu.main.hl
    let done := machine.walk direction (List.replicate (count + 1) instruction)
    let threaded := thread (rotatingDigits digits)
      (machine.cpu.main.a, machine.cpu.main.flags)
      (machine.memory.met direction start (count + 1))
    done.memory.met direction start (count + 1) = threaded.1 ∧
      done.cpu.main.a = threaded.2.1 ∧
      done.cpu.main.a.toNat / 16 = machine.cpu.main.a.toNat / 16 ∧
      done.cpu.main.flags.carry = machine.cpu.main.flags.carry := by
  intro start done threaded
  obtain ⟨bytes, state, -⟩ :=
    walk_replicate revises direction (Nat.succ_le_of_lt bounded) machine
  let view (state : UInt8 × Flags) := (state.1.toNat / 16, state.2.carry)
  have kept : view threaded.2 = view (machine.cpu.main.a, machine.cpu.main.flags) :=
    view_thread view (fun byte state => Prod.ext (keeps state.1 byte) rfl) _ _
  rw [← state] at kept
  exact ⟨bytes, congrArg Prod.fst state, congrArg Prod.fst kept, congrArg Prod.snd kept⟩

theorem rotatesDigits_left :
    let start := machine.cpu.main.hl
    let number := hexadecimal (machine.memory.slice start (count + 1))
    RotatesDigits machine (machine.walk .up (List.replicate (count + 1) .rotateDigitLeft))
      start (count + 1)
      ((16 * number + machine.cpu.main.a.toNat % 16) % 16 ^ (2 * (count + 1)))
      (number / 16 ^ (2 * count + 1)) := by
  intro start number
  obtain ⟨bytes, accumulator, upper, carry⟩ := walk_rotatingDigits machine bounded
    Instruction.revises_rotateDigitLeft high_digitLeft .up
  obtain ⟨value, digit⟩ := thread_multiplied multiplies_digitLeft
    (machine.cpu.main.a, machine.cpu.main.flags) (machine.memory.met .up start (count + 1))
  rw [← bytes, Memory.met_up, Memory.met_up, Memory.length_slice] at value
  rw [← accumulator, Memory.met_up, Memory.length_slice] at digit
  refine ⟨?_, ?_, upper, carry⟩
  · rw [hexadecimal_eq_binary, value, pow_mul]
    simp [number]
  · have entered := Nat.mod_lt machine.cpu.main.a.toNat (by decide : 0 < 16)
    rw [digit, pow_digits, ← Nat.div_div_eq_div_mul, ← hexadecimal_eq_binary]
    congr 1
    omega

theorem rotatesDigits_right :
    let start := machine.cpu.main.hl - UInt16.ofNat count
    let number := hexadecimal (machine.memory.slice start (count + 1))
    RotatesDigits machine (machine.walk .down (List.replicate (count + 1) .rotateDigitRight))
      start (count + 1)
      (number / 16 + machine.cpu.main.a.toNat % 16 * 16 ^ (2 * count + 1))
      (number % 16) := by
  intro start number
  obtain ⟨bytes, accumulator, upper, carry⟩ := walk_rotatingDigits machine bounded
    Instruction.revises_rotateDigitRight high_digitRight .down
  obtain ⟨value, digit⟩ := thread_divided divides_digitRight
    (fun state => Nat.mod_lt _ (by decide))
    (machine.cpu.main.a, machine.cpu.main.flags)
    (machine.memory.met .down machine.cpu.main.hl (count + 1))
  rw [← bytes, Memory.reverse_met_down, Memory.reverse_met_down, Memory.length_met] at value
  rw [← accumulator, Memory.reverse_met_down, Memory.length_met] at digit
  refine ⟨?_, ?_, upper, carry⟩
  · rw [hexadecimal_eq_binary, value, pow_digits, mul_assoc, Nat.add_mul_div_left _ _ (by decide)]
    simp [number, mul_comm, start]
  · rw [digit, pow_digits, mul_assoc, Nat.add_mul_mod_self_left, ← hexadecimal_eq_binary]

end Digits

/-- Shifts that hand the carry on double and halve numbers of any length, with and without
a sign, wherever each byte is kept while it is shifted, and so they do with the bytes of
consecutive cells.  Digit rotations of consecutive cells multiply and divide the number in
the cells by sixteen, where the lower half of the accumulator gives the digit that enters
and takes the one that leaves. -/
theorem shift_chains_are_exact (machine : Machine) :
    (∀ (first : Placed) (rest : List Placed),
      let bytes := (first :: rest).map Placed.byte
      let chain opening following := machine.gather (Placed.chain opening following first rest)
      IsDouble bytes (chain .sla .rl) ∧
        IsHalf bytes.reverse ((chain .srl .rr).1.reverse, (chain .srl .rr).2) ∧
        IsSignedHalf bytes.reverse ((chain .sra .rr).1.reverse, (chain .sra .rr).2)) ∧
    ∀ count < 65536,
      let length := count + 1
      let start := machine.cpu.main.hl
      let lowest := start - UInt16.ofNat count
      let cells (machine : Machine) (first : UInt16) := machine.memory.slice first length
      let rotated direction opening following first :=
        let done := machine.walkRotating direction opening following count
        (cells done first, done.cpu.main.flags)
      let upwards := cells machine start
      let downwards := cells machine lowest
      let digit := machine.cpu.main.a.toNat % 16
      IsDouble upwards (rotated .up .sla .rl start) ∧
        IsHalf downwards (rotated .down .srl .rr lowest) ∧
        IsSignedHalf downwards (rotated .down .sra .rr lowest) ∧
        RotatesDigits machine (machine.walk .up (List.replicate length .rotateDigitLeft))
          start length ((16 * hexadecimal upwards + digit) % 16 ^ (2 * length))
          (hexadecimal upwards / 16 ^ (2 * length - 1)) ∧
        RotatesDigits machine (machine.walk .down (List.replicate length .rotateDigitRight))
          lowest length (hexadecimal downwards / 16 + digit * 16 ^ (2 * length - 1))
          (hexadecimal downwards % 16) := by
  refine ⟨?_, ?_⟩
  · intro first rest bytes chain
    have left : chain .sla .rl = _ := machine.gather_chain rest (rotate_sla_eq _ _)
    have logical : chain .srl .rr = _ := machine.gather_chain rest (rotate_srl_eq _ _)
    have arithmetic : chain .sra .rr = _ := machine.gather_chain rest (rotate_sra_eq _ _)
    rw [left, logical, arithmetic]
    exact ⟨isDouble_thread multiplies_rotating rfl bytes,
      isHalf_thread divides_rotating rfl bytes,
      isSignedHalf_thread divides_rotating rfl (rest.map Placed.byte)⟩
  · intro count bounded
    exact ⟨machine.isDouble_walkRotating bounded, machine.isHalf_walkRotating bounded,
      machine.isSignedHalf_walkRotating bounded, machine.rotatesDigits_left bounded,
      machine.rotatesDigits_right bounded⟩

/-- Two cells on either side of the last address, and two below it. -/
theorem shift_chains_are_exact_wrapped :
    let memory := ((Memory.zero.write 0xFFFE 0x78).write 0xFFFF 0x34).write 0 0x92
    let machine : Machine := ⟨{ main := { a := 0x7A, h := 0xFF, l := 0xFF } }, memory⟩
    let doubled := machine.walkRotating .up .sla .rl 1
    let left := machine.walk .up (List.replicate 2 .rotateDigitLeft)
    let right := machine.walk .down (List.replicate 2 .rotateDigitRight)
    1 < 65536 ∧
      binary (doubled.memory.slice 0xFFFF 2) = 0x2468 ∧
      hexadecimal (left.memory.slice 0xFFFF 2) = 0x234A ∧ left.cpu.main.a.toNat % 16 = 9 ∧
      hexadecimal (right.memory.slice 0xFFFE 2) = 0xA347 ∧ right.cpu.main.a.toNat % 16 = 8 := by
  intro memory machine doubled left right
  have upwards : machine.memory.slice 0xFFFF 2 = [0x34, 0x92] := by
    simp [machine, memory, Memory.slice, Memory.read_write]
  have downwards : machine.memory.slice 0xFFFE 2 = [0x78, 0x34] := by
    simp [machine, memory, Memory.slice, Memory.read_write]
  have start : machine.cpu.main.hl = 0xFFFF := by decide
  have lowest : (0xFFFF : UInt16) - UInt16.ofNat 1 = 0xFFFE := by decide
  have digit : machine.cpu.main.a.toNat % 16 = 10 := by decide
  have chains := (shift_chains_are_exact machine).2 1 (by decide)
  dsimp only at chains
  simp only [start, lowest, Nat.reduceAdd, upwards, downwards, digit] at chains
  obtain ⟨double, -, -, leftwards, rightwards⟩ := chains
  exact ⟨by decide, double.value_eq.trans (by decide),
    leftwards.number_eq.trans (by decide), leftwards.digit_eq.trans (by decide),
    rightwards.number_eq.trans (by decide), rightwards.digit_eq.trans (by decide)⟩

end Machine

end Z80
