import Z80.Proofs.BlockCopies

/-!
# Repeating block searches

A repeating search compares the accumulator with one cell for each step and runs
again until a cell matches or its count is zero.  It therefore examines the cells
up to the first match, or as many as the count says, and the comparison with the
last of them is the one that its flags show.
-/

namespace Z80

/-- A difference is zero exactly between equal bytes. -/
theorem Arithmetic.zero_subtract (left right : UInt8) :
    (subtract left right false).2.zero = (left == right) := by
  simp only [subtract, Bool.toNat_false, Nat.add_zero, UInt8.ofNat_toNat, beq_eq_decide,
    byte_sub_eq_zero_iff]

namespace Direction

/-- The table's entry for the repeating search that moves in a direction. -/
def searchEntry : Direction → Entry
  | .up => ⟨.extended, 0xB1, .cpir, []⟩
  | .down => ⟨.extended, 0xB9, .cpdr, []⟩

/-- The two bytes of the repeating search that moves in a direction. -/
def searchBytes : Direction → List UInt8
  | .up => [0xED, 0xB1]
  | .down => [0xED, 0xB9]

end Direction

namespace Bank

variable (bank : Bank) (memory : Memory) (direction : Direction)

/-- The byte that a search comes to after a number of others. -/
def examined (index : Nat) : UInt8 :=
  memory.read (direction.moved bank.hl index)

/-- How many bytes a search passes before the first one that is in the accumulator. -/
def firstMatch? : Option Nat :=
  (List.range bank.blockCount).find? fun index =>
    bank.a == bank.examined memory direction index

/-- How many bytes a search examines: the first match and those before it, or as many
as the count says. -/
def searchLength : Nat :=
  match bank.firstMatch? memory direction with
  | some index => index + 1
  | none => bank.blockCount

theorem searchLength_pos : 0 < bank.searchLength memory direction := by
  unfold searchLength
  split
  · exact Nat.succ_pos _
  · exact bank.blockCount_pos

theorem searchLength_le : bank.searchLength memory direction ≤ bank.blockCount := by
  unfold searchLength
  split
  · rename_i index found
    exact List.mem_range.mp (List.find?_range_eq_some.mp found).2.1
  · exact le_rfl

/-- A search ends with the first byte that matches or with the last one that the count
allows. -/
theorem succ_eq_searchLength_iff {count : Nat}
    (unfinished : count < bank.searchLength memory direction) :
    count + 1 = bank.searchLength memory direction ↔
      count + 1 = bank.blockCount ∨ bank.a = bank.examined memory direction count := by
  have within := bank.searchLength_le memory direction
  cases found : bank.firstMatch? memory direction with
  | none =>
      have length : bank.searchLength memory direction = bank.blockCount := by
        simp only [searchLength, found]
      have differs := List.find?_range_eq_none.mp found count (by omega)
      rw [length]
      simp only [Bool.not_eq_true', beq_eq_false_iff_ne] at differs
      simp only [differs, or_false]
  | some index =>
      have length : bank.searchLength memory direction = index + 1 := by
        simp only [searchLength, found]
      obtain ⟨isMatch, _, first⟩ := List.find?_range_eq_some.mp found
      rw [length] at unfinished within ⊢
      constructor
      · intro last
        obtain rfl : count = index := by omega
        exact Or.inr (beq_iff_eq.mp isMatch)
      · rintro (spent | matching)
        · omega
        · have notBefore : ¬count < index := by
            intro before
            simpa [matching] using first count before
          omega

/-- The registers after a number of comparisons.  Every comparison sets the flags by
its difference, but keeps the carry and shows whether the count is spent. -/
def afterSearch (count : Nat) : Bank :=
  let left := bank.bc - UInt16.ofNat count
  { (bank.setHL (direction.moved bank.hl count)).setBC left with
    flags :=
      match count with
      | 0 => bank.flags
      | index + 1 =>
          { (Arithmetic.subtract bank.a (bank.examined memory direction index) false).2 with
            overflow := left != 0, carry := bank.flags.carry } }

@[simp] theorem afterSearch_zero : bank.afterSearch memory direction 0 = bank := by
  simp [afterSearch, setHL, setBC, hl, bc]

variable (count : Nat)

@[simp] theorem hl_afterSearch :
    (bank.afterSearch memory direction count).hl = direction.moved bank.hl count :=
  wordOfBytes_highByte_lowByte _

@[simp] theorem bc_afterSearch :
    (bank.afterSearch memory direction count).bc = bank.bc - UInt16.ofNat count :=
  wordOfBytes_highByte_lowByte _

@[simp] theorem carry_afterSearch :
    (bank.afterSearch memory direction count).flags.carry = bank.flags.carry := by
  cases count <;> rfl

/-- A search sets the flags as a subtraction does, but for two of them. -/
theorem searchFlags_eq (flags : Flags) (accumulator byte : UInt8) (more : Bool) :
    { flags.setSignZero (accumulator - byte) with
      halfCarry := accumulator % 16 < byte % 16, overflow := more, subtract := true } =
      { (Arithmetic.subtract accumulator byte false).2 with
        overflow := more, carry := flags.carry } := by
  simp [Flags.setSignZero, Arithmetic.subtract, UInt8.lt_iff_toNat_lt]

theorem afterSearch_of_pos {count : Nat} (positive : 0 < count) :
    let left := bank.bc - UInt16.ofNat count
    let last := bank.examined memory direction (count - 1)
    bank.afterSearch memory direction count =
      { (bank.setHL (direction.moved bank.hl count)).setBC left with
        flags :=
          { (Arithmetic.subtract bank.a last false).2 with
            overflow := left != 0, carry := bank.flags.carry } } := by
  cases count with
  | zero => exact absurd positive (Nat.lt_irrefl 0)
  | succ index => rfl

/-- What one more comparison makes of the registers. -/
theorem afterSearch_succ :
    let left := bank.bc - UInt16.ofNat (count + 1)
    let former := bank.afterSearch memory direction count
    let byte := bank.examined memory direction count
    { (former.setHL (direction.moved bank.hl (count + 1))).setBC left with
      flags :=
        { former.flags.setSignZero (bank.a - byte) with
          halfCarry := bank.a % 16 < byte % 16, overflow := left != 0, subtract := true } } =
      bank.afterSearch memory direction (count + 1) := by
  intro left former byte
  rw [searchFlags_eq, carry_afterSearch]
  rfl

end Bank

namespace Cpu

variable (cpu : Cpu) (memory : Memory) (direction : Direction)

/-- The processor after a number of comparisons of a search, whose instruction stands
at the program counter. -/
def afterSearch (count : Nat) : Cpu :=
  { cpu with
    main := cpu.main.afterSearch memory direction count
    pc := if count = cpu.main.searchLength memory direction then cpu.pc + 2 else cpu.pc }

@[simp] theorem afterSearch_zero : cpu.afterSearch memory direction 0 = cpu := by
  have examines := cpu.main.searchLength_pos memory direction
  simp [afterSearch, examines.ne]

/-- One more comparison follows the former ones until the search ends. -/
theorem compareBlock_afterSearch {count : Nat}
    (unfinished : count < cpu.main.searchLength memory direction) :
    ((cpu.afterSearch memory direction count).goto (cpu.pc + 2)).compareBlock memory
      direction true = cpu.afterSearch memory direction (count + 1) := by
  have left := cpu.main.bc_sub_sub_one count
  have within := cpu.main.searchLength_le memory direction
  have spent : cpu.main.bc - UInt16.ofNat (count + 1) = 0 ↔
      count + 1 = cpu.main.blockCount :=
    cpu.main.bc_sub_eq_zero_iff (Nat.succ_pos count) (by omega)
  have ends := cpu.main.succ_eq_searchLength_iff memory direction unfinished
  rw [← spent, ← byte_sub_eq_zero_iff] at ends
  have back : cpu.pc + 2 - 2 = cpu.pc := UInt16.add_sub_cancel cpu.pc 2
  have bank := cpu.main.afterSearch_succ memory direction count
  dsimp only at bank
  have byte : memory.read (direction.moved cpu.main.hl count) =
      cpu.main.examined memory direction count := rfl
  have accumulator : (cpu.main.afterSearch memory direction count).a = cpu.main.a := rfl
  simp only [compareBlock, goto, afterSearch, Bank.hl_afterSearch, Bank.bc_afterSearch,
    Direction.moved_add_stride, left, byte, accumulator, bank, Bool.true_and]
  by_cases last : count + 1 = cpu.main.searchLength memory direction
  · rw [if_pos last]
    have stops : (cpu.main.bc - UInt16.ofNat (count + 1) != 0 &&
        cpu.main.a - cpu.main.examined memory direction count != 0) = false := by
      rw [Bool.and_eq_false_iff, bne_eq_false_iff_eq, bne_eq_false_iff_eq]
      exact ends.mp last
    simp only [stops, Bool.false_eq_true, if_false]
  · rw [if_neg last]
    have goesOn : (cpu.main.bc - UInt16.ofNat (count + 1) != 0 &&
        cpu.main.a - cpu.main.examined memory direction count != 0) = true := by
      rw [Bool.and_eq_true, bne_iff_ne, bne_iff_ne]
      exact not_or.mp (mt ends.mpr last)
    simp only [goesOn, if_true, again, goto, back]

/-- After the last comparison the search has been left, and the flags tell how it ended. -/
theorem afterSearch_searchLength :
    let total := cpu.main.searchLength memory direction
    let last := cpu.main.examined memory direction (total - 1)
    let left := cpu.main.bc - UInt16.ofNat total
    cpu.afterSearch memory direction total =
      { cpu with
        pc := cpu.pc + 2
        main :=
          { (cpu.main.setHL (direction.moved cpu.main.hl total)).setBC left with
            flags :=
              { (Arithmetic.subtract cpu.main.a last false).2 with
                zero := cpu.main.a == last
                overflow := left != 0
                subtract := true
                carry := cpu.main.flags.carry } } } := by
  have bank := cpu.main.afterSearch_of_pos memory direction
    (cpu.main.searchLength_pos memory direction)
  simp only [afterSearch, if_true, bank, ← Arithmetic.zero_subtract]
  rfl

/-- Where the bytes of a repeating search stand, a step makes one comparison. -/
theorem step_of_searchBytes {cpu : Cpu} {memory : Memory} {direction : Direction}
    (running : cpu.halted = false)
    (stored : memory.slice cpu.pc 2 = direction.searchBytes) :
    cpu.step memory =
      { cpu := (cpu.goto (cpu.pc + 2)).compareBlock memory direction true
        outcome := .executed direction.searchBytes } := by
  have member : direction.searchEntry ∈ Table.entries := by
    cases direction <;> exact Table.mem_entries.mpr (by decide)
  have meaning : direction.searchEntry.meaning? [] = some (.compareBlock direction true) := by
    cases direction <;> rfl
  have encoded : direction.searchEntry.encode [] = direction.searchBytes := by
    cases direction <;> rfl
  have length : direction.searchEntry.length = 2 := by cases direction <;> rfl
  rw [← encoded, ← length] at stored
  rw [step_of_slice running member meaning (by cases direction <;> rfl) stored, encoded, length]
  rfl

end Cpu

namespace Machine

variable {cpu : Cpu} {memory : Memory} {direction : Direction}

/-- As long as a search has not ended, a step makes one more comparison. -/
theorem step_afterSearch (running : cpu.halted = false)
    (stored : memory.slice cpu.pc 2 = direction.searchBytes) {count : Nat}
    (unfinished : count < cpu.main.searchLength memory direction) :
    step ⟨cpu.afterSearch memory direction count, memory⟩ =
      (.executed direction.searchBytes,
        ⟨cpu.afterSearch memory direction (count + 1), memory⟩) := by
  have pc : (cpu.afterSearch memory direction count).pc = cpu.pc := if_neg unfinished.ne
  have alive : (cpu.afterSearch memory direction count).halted = false := running
  rw [← pc] at stored
  have stepped := Cpu.step_of_searchBytes alive stored
  rw [pc, cpu.compareBlock_afterSearch memory direction unfinished] at stepped
  unfold step
  dsimp only
  rw [stepped]
  rfl

theorem next_iterate_search (running : cpu.halted = false)
    (stored : memory.slice cpu.pc 2 = direction.searchBytes) {count : Nat}
    (within : count ≤ cpu.main.searchLength memory direction) :
    next^[count] ⟨cpu, memory⟩ = ⟨cpu.afterSearch memory direction count, memory⟩ := by
  induction count with
  | zero => rw [Cpu.afterSearch_zero, Function.iterate_zero_apply]
  | succ count ih =>
      have unfinished : count < cpu.main.searchLength memory direction := within
      rw [Function.iterate_succ_apply', ih unfinished.le, next,
        step_afterSearch running stored unfinished]

/-- A repeating search runs one step for each byte that it examines: the bytes up to
the first one that is in the accumulator, or as many as the count in BC says, zero
standing for 65536, when there is none.  Every step executes it, and it stays at its
address before the last one.  In the end it stands behind itself, HL has moved past the
examined bytes, and BC has been counted down by their number.  The flags are those of
the accumulator less the last byte, but overflow shows whether any count is left and the
carry is kept; nothing else has changed. -/
theorem block_searches_complete (cpu : Cpu) (memory : Memory) (direction : Direction)
    (running : cpu.halted = false)
    (stored : memory.slice cpu.pc 2 = direction.searchBytes) :
    let start : Machine := ⟨cpu, memory⟩
    let total := cpu.main.searchLength memory direction
    let last := cpu.main.examined memory direction (total - 1)
    let left := cpu.main.bc - UInt16.ofNat total
    (∀ count < total,
      (next^[count] start).step.1 = .executed direction.searchBytes ∧
      (next^[count] start).cpu.pc = cpu.pc) ∧
    (next^[total] start).memory = memory ∧
    (next^[total] start).cpu =
      { cpu with
        pc := cpu.pc + 2
        main :=
          { (cpu.main.setHL (direction.moved cpu.main.hl total)).setBC left with
            flags :=
              { (Arithmetic.subtract cpu.main.a last false).2 with
                zero := cpu.main.a == last
                overflow := left != 0
                subtract := true
                carry := cpu.main.flags.carry } } } := by
  intro start total last left
  have reached {count : Nat} (within : count ≤ total) :=
    next_iterate_search running stored within
  refine ⟨?_, ?_, ?_⟩
  · intro count unfinished
    have pc : (cpu.afterSearch memory direction count).pc = cpu.pc := if_neg unfinished.ne
    rw [reached unfinished.le, step_afterSearch running stored unfinished]
    exact ⟨rfl, pc⟩
  · rw [reached le_rfl]
  · rw [reached le_rfl]
    exact cpu.afterSearch_searchLength memory direction

/-- A search downwards whose first match is the last byte that its count allows, by an
instruction that lies across the last address. -/
theorem block_searches_complete_last :
    let memory := ((Memory.zero.write 0xFFFF 0xED).write 0 0xB9).write 0x4000 7
    let cpu : Cpu := { pc := 0xFFFF, main := { a := 7, b := 0, c := 3, h := 0x40, l := 2 } }
    let done := (next^[3] ⟨cpu, memory⟩).cpu
    cpu.halted = false ∧ memory.slice cpu.pc 2 = Direction.down.searchBytes ∧
      cpu.main.searchLength memory .down = 3 ∧ done.pc = 1 ∧ done.main.hl = 0x3FFF ∧
      done.main.bc = 0 ∧ done.main.flags = { zero := true, subtract := true } := by
  intro memory cpu done
  have stored : memory.slice cpu.pc 2 = Direction.down.searchBytes := by
    simp [memory, cpu, Memory.slice, Memory.read_write, Direction.searchBytes]
  have start : cpu.main.hl = 0x4002 := by decide
  have examined (index : Nat) : cpu.main.examined memory .down index =
      memory.read (0x4002 - UInt16.ofNat index) := by
    rw [Bank.examined, start]
    rfl
  have total : cpu.main.searchLength memory .down = 3 := by
    have count : cpu.main.blockCount = 3 := by decide
    have found : cpu.main.firstMatch? memory .down = some 2 := by
      rw [Bank.firstMatch?, count, List.find?_range_eq_some]
      refine ⟨?_, by decide, ?_⟩
      · simp [examined, memory, cpu]
      · intro index before
        obtain rfl | rfl : index = 0 ∨ index = 1 := by omega
        all_goals simp [examined, memory, cpu, Memory.read_write]
    rw [Bank.searchLength, found]
  obtain ⟨-, -, registers⟩ := block_searches_complete cpu memory .down rfl stored
  have last : cpu.main.examined memory .down 2 = 7 := by
    simp [examined, memory]
  rw [total, last, start] at registers
  have doneEq : done = _ := registers
  refine ⟨rfl, stored, total, ?_⟩
  rw [doneEq]
  decide

end Machine

end Z80
