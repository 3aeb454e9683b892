import Z80.Cpu.Execute
import Z80.Cpu.Step
import Mathlib.Data.Nat.Digits.Lemmas
import Mathlib.Tactic.LinearCombination

/-!
# Chains of bytes

Numbers of several bytes are added and subtracted byte by byte, from the least
significant one on, and the carry flag joins each byte to the next one.  This file
describes the instructions of such a chain and reduces them to the operation on single
bytes; if that operation adds or subtracts one digit with its carry, the chain adds or
subtracts whole numbers.
-/

namespace Z80

namespace Machine

/-- Execute an instruction that has been fetched. -/
def execute (machine : Machine) (instruction : Instruction) : Machine :=
  let effect := machine.cpu.execute machine.memory instruction
  ⟨effect.cpu, machine.memory.perform effect.writes⟩

def executeAll (machine : Machine) (instructions : List Instruction) : Machine :=
  instructions.foldl execute machine

/-- Execute several pieces of code, and collect what each of them leaves in the
accumulator and the flags at last. -/
def collect (machine : Machine) : List (List Instruction) → List UInt8 × Flags
  | [] => ([], machine.cpu.main.flags)
  | code :: rest =>
      let done := machine.executeAll code
      let others := done.collect rest
      (done.cpu.main.a :: others.1, others.2)

/-- The machine after an operation on the accumulator. -/
def accumulated (machine : Machine) (result : UInt8 × Flags) : Machine :=
  { machine with cpu := machine.cpu.setAccumulator result }

end Machine

/-- One byte of each of two numbers, the former to be loaded into the accumulator and
the latter to be taken from an operand. -/
structure Column where
  left : UInt8
  operand : Source

namespace Column

/-- The byte that the operand stands for. -/
def right (column : Column) (machine : Machine) : UInt8 :=
  (machine.cpu.setRegister .a column.left).byteFrom machine.memory column.operand

/-- Load the one byte and combine it with the other. -/
def code (operation : Operation) (column : Column) : List Instruction :=
  [.load (.register .a) (.constant column.left), .accumulate operation column.operand]

/-- Code for numbers of at least one byte, with an operation for the least significant
bytes and one for the others. -/
def chain (opening following : Operation) (first : Column) (rest : List Column) :
    List (List Instruction) :=
  first.code opening :: rest.map (code following)

theorem executeAll_code (operation : Operation) (machine : Machine) (column : Column) :
    machine.executeAll (column.code operation) =
      machine.accumulated (Arithmetic.combine operation column.left (column.right machine)
        machine.cpu.main.flags.carry) :=
  rfl

/-- An operation on the accumulator changes no other operand. -/
theorem right_accumulated (column : Column) (machine : Machine) (result : UInt8 × Flags) :
    column.right (machine.accumulated result) = column.right machine := by
  obtain ⟨left, operand⟩ := column
  cases operand with
  | constant byte => rfl
  | place place =>
      cases place with
      | register register => cases register <;> rfl
      | cell pointer =>
          cases pointer with
          | indexed register displacement => cases register <;> rfl
          | _ => rfl

end Column

namespace Arithmetic

/-- An operation on two bytes and a carry. -/
abbrev ByteOperation := UInt8 → UInt8 → Bool → UInt8 × Flags

theorem toNat_add (left right : UInt8) (carry : Bool) :
    (add left right carry).1.toNat = (left.toNat + right.toNat + carry.toNat) % 256 :=
  UInt8.toNat_ofNat'

theorem toNat_subtract (left right : UInt8) (borrow : Bool) :
    (subtract left right borrow).1.toNat =
      (256 - (right.toNat + borrow.toNat) % 256 + left.toNat) % 256 := by
  simp only [subtract, UInt8.toNat_sub, UInt8.toNat_ofNat']

/-- Apply an operation to the bytes of two numbers, handing the carry on. -/
def ripple (operation : ByteOperation) (flags : Flags) :
    List (UInt8 × UInt8) → List UInt8 × Flags
  | [] => ([], flags)
  | (left, right) :: rest =>
      let digit := operation left right flags.carry
      let others := ripple operation digit.2 rest
      (digit.1 :: others.1, others.2)

/-- The number with given digits, the least significant one first. -/
def numberOf (base : Nat) (value : UInt8 → Nat) (bytes : List UInt8) : Nat :=
  Nat.ofDigits base (bytes.map value)

/-- An operation on single digits adds them, with sign one, or subtracts the second from
the first, with sign minus one, and its carry counts for the base. -/
structure Carries (operation : ByteOperation) (sign : Int) (base : Nat)
    (IsDigit : UInt8 → Prop) (value : UInt8 → Nat) : Prop where
  one_lt : 1 < base
  value_lt : ∀ byte : UInt8, IsDigit byte → value byte < base
  isDigit : ∀ left right : UInt8, IsDigit left → IsDigit right → ∀ carry : Bool,
    IsDigit (operation left right carry).1
  value_eq : ∀ left right : UInt8, IsDigit left → IsDigit right → ∀ carry : Bool,
    (value (operation left right carry).1 : Int) +
        sign * (base * (operation left right carry).2.carry.toNat) =
      value left + sign * (value right + carry.toNat)

variable {operation : ByteOperation} {sign : Int} {base : Nat} {IsDigit : UInt8 → Prop}
  {value : UInt8 → Nat}

@[simp] theorem numberOf_nil : numberOf base value [] = 0 :=
  rfl

@[simp] theorem numberOf_cons (byte : UInt8) (rest : List UInt8) :
    numberOf base value (byte :: rest) = value byte + base * numberOf base value rest := by
  simp [numberOf, Nat.ofDigits_cons]

@[simp] theorem length_ripple (operation : ByteOperation) (flags : Flags)
    (pairs : List (UInt8 × UInt8)) :
    (ripple operation flags pairs).1.length = pairs.length := by
  induction pairs generalizing flags with
  | nil => rfl
  | cons pair rest ih => simp [ripple, ih]

theorem numberOf_lt (carries : Carries operation sign base IsDigit value)
    {bytes : List UInt8} (digits : ∀ byte ∈ bytes, IsDigit byte) :
    numberOf base value bytes < base ^ bytes.length := by
  have bounded : ∀ digit ∈ bytes.map value, digit < base :=
    List.forall_mem_map.mpr fun byte member => carries.value_lt byte (digits byte member)
  simpa [numberOf] using Nat.ofDigits_lt_base_pow_length carries.one_lt bounded

theorem isDigit_ripple (carries : Carries operation sign base IsDigit value)
    (flags : Flags) (pairs : List (UInt8 × UInt8))
    (digits : ∀ pair ∈ pairs, IsDigit pair.1 ∧ IsDigit pair.2) :
    ∀ byte ∈ (ripple operation flags pairs).1, IsDigit byte := by
  induction pairs generalizing flags with
  | nil => simp [ripple]
  | cons pair rest ih =>
      obtain ⟨⟨left, right⟩, others⟩ := List.forall_mem_cons.mp digits
      exact List.forall_mem_cons.mpr ⟨carries.isDigit _ _ left right _, ih _ others⟩

/-- A chain adds or subtracts numbers if its operation adds or subtracts digits. -/
theorem numberOf_ripple (carries : Carries operation sign base IsDigit value)
    (flags : Flags) (pairs : List (UInt8 × UInt8))
    (digits : ∀ pair ∈ pairs, IsDigit pair.1 ∧ IsDigit pair.2) :
    (numberOf base value (ripple operation flags pairs).1 : Int) +
        sign * (base ^ pairs.length * (ripple operation flags pairs).2.carry.toNat) =
      numberOf base value (pairs.map Prod.fst) +
        sign * (numberOf base value (pairs.map Prod.snd) + flags.carry.toNat) := by
  induction pairs generalizing flags with
  | nil => simp [ripple]
  | cons pair rest ih =>
      obtain ⟨⟨left, right⟩, others⟩ := List.forall_mem_cons.mp digits
      have first := carries.value_eq pair.1 pair.2 left right flags.carry
      have later := ih (operation pair.1 pair.2 flags.carry).2 others
      simp only [ripple, List.map_cons, numberOf_cons, List.length_cons, pow_succ]
      push_cast
      linear_combination first + base * later

theorem numberOf_ripple_lt (carries : Carries operation sign base IsDigit value)
    (flags : Flags) (pairs : List (UInt8 × UInt8))
    (digits : ∀ pair ∈ pairs, IsDigit pair.1 ∧ IsDigit pair.2) :
    numberOf base value (ripple operation flags pairs).1 < base ^ pairs.length := by
  simpa using numberOf_lt carries (isDigit_ripple carries flags pairs digits)

/-- A chain yields the exact number modulo the power of the base that its digits cannot
reach. -/
theorem numberOf_ripple_emod (carries : Carries operation sign base IsDigit value)
    (flags : Flags) (pairs : List (UInt8 × UInt8))
    (digits : ∀ pair ∈ pairs, IsDigit pair.1 ∧ IsDigit pair.2) :
    (numberOf base value (ripple operation flags pairs).1 : Int) =
      (numberOf base value (pairs.map Prod.fst) +
        sign * (numberOf base value (pairs.map Prod.snd) + flags.carry.toNat)) %
          base ^ pairs.length := by
  have total := numberOf_ripple carries flags pairs digits
  have below := numberOf_ripple_lt carries flags pairs digits
  have shifted : ∀ number power carry : Int,
      number + sign * (power * carry) = number + power * (sign * carry) :=
    fun number power carry => by ring
  rw [← total, shifted, Int.add_mul_emod_self_left, Int.emod_eq_of_lt (by omega)]
  exact_mod_cast below

/-- A chain that leaves no carry yields the exact number; one that does is off by the
power of the base that its digits cannot reach. -/
theorem carry_ripple_cases (carries : Carries operation sign base IsDigit value)
    (flags : Flags) (pairs : List (UInt8 × UInt8))
    (digits : ∀ pair ∈ pairs, IsDigit pair.1 ∧ IsDigit pair.2) :
    let rippled := ripple operation flags pairs
    let total : Int := numberOf base value (pairs.map Prod.fst) +
      sign * (numberOf base value (pairs.map Prod.snd) + flags.carry.toNat)
    rippled.2.carry = false ∧ total = numberOf base value rippled.1 ∨
      rippled.2.carry = true ∧
        total = numberOf base value rippled.1 + sign * (base ^ pairs.length : Nat) := by
  intro rippled total
  have totalEq := numberOf_ripple carries flags pairs digits
  cases carried : rippled.2.carry with
  | false => exact .inl ⟨rfl, by simpa [rippled, carried] using totalEq.symm⟩
  | true => exact .inr ⟨rfl, by simpa [rippled, carried] using totalEq.symm⟩

/-- A sum carries exactly if its digits cannot reach it. -/
theorem carry_ripple_of_sum (carries : Carries operation 1 base IsDigit value)
    (flags : Flags) (pairs : List (UInt8 × UInt8))
    (digits : ∀ pair ∈ pairs, IsDigit pair.1 ∧ IsDigit pair.2) :
    (ripple operation flags pairs).2.carry = true ↔
      base ^ pairs.length ≤ numberOf base value (pairs.map Prod.fst) +
        numberOf base value (pairs.map Prod.snd) + flags.carry.toNat := by
  have below := numberOf_ripple_lt carries flags pairs digits
  rcases carry_ripple_cases carries flags pairs digits with
    ⟨carried, totalEq⟩ | ⟨carried, totalEq⟩
  · simp only [carried, Bool.false_eq_true, false_iff]
    omega
  · simp only [carried, true_iff]
    omega

/-- A difference carries exactly if it borrows. -/
theorem carry_ripple_of_difference (carries : Carries operation (-1) base IsDigit value)
    (flags : Flags) (pairs : List (UInt8 × UInt8))
    (digits : ∀ pair ∈ pairs, IsDigit pair.1 ∧ IsDigit pair.2) :
    (ripple operation flags pairs).2.carry = true ↔
      numberOf base value (pairs.map Prod.fst) <
        numberOf base value (pairs.map Prod.snd) + flags.carry.toNat := by
  have below := numberOf_ripple_lt carries flags pairs digits
  rcases carry_ripple_cases carries flags pairs digits with
    ⟨carried, totalEq⟩ | ⟨carried, totalEq⟩
  · simp only [carried, Bool.false_eq_true, false_iff]
    omega
  · simp only [carried, true_iff]
    omega

end Arithmetic

namespace Machine

open Arithmetic

/-- The pairs of bytes that columns stand for. -/
def pairs (machine : Machine) (columns : List Column) : List (UInt8 × UInt8) :=
  columns.map fun column => (column.left, column.right machine)

@[simp] theorem map_fst_pairs (machine : Machine) (columns : List Column) :
    (machine.pairs columns).map Prod.fst = columns.map Column.left := by
  simp [pairs]

@[simp] theorem map_snd_pairs (machine : Machine) (columns : List Column) :
    (machine.pairs columns).map Prod.snd = columns.map fun column => column.right machine := by
  simp [pairs]

@[simp] theorem length_pairs (machine : Machine) (columns : List Column) :
    (machine.pairs columns).length = columns.length := by
  simp [pairs]

theorem pairs_accumulated (machine : Machine) (result : UInt8 × Flags)
    (columns : List Column) :
    (machine.accumulated result).pairs columns = machine.pairs columns := by
  simp only [pairs, Column.right_accumulated]

/-- Code that performs an operation on every column collects what the chain of the
operation gives. -/
theorem collect_eq_ripple {operation : ByteOperation} {code : Column → List Instruction}
    (performs : ∀ (machine : Machine) (column : Column),
      machine.executeAll (code column) =
        machine.accumulated (operation column.left (column.right machine)
          machine.cpu.main.flags.carry))
    (machine : Machine) (columns : List Column) :
    machine.collect (columns.map code) =
      ripple operation machine.cpu.main.flags (machine.pairs columns) := by
  induction columns generalizing machine with
  | nil => rfl
  | cons column rest ih =>
      rw [List.map_cons, collect, performs, ih, pairs_accumulated]
      rfl

/-- A chain is the ripple of the operation that both of its operations perform, the
first one with a carry of its own. -/
theorem collect_chain {opening following : Operation} (operation : ByteOperation)
    (machine : Machine) (first : Column) (rest : List Column) {carry : Bool}
    (opens : ∀ left right : UInt8,
      combine opening left right machine.cpu.main.flags.carry = operation left right carry)
    (follows : combine following = operation) :
    machine.collect (Column.chain opening following first rest) =
      ripple operation { machine.cpu.main.flags with carry := carry }
        (machine.pairs (first :: rest)) := by
  subst follows
  rw [Column.chain, collect, Column.executeAll_code, opens,
    collect_eq_ripple (Column.executeAll_code following), pairs_accumulated]
  rfl

end Machine

end Z80
