import Z80.Proofs.ByteChains

/-!
# Packed decimal arithmetic on several bytes

A byte holds two decimal digits.  Adjusting each byte of a binary sum or difference makes
the chain compute with decimal numbers of any length, and the carry flag, which the
adjustment sets anew, joins the bytes just as well.
-/

namespace Z80

namespace Arithmetic

/-- Both halves of a byte are decimal digits. -/
def IsDecimal (byte : UInt8) : Prop :=
  byte.toNat / 16 ≤ 9 ∧ byte.toNat % 16 ≤ 9

instance (byte : UInt8) : Decidable (IsDecimal byte) :=
  inferInstanceAs (Decidable (_ ∧ _))

/-- The number for which the two decimal digits of a byte stand. -/
def decimalDigits (byte : UInt8) : Nat :=
  10 * (byte.toNat / 16) + byte.toNat % 16

/-- The number for which packed decimal bytes stand, the least significant one first. -/
def decimal (bytes : List UInt8) : Nat :=
  numberOf 100 decimalDigits bytes

/-- The bytes and carry of a packed decimal sum of two numbers of equal length and a
carry. -/
structure IsDecimalSum (length : Nat) (left right : List UInt8) (carry : Bool)
    (result : List UInt8 × Flags) : Prop where
  length_eq : result.1.length = length
  isDecimal : ∀ byte ∈ result.1, IsDecimal byte
  value_eq : decimal result.1 = (decimal left + decimal right + carry.toNat) % 100 ^ length
  carry_iff : result.2.carry = true ↔
    100 ^ length ≤ decimal left + decimal right + carry.toNat

/-- The bytes and borrow of a packed decimal difference of two numbers of equal length
and a borrow. -/
structure IsDecimalDifference (length : Nat) (left right : List UInt8) (borrow : Bool)
    (result : List UInt8 × Flags) : Prop where
  length_eq : result.1.length = length
  isDecimal : ∀ byte ∈ result.1, IsDecimal byte
  value_eq : (decimal result.1 : Int) =
    (decimal left - decimal right - borrow.toNat) % 100 ^ length
  carry_iff : result.2.carry = true ↔ decimal left < decimal right + borrow.toNat

/-- An operation followed by the decimal adjustment of its result. -/
def adjusted (operation : ByteOperation) : ByteOperation := fun left right carry =>
  let result := operation left right carry
  decimalAdjust result.2 result.1

/-- The amount by which the decimal adjustment corrects a byte. -/
def correction (lowWrong highWrong : Bool) : Nat :=
  6 * lowWrong.toNat + 96 * highWrong.toNat

theorem toNat_decimalAdjust (flags : Flags) (byte : UInt8) :
    (decimalAdjust flags byte).1.toNat =
      let amount := correction (flags.halfCarry || 9 < byte.toNat % 16)
        (decimalAdjust flags byte).2.carry
      (if flags.subtract then 256 - amount + byte.toNat else byte.toNat + amount) % 256 := by
  have corrected (lowWrong highWrong : Bool) :
      ((if lowWrong then 0x06 else 0) + (if highWrong then 0x60 else 0) : UInt8).toNat =
        correction lowWrong highWrong := by
    revert lowWrong highWrong
    decide
  simp only [decimalAdjust]
  split
  · rw [UInt8.toNat_sub, corrected]
  · rw [UInt8.toNat_add, corrected]

section Sums

variable {left right : UInt8} (leftDecimal : IsDecimal left) (rightDecimal : IsDecimal right)
  (carry : Bool)

include leftDecimal rightDecimal

/-- The low digit of a sum is corrected exactly if the low digits sum to more than nine. -/
theorem lowWrong_add :
    ((add left right carry).2.halfCarry || 9 < (add left right carry).1.toNat % 16) =
      decide (9 < left.toNat % 16 + right.toNat % 16 + carry.toNat) := by
  obtain ⟨_, leftLow⟩ := leftDecimal
  obtain ⟨_, rightLow⟩ := rightDecimal
  have carryBound := carry.toNat_le
  have result := toNat_add left right carry
  have halfCarry : (add left right carry).2.halfCarry =
      decide (15 < left.toNat % 16 + right.toNat % 16 + carry.toNat) := rfl
  rw [halfCarry, Bool.eq_iff_iff, Bool.or_eq_true, decide_eq_true_iff, decide_eq_true_iff,
    decide_eq_true_iff]
  omega

/-- The adjustment of a sum carries exactly if the digits sum to more than ninety-nine. -/
theorem carry_adjusted_add :
    (adjusted add left right carry).2.carry =
      decide (99 < decimalDigits left + decimalDigits right + carry.toNat) := by
  obtain ⟨leftHigh, leftLow⟩ := leftDecimal
  obtain ⟨rightHigh, rightLow⟩ := rightDecimal
  have carryBound := carry.toNat_le
  have result := toNat_add left right carry
  have adjustedCarry : (adjusted add left right carry).2.carry =
      (decide (255 < left.toNat + right.toNat + carry.toNat) ||
        decide (0x99 < (add left right carry).1)) := rfl
  rw [adjustedCarry, Bool.eq_iff_iff, Bool.or_eq_true, decide_eq_true_iff,
    decide_eq_true_iff, decide_eq_true_iff, UInt8.lt_iff_toNat_lt, result]
  simp only [decimalDigits, UInt8.reduceToNat]
  omega

/-- The low digit of a difference is corrected exactly if it borrows. -/
theorem lowWrong_subtract :
    ((subtract left right carry).2.halfCarry ||
        9 < (subtract left right carry).1.toNat % 16) =
      decide (left.toNat % 16 < right.toNat % 16 + carry.toNat) := by
  obtain ⟨_, leftLow⟩ := leftDecimal
  obtain ⟨_, rightLow⟩ := rightDecimal
  have carryBound := carry.toNat_le
  have result := toNat_subtract left right carry
  have halfCarry : (subtract left right carry).2.halfCarry =
      decide (left.toNat % 16 < right.toNat % 16 + carry.toNat) := rfl
  rw [halfCarry, Bool.eq_iff_iff, Bool.or_eq_true, decide_eq_true_iff, decide_eq_true_iff]
  omega

/-- The adjustment of a difference carries exactly if the digits borrow. -/
theorem carry_adjusted_subtract :
    (adjusted subtract left right carry).2.carry =
      decide (decimalDigits left < decimalDigits right + carry.toNat) := by
  obtain ⟨leftHigh, leftLow⟩ := leftDecimal
  obtain ⟨rightHigh, rightLow⟩ := rightDecimal
  have carryBound := carry.toNat_le
  have result := toNat_subtract left right carry
  have adjustedCarry : (adjusted subtract left right carry).2.carry =
      (decide (left.toNat < right.toNat + carry.toNat) ||
        decide (0x99 < (subtract left right carry).1)) := rfl
  rw [adjustedCarry, Bool.eq_iff_iff, Bool.or_eq_true, decide_eq_true_iff,
    decide_eq_true_iff, decide_eq_true_iff, UInt8.lt_iff_toNat_lt, result]
  simp only [decimalDigits, UInt8.reduceToNat]
  omega

/-- Adjusting a sum leaves two decimal digits and the carry from them. -/
theorem adjusted_add :
    IsDecimal (adjusted add left right carry).1 ∧
      decimalDigits (adjusted add left right carry).1 +
          100 * (adjusted add left right carry).2.carry.toNat =
        decimalDigits left + decimalDigits right + carry.toNat := by
  have low := lowWrong_add leftDecimal rightDecimal carry
  have high := carry_adjusted_add leftDecimal rightDecimal carry
  have sum := toNat_add left right carry
  have carryBound := carry.toNat_le
  have result : (adjusted add left right carry).1.toNat =
      ((add left right carry).1.toNat +
        correction ((add left right carry).2.halfCarry ||
            9 < (add left right carry).1.toNat % 16)
          (adjusted add left right carry).2.carry) % 256 :=
    toNat_decimalAdjust (add left right carry).2 (add left right carry).1
  rw [low, high] at result
  rw [high]
  unfold IsDecimal decimalDigits at *
  obtain ⟨leftHigh, leftLow⟩ := leftDecimal
  obtain ⟨rightHigh, rightLow⟩ := rightDecimal
  by_cases lowExceeds : 9 < left.toNat % 16 + right.toNat % 16 + carry.toNat <;>
    by_cases highExceeds : 99 < 10 * (left.toNat / 16) + left.toNat % 16 +
      (10 * (right.toNat / 16) + right.toNat % 16) + carry.toNat <;>
    simp [correction, lowExceeds, highExceeds] at result ⊢ <;>
    omega

/-- Adjusting a difference leaves two decimal digits and the borrow from them. -/
theorem adjusted_subtract :
    IsDecimal (adjusted subtract left right carry).1 ∧
      decimalDigits (adjusted subtract left right carry).1 + decimalDigits right +
          carry.toNat =
        decimalDigits left + 100 * (adjusted subtract left right carry).2.carry.toNat := by
  have low := lowWrong_subtract leftDecimal rightDecimal carry
  have high := carry_adjusted_subtract leftDecimal rightDecimal carry
  have difference := toNat_subtract left right carry
  have carryBound := carry.toNat_le
  have result : (adjusted subtract left right carry).1.toNat =
      (256 - correction ((subtract left right carry).2.halfCarry ||
            9 < (subtract left right carry).1.toNat % 16)
          (adjusted subtract left right carry).2.carry +
        (subtract left right carry).1.toNat) % 256 :=
    toNat_decimalAdjust (subtract left right carry).2 (subtract left right carry).1
  rw [low, high] at result
  rw [high]
  unfold IsDecimal decimalDigits at *
  obtain ⟨leftHigh, leftLow⟩ := leftDecimal
  obtain ⟨rightHigh, rightLow⟩ := rightDecimal
  by_cases highBorrows : 10 * (left.toNat / 16) + left.toNat % 16 <
      10 * (right.toNat / 16) + right.toNat % 16 + carry.toNat
  · have wrapped : (subtract left right carry).1.toNat =
        left.toNat + 256 - right.toNat - carry.toNat := by omega
    by_cases lowBorrows : left.toNat % 16 < right.toNat % 16 + carry.toNat <;>
      simp [correction, lowBorrows, highBorrows] at result ⊢ <;>
      omega
  · have plain : (subtract left right carry).1.toNat =
        left.toNat - right.toNat - carry.toNat := by omega
    by_cases lowBorrows : left.toNat % 16 < right.toNat % 16 + carry.toNat <;>
      simp [correction, lowBorrows, highBorrows] at result ⊢ <;>
      omega

end Sums

theorem decimalDigits_lt (byte : UInt8) (isDecimal : IsDecimal byte) :
    decimalDigits byte < 100 := by
  obtain ⟨high, low⟩ := isDecimal
  unfold decimalDigits
  omega

theorem carries_adjusted_add : Carries (adjusted add) 1 100 IsDecimal decimalDigits where
  one_lt := by decide
  value_lt := decimalDigits_lt
  isDigit _ _ leftDecimal rightDecimal carry :=
    (adjusted_add leftDecimal rightDecimal carry).1
  value_eq _ _ leftDecimal rightDecimal carry := by
    have total := (adjusted_add leftDecimal rightDecimal carry).2
    omega

theorem carries_adjusted_subtract :
    Carries (adjusted subtract) (-1) 100 IsDecimal decimalDigits where
  one_lt := by decide
  value_lt := decimalDigits_lt
  isDigit _ _ leftDecimal rightDecimal carry :=
    (adjusted_subtract leftDecimal rightDecimal carry).1
  value_eq _ _ leftDecimal rightDecimal carry := by
    have total := (adjusted_subtract leftDecimal rightDecimal carry).2
    omega

section Chains

variable (flags : Flags) (pairs : List (UInt8 × UInt8))
  (digits : ∀ pair ∈ pairs, IsDecimal pair.1 ∧ IsDecimal pair.2)

include digits

theorem isDecimalSum_ripple :
    IsDecimalSum pairs.length (pairs.map Prod.fst) (pairs.map Prod.snd) flags.carry
      (ripple (adjusted add) flags pairs) where
  length_eq := length_ripple _ flags pairs
  isDecimal := isDigit_ripple carries_adjusted_add flags pairs digits
  value_eq := by
    have value := numberOf_ripple_emod carries_adjusted_add flags pairs digits
    rw [one_mul, ← add_assoc] at value
    exact_mod_cast value
  carry_iff := carry_ripple_of_sum carries_adjusted_add flags pairs digits

theorem isDecimalDifference_ripple :
    IsDecimalDifference pairs.length (pairs.map Prod.fst) (pairs.map Prod.snd) flags.carry
      (ripple (adjusted subtract) flags pairs) where
  length_eq := length_ripple _ flags pairs
  isDecimal := isDigit_ripple carries_adjusted_subtract flags pairs digits
  value_eq := by
    have value := numberOf_ripple_emod carries_adjusted_subtract flags pairs digits
    rw [neg_one_mul, neg_add, ← add_assoc] at value
    exact value
  carry_iff := carry_ripple_of_difference carries_adjusted_subtract flags pairs digits

end Chains

end Arithmetic

open Arithmetic

namespace Column

/-- Combine the bytes of a column and adjust the result. -/
def adjustedCode (operation : Operation) (column : Column) : List Instruction :=
  column.code operation ++ [.decimalAdjust]

theorem executeAll_adjustedCode (operation : Operation) (machine : Machine)
    (column : Column) :
    machine.executeAll (column.adjustedCode operation) =
      machine.accumulated (adjusted (combine operation) column.left (column.right machine)
        machine.cpu.main.flags.carry) :=
  rfl

end Column

namespace Machine

/-- Adding and subtracting byte by byte with an adjustment of every byte adds and
subtracts packed decimal numbers of any length, with the carry flag as the first carry. -/
theorem decimal_chains_are_exact (machine : Machine) (columns : List Column)
    (digits : ∀ column ∈ columns,
      IsDecimal column.left ∧ IsDecimal (column.right machine)) :
    let left := columns.map Column.left
    let right := columns.map fun column => column.right machine
    let carry := machine.cpu.main.flags.carry
    IsDecimalSum columns.length left right carry
        (machine.collect (columns.map (Column.adjustedCode .addCarry))) ∧
      IsDecimalDifference columns.length left right carry
        (machine.collect (columns.map (Column.adjustedCode .subtractCarry))) := by
  intro left right carry
  have pairDigits : ∀ pair ∈ machine.pairs columns, IsDecimal pair.1 ∧ IsDecimal pair.2 :=
    List.forall_mem_map.mpr digits
  have sum := isDecimalSum_ripple machine.cpu.main.flags _ pairDigits
  have difference := isDecimalDifference_ripple machine.cpu.main.flags _ pairDigits
  rw [map_fst_pairs, map_snd_pairs, length_pairs] at sum difference
  rw [collect_eq_ripple (Column.executeAll_adjustedCode .addCarry),
    collect_eq_ripple (Column.executeAll_adjustedCode .subtractCarry)]
  exact ⟨sum, difference⟩

/-- With the carry flag set, 199 and 201 give 401 and, below zero, 9997. -/
theorem decimal_chains_are_exact_hundreds :
    let machine : Machine := { cpu := { main := { flags := { carry := true } } } }
    let columns : List Column := [⟨0x99, .constant 0x01⟩, ⟨0x01, .constant 0x02⟩]
    let sum := machine.collect (columns.map (Column.adjustedCode .addCarry))
    let difference := machine.collect (columns.map (Column.adjustedCode .subtractCarry))
    (∀ column ∈ columns, IsDecimal column.left ∧ IsDecimal (column.right machine)) ∧
      decimal sum.1 = 401 ∧ sum.2.carry = false ∧
      decimal difference.1 = 9997 ∧ difference.2.carry = true := by
  intro machine columns sum difference
  have digits : ∀ column ∈ columns,
      IsDecimal column.left ∧ IsDecimal (column.right machine) := by decide
  obtain ⟨sums, differs⟩ := decimal_chains_are_exact machine columns digits
  have noCarry : ¬sum.2.carry = true := mt sums.carry_iff.mp (by decide)
  have value : (decimal difference.1 : Int) = 9997 := differs.value_eq.trans (by decide)
  exact ⟨digits, sums.value_eq.trans (by decide), by simpa using noCarry,
    by exact_mod_cast value, differs.carry_iff.mpr (by decide)⟩

end Machine

end Z80
