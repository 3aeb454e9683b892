import Z80.Proofs.BinaryArithmetic

/-!
# Arithmetic on words

The operations on words are described on their own, with a half carry out of the eleventh
bit and a sign at the fifteenth.  This file shows that they are nevertheless two operations
on bytes, of which the one on the high bytes takes the carry of the one on the low bytes:
its half carry, sign and overflow are those of the words.
-/

namespace Z80

namespace Arithmetic

/-- The word with the given bytes, the less significant one first. -/
def wordOf (bytes : List UInt8) : UInt16 :=
  UInt16.ofNat (binary bytes)

@[simp] theorem wordOf_pair (low high : UInt8) :
    wordOf [low, high] = wordOfBytes high low := by
  apply UInt16.toNat_inj.mp
  have lowBound := low.toNat_lt
  have highBound := high.toNat_lt
  have value : binary [low, high] = low.toNat + 256 * high.toNat := by simp [binary]
  rw [wordOf, value, UInt16.toNat_ofNat', toNat_wordOfBytes]
  omega

/-- The sign of a word is that of its high byte. -/
theorem isNegativeWord_eq (word : UInt16) : isNegativeWord word = isNegative (highByte word) := by
  have value := toNat_lowByte_add_highByte word
  have bound := (lowByte word).toNat_lt
  rw [isNegativeWord, isNegative, decide_eq_decide, UInt16.le_iff_toNat_le,
    UInt8.le_iff_toNat_le]
  simp only [UInt16.reduceToNat, UInt8.reduceToNat]
  omega

/-- An operation on words by way of one on bytes: its flags are those of the high bytes,
except that both bytes have to be zero for a zero result. -/
def wordwise (operation : ByteOperation) (left right : UInt16) (carry : Bool) :
    UInt16 × Flags :=
  let low := operation (lowByte left) (lowByte right) carry
  let high := operation (highByte left) (highByte right) low.2.carry
  (wordOfBytes high.1 low.1, { high.2 with zero := low.1 == 0 && high.1 == 0 })

section Agreement

variable (left right : UInt16) (carry : Bool)

theorem highByte_wordwise (operation : ByteOperation) :
    highByte (wordwise operation left right carry).1 =
      (operation (highByte left) (highByte right)
        (operation (lowByte left) (lowByte right) carry).2.carry).1 :=
  highByte_wordOfBytes _ _

theorem zero_wordwise (operation : ByteOperation) :
    ((wordwise operation left right carry).1 == 0) =
      (wordwise operation left right carry).2.zero :=
  wordOfBytes_eq_zero _ _

/-- If an operation adds or subtracts bytes, its words are added or subtracted. -/
theorem value_wordwise {operation : ByteOperation} {sign : Int}
    (carries : Carries operation sign 256 (fun _ => True) UInt8.toNat) :
    ((wordwise operation left right carry).1.toNat : Int) +
        sign * (65536 * (wordwise operation left right carry).2.carry.toNat) =
      left.toNat + sign * (right.toNat + carry.toNat) := by
  have low := carries.value_eq (lowByte left) (lowByte right) trivial trivial carry
  have high := carries.value_eq (highByte left) (highByte right) trivial trivial
    (operation (lowByte left) (lowByte right) carry).2.carry
  have result : (wordwise operation left right carry).1.toNat = _ := toNat_wordOfBytes _ _
  rw [result, ← toNat_lowByte_add_highByte left, ← toNat_lowByte_add_highByte right]
  dsimp only [wordwise]
  push_cast at low high ⊢
  linear_combination low + 256 * high

theorem halfCarry_wordwise_add :
    (wordwise add left right carry).2.halfCarry =
      decide (4095 < left.toNat % 4096 + right.toNat % 4096 + carry.toNat) := by
  have leftValue := toNat_lowByte_add_highByte left
  have rightValue := toNat_lowByte_add_highByte right
  have leftBound := (lowByte left).toNat_lt
  have rightBound := (lowByte right).toNat_lt
  have carryBound := carry.toNat_le
  have halfCarry : (wordwise add left right carry).2.halfCarry =
      decide (15 < (highByte left).toNat % 16 + (highByte right).toNat % 16 +
        (decide (255 < (lowByte left).toNat + (lowByte right).toNat + carry.toNat)).toNat) := rfl
  rw [halfCarry, decide_eq_decide]
  by_cases exceeds : 255 < (lowByte left).toNat + (lowByte right).toNat + carry.toNat
  · rw [decide_eq_true exceeds, Bool.toNat_true]
    omega
  · rw [decide_eq_false exceeds, Bool.toNat_false]
    omega

theorem halfCarry_wordwise_subtract :
    (wordwise subtract left right carry).2.halfCarry =
      decide (left.toNat % 4096 < right.toNat % 4096 + carry.toNat) := by
  have leftValue := toNat_lowByte_add_highByte left
  have rightValue := toNat_lowByte_add_highByte right
  have leftBound := (lowByte left).toNat_lt
  have rightBound := (lowByte right).toNat_lt
  have carryBound := carry.toNat_le
  have halfCarry : (wordwise subtract left right carry).2.halfCarry =
      decide ((highByte left).toNat % 16 < (highByte right).toNat % 16 +
        (decide ((lowByte left).toNat < (lowByte right).toNat + carry.toNat)).toNat) := rfl
  rw [halfCarry, decide_eq_decide]
  by_cases borrows : (lowByte left).toNat < (lowByte right).toNat + carry.toNat
  · rw [decide_eq_true borrows, Bool.toNat_true]
    omega
  · rw [decide_eq_false borrows, Bool.toNat_false]
    omega

theorem carry_wordwise_add :
    (wordwise add left right carry).2.carry =
      decide (65535 < left.toNat + right.toNat + carry.toNat) := by
  have value := value_wordwise left right carry carries_add
  have bound := (wordwise add left right carry).1.toNat_lt
  cases carried : (wordwise add left right carry).2.carry with
  | false =>
      rw [carried, Bool.toNat_false] at value
      exact (decide_eq_false (by omega)).symm
  | true =>
      rw [carried, Bool.toNat_true] at value
      exact (decide_eq_true (by omega)).symm

theorem carry_wordwise_subtract :
    (wordwise subtract left right carry).2.carry =
      decide (left.toNat < right.toNat + carry.toNat) := by
  have value := value_wordwise left right carry carries_subtract
  have bound := (wordwise subtract left right carry).1.toNat_lt
  cases carried : (wordwise subtract left right carry).2.carry with
  | false =>
      rw [carried, Bool.toNat_false] at value
      exact (decide_eq_false (by omega)).symm
  | true =>
      rw [carried, Bool.toNat_true] at value
      exact (decide_eq_true (by omega)).symm

theorem fst_wordwise_add :
    (wordwise add left right carry).1 =
      UInt16.ofNat (left.toNat + right.toNat + carry.toNat) := by
  apply UInt16.toNat_inj.mp
  have value := value_wordwise left right carry carries_add
  have bound := (wordwise add left right carry).1.toNat_lt
  rw [UInt16.toNat_ofNat']
  omega

theorem fst_wordwise_subtract :
    (wordwise subtract left right carry).1 =
      left - UInt16.ofNat (right.toNat + carry.toNat) := by
  apply UInt16.toNat_inj.mp
  have value := value_wordwise left right carry carries_subtract
  have bound := (wordwise subtract left right carry).1.toNat_lt
  rw [UInt16.toNat_sub, UInt16.toNat_ofNat']
  omega

/-- Adding words with a carry is adding their bytes with a carry. -/
theorem addCarryWord_eq_wordwise :
    addCarryWord left right carry = wordwise add left right carry := by
  simp only [addCarryWord, isNegativeWord_eq, ← fst_wordwise_add, ← halfCarry_wordwise_add,
    ← carry_wordwise_add, highByte_wordwise, zero_wordwise]
  rfl

/-- Subtracting words with a borrow is subtracting their bytes with a borrow. -/
theorem subtractCarryWord_eq_wordwise :
    subtractCarryWord left right carry = wordwise subtract left right carry := by
  simp only [subtractCarryWord, isNegativeWord_eq, ← fst_wordwise_subtract,
    ← halfCarry_wordwise_subtract, ← carry_wordwise_subtract, highByte_wordwise, zero_wordwise]
  rfl

/-- Adding words without a carry adds their bytes, and sets three of the flags. -/
theorem addWord_eq_wordwise (flags : Flags) :
    let sum := wordwise add left right false
    addWord flags left right =
      (sum.1,
        { flags with
          halfCarry := sum.2.halfCarry, subtract := sum.2.subtract, carry := sum.2.carry }) := by
  intro sum
  have result : left + right = sum.1 := by
    rw [fst_wordwise_add, Bool.toNat_false, Nat.add_zero, UInt16.ofNat_add,
      UInt16.ofNat_toNat, UInt16.ofNat_toNat]
  have halfCarry := halfCarry_wordwise_add left right false
  have carried := carry_wordwise_add left right false
  rw [Bool.toNat_false, Nat.add_zero] at halfCarry carried
  rw [addWord, result, ← halfCarry, ← carried]
  rfl

end Agreement

end Arithmetic

namespace Machine

open Arithmetic

/-- A word has been left in a pair, the flags have been set, and everything else is as it
was before. -/
structure LeavesWord (before after : Machine) (target : Pair) (word : UInt16)
    (flags : Flags) : Prop where
  target_eq : after.cpu.pair target = word
  flags_eq : after.cpu.main.flags = flags
  accumulator_eq : after.cpu.main.a = before.cpu.main.a
  pair_eq : ∀ other, other ≠ target → other ≠ .af → after.cpu.pair other = before.cpu.pair other
  shadow_eq : after.cpu.shadow = before.cpu.shadow
  i_eq : after.cpu.i = before.cpu.i
  r_eq : after.cpu.r = before.cpu.r
  pc_eq : after.cpu.pc = before.cpu.pc
  halted_eq : after.cpu.halted = before.cpu.halted
  interruptsEnabled_eq : after.cpu.interruptsEnabled = before.cpu.interruptsEnabled
  interruptMode_eq : after.cpu.interruptMode = before.cpu.interruptMode
  memory_eq : after.memory = before.memory

/-- The accumulator pair is left out because it contains the flags. -/
theorem leavesWord_setPair (machine : Machine) {target : Pair} (others : target ≠ .af)
    {result : UInt16 × Flags} {word : UInt16} {flags : Flags} (resultEq : result = (word, flags)) :
    machine.LeavesWord
      { machine with cpu := (machine.cpu.setFlags result.2).setPair target result.1 }
      target word flags := by
  subst resultEq
  have target_eq := Cpu.pair_setPair (machine.cpu.setFlags flags) others word
  have pair_eq (other : Pair) (distinct : other ≠ target) (plain : other ≠ .af) :
      ((machine.cpu.setFlags flags).setPair target word).pair other =
        machine.cpu.pair other := by
    rw [Cpu.pair_setPair_of_ne _ distinct, Cpu.pair_setFlags _ plain]
  cases target with
  | af => exact absurd rfl others
  | index register =>
      cases register <;>
        exact ⟨target_eq, rfl, rfl, pair_eq, rfl, rfl, rfl, rfl, rfl, rfl, rfl, rfl⟩
  | _ => exact ⟨target_eq, rfl, rfl, pair_eq, rfl, rfl, rfl, rfl, rfl, rfl, rfl, rfl⟩

/-- The bytes and flags that the accumulator leaves after an operation on the low bytes
of two words and one on their high bytes. -/
def bytewise (machine : Machine) (opening following : Operation) (left right : UInt16) :
    List UInt8 × Flags :=
  machine.collect
    (Column.chain opening following ⟨lowByte left, .constant (lowByte right)⟩
      [⟨highByte left, .constant (highByte right)⟩])

theorem bytewise_eq {opening following : Operation} (operation : ByteOperation)
    (machine : Machine) (left right : UInt16) {carry : Bool}
    (opens : ∀ left right : UInt8,
      combine opening left right machine.cpu.main.flags.carry = operation left right carry)
    (follows : combine following = operation) :
    let bytes := machine.bytewise opening following left right
    wordwise operation left right carry =
      (wordOf bytes.1, { bytes.2 with zero := bytes.1.all (· == 0) }) := by
  intro bytes
  have chained : bytes = _ := collect_chain operation machine _ _ opens follows
  rw [chained]
  simp [ripple, pairs, Column.right, Cpu.byteFrom, wordwise]

/-- Adding and subtracting words with the carry flag is the same as adding and subtracting
first their low bytes and then their high bytes, but for the zero flag, which speaks of
both bytes.  Adding words without the carry flag is adding their bytes likewise, but keeps
the flags that judge a result. -/
theorem word_arithmetic_is_bytewise (machine : Machine) (source : Pair) :
    let value := machine.cpu.pair source
    let sum := machine.bytewise .addCarry .addCarry machine.cpu.main.hl value
    let difference := machine.bytewise .subtractCarry .subtractCarry machine.cpu.main.hl value
    machine.LeavesWord (machine.execute (.addCarryPair source)) .hl (wordOf sum.1)
        { sum.2 with zero := sum.1.all (· == 0) } ∧
      machine.LeavesWord (machine.execute (.subtractCarryPair source)) .hl
        (wordOf difference.1) { difference.2 with zero := difference.1.all (· == 0) } ∧
      ∀ target : Pair, target ≠ .af →
        let plain := machine.bytewise .add .addCarry (machine.cpu.pair target) value
        machine.LeavesWord (machine.execute (.addPair target source)) target (wordOf plain.1)
          { machine.cpu.main.flags with
            halfCarry := plain.2.halfCarry
            subtract := plain.2.subtract
            carry := plain.2.carry } := by
  intro value sum difference
  have sumEq : wordwise add machine.cpu.main.hl value machine.cpu.main.flags.carry =
      (wordOf sum.1, { sum.2 with zero := sum.1.all (· == 0) }) :=
    bytewise_eq add machine _ _ (fun _ _ => rfl) rfl
  have differenceEq :
      wordwise subtract machine.cpu.main.hl value machine.cpu.main.flags.carry =
        (wordOf difference.1, { difference.2 with zero := difference.1.all (· == 0) }) :=
    bytewise_eq subtract machine _ _ (fun _ _ => rfl) rfl
  have others : Pair.hl ≠ .af := by decide
  refine ⟨?_, ?_, ?_⟩
  · exact machine.leavesWord_setPair others ((addCarryWord_eq_wordwise _ _ _).trans sumEq)
  · exact machine.leavesWord_setPair others
      ((subtractCarryWord_eq_wordwise _ _ _).trans differenceEq)
  · intro target others plain
    have plainEq : wordwise add (machine.cpu.pair target) value false =
        (wordOf plain.1, { plain.2 with zero := plain.1.all (· == 0) }) :=
      bytewise_eq add machine _ _ (fun _ _ => rfl) rfl
    have added := addWord_eq_wordwise (machine.cpu.pair target) value machine.cpu.main.flags
    rw [plainEq] at added
    exact machine.leavesWord_setPair others added

/-- The low bytes carry into the high ones, and the zero flag stays set. -/
theorem word_arithmetic_is_bytewise_index :
    let machine : Machine :=
      ⟨{ main := { flags := { zero := true }, c := 1 }, ix := 0x0FFF }, Memory.zero⟩
    machine.LeavesWord (machine.execute (.addPair (.index .ix) .bc)) (.index .ix) 0x1000
      { zero := true, halfCarry := true } := by
  intro machine
  obtain ⟨_, _, added⟩ := word_arithmetic_is_bytewise machine .bc
  have bytes : machine.bytewise .add .addCarry (machine.cpu.pair (.index .ix))
      (machine.cpu.pair .bc) = ([0, 0x10], { halfCarry := true }) := by decide
  have left := added (.index .ix) (by decide)
  rw [bytes] at left
  exact left

end Machine

end Z80
