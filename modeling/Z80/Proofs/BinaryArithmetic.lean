import Z80.Proofs.ByteChains
import Z80.Proofs.WordValues

/-!
# Binary arithmetic on several bytes

Chains of additions and subtractions with carry compute with numbers of any length, and
the flags that the last byte leaves judge the whole result: as an unsigned number by the
carry, as a number in two's complement by the sign and the overflow.
-/

namespace Z80

namespace Arithmetic

/-- The number for which bytes stand, the least significant one first. -/
def binary (bytes : List UInt8) : Nat :=
  numberOf 256 UInt8.toNat bytes

/-- The number for which bytes stand in two's complement. -/
def signedBinary (bytes : List UInt8) : Int :=
  if 2 * binary bytes < 256 ^ bytes.length then binary bytes
  else binary bytes - 256 ^ bytes.length

/-- A number fits in so many bytes in two's complement. -/
def Fits (length : Nat) (value : Int) : Prop :=
  -256 ^ length ≤ 2 * value ∧ 2 * value < 256 ^ length

/-- The flags of an operation that adds, with sign one, or subtracts, with sign minus
one, judge its result as a number in two's complement. -/
structure JudgesSign (operation : ByteOperation) (sign : Int) : Prop where
  sign_eq : ∀ (left right : UInt8) (carry : Bool),
    (operation left right carry).2.sign = isNegative (operation left right carry).1
  overflow_iff : ∀ (left right : UInt8) (carry : Bool),
    (operation left right carry).2.overflow = true ↔
      ¬Fits 1 (signedValue left + sign * (signedValue right + carry.toNat))

/-- The bytes and flags of a sum of two numbers of equal length and a carry. -/
structure IsSum (length : Nat) (left right : List UInt8) (carry : Bool)
    (result : List UInt8 × Flags) : Prop where
  length_eq : result.1.length = length
  value_eq : binary result.1 + 256 ^ length * result.2.carry.toNat =
    binary left + binary right + carry.toNat
  sign_iff : result.2.sign = true ↔ 256 ^ length ≤ 2 * binary result.1
  overflow_iff : result.2.overflow = true ↔
    ¬Fits length (signedBinary left + signedBinary right + carry.toNat)

/-- The bytes and flags of a difference of two numbers of equal length and a borrow. -/
structure IsDifference (length : Nat) (left right : List UInt8) (borrow : Bool)
    (result : List UInt8 × Flags) : Prop where
  length_eq : result.1.length = length
  value_eq : (binary result.1 : Int) = binary left - binary right - borrow.toNat +
    256 ^ length * result.2.carry.toNat
  carry_iff : result.2.carry = true ↔ binary left < binary right + borrow.toNat
  sign_iff : result.2.sign = true ↔ 256 ^ length ≤ 2 * binary result.1
  overflow_iff : result.2.overflow = true ↔
    ¬Fits length (signedBinary left - signedBinary right - borrow.toNat)
  less_iff : result.2.sign ≠ result.2.overflow ↔
    signedBinary left < signedBinary right + borrow.toNat

@[simp] theorem binary_cons (byte : UInt8) (rest : List UInt8) :
    binary (byte :: rest) = byte.toNat + 256 * binary rest :=
  numberOf_cons byte rest

/-- The top bit of a number is that of its more significant bytes. -/
theorem top_cons (byte : UInt8) {rest : List UInt8} (more : rest ≠ []) :
    256 ^ (byte :: rest).length ≤ 2 * binary (byte :: rest) ↔
      256 ^ rest.length ≤ 2 * binary rest := by
  obtain ⟨next, others, rfl⟩ := List.exists_cons_of_ne_nil more
  have bound := byte.toNat_lt
  rw [binary_cons, List.length_cons, List.length_cons, pow_succ _ (others.length + 1),
    pow_succ]
  omega

theorem signedBinary_cons (byte : UInt8) {rest : List UInt8} (more : rest ≠ []) :
    signedBinary (byte :: rest) = byte.toNat + 256 * signedBinary rest := by
  have top := top_cons byte more
  unfold signedBinary
  rw [binary_cons, List.length_cons, pow_succ] at *
  split <;> split <;> push_cast <;> omega

theorem top_singleton (byte : UInt8) :
    isNegative byte = true ↔ 256 ^ 1 ≤ 2 * binary [byte] := by
  have value : binary [byte] = byte.toNat := binary_cons byte []
  rcases signedValue_cases byte with ⟨negative, high, -⟩ | ⟨positive, low, -⟩
  · simp only [negative, true_iff]
    omega
  · simp only [positive, Bool.false_eq_true, false_iff]
    omega

theorem signedBinary_singleton (byte : UInt8) : signedBinary [byte] = signedValue byte := by
  have value : binary [byte] = byte.toNat := binary_cons byte []
  unfold signedBinary
  rw [value, List.length_singleton]
  rcases signedValue_cases byte with ⟨-, high, read⟩ | ⟨-, low, read⟩
  · rw [if_neg (by omega), read]
    rfl
  · rw [if_pos (by omega), read]

theorem fits_one {value : Int} : Fits 1 value ↔ -128 ≤ value ∧ value < 128 := by
  unfold Fits
  omega

theorem fits_succ (byte : UInt8) {length : Nat} {value : Int} :
    Fits (length + 2) (byte.toNat + 256 * value) ↔ Fits (length + 1) value := by
  have bound := byte.toNat_lt
  unfold Fits
  rw [pow_succ _ (length + 1), pow_succ]
  omega

theorem carries_add : Carries add 1 256 (fun _ => True) UInt8.toNat where
  one_lt := by decide
  value_lt byte _ := byte.toNat_lt
  isDigit _ _ _ _ _ := trivial
  value_eq left right _ _ carry := by
    have leftBound := left.toNat_lt
    have rightBound := right.toNat_lt
    have carryBound := carry.toNat_le
    have result := toNat_add left right carry
    by_cases exceeds : 255 < left.toNat + right.toNat + carry.toNat
    · have carried : (add left right carry).2.carry = true := decide_eq_true exceeds
      rw [carried, Bool.toNat_true]
      omega
    · have carried : (add left right carry).2.carry = false := decide_eq_false exceeds
      rw [carried, Bool.toNat_false]
      omega

theorem carries_subtract : Carries subtract (-1) 256 (fun _ => True) UInt8.toNat where
  one_lt := by decide
  value_lt byte _ := byte.toNat_lt
  isDigit _ _ _ _ _ := trivial
  value_eq left right _ _ borrow := by
    have leftBound := left.toNat_lt
    have rightBound := right.toNat_lt
    have borrowBound := borrow.toNat_le
    have result := toNat_subtract left right borrow
    by_cases exceeds : left.toNat < right.toNat + borrow.toNat
    · have borrowed : (subtract left right borrow).2.carry = true := decide_eq_true exceeds
      rw [borrowed, Bool.toNat_true]
      omega
    · have borrowed : (subtract left right borrow).2.carry = false :=
        decide_eq_false exceeds
      rw [borrowed, Bool.toNat_false]
      omega

theorem binary_lt (bytes : List UInt8) : binary bytes < 256 ^ bytes.length :=
  numberOf_lt carries_add fun _ _ => trivial

theorem judgesSign_add : JudgesSign add 1 where
  sign_eq _ _ _ := rfl
  overflow_iff left right carry := by
    have total := carries_add.value_eq left right trivial trivial carry
    have leftBound := left.toNat_lt
    have rightBound := right.toNat_lt
    have resultBound := (add left right carry).1.toNat_lt
    have carryBound := carry.toNat_le
    have overflow : (add left right carry).2.overflow =
        (isNegative left == isNegative right &&
          isNegative left != isNegative (add left right carry).1) := rfl
    rw [overflow, fits_one]
    rcases signedValue_cases left with ⟨leftTop, _, _⟩ | ⟨leftTop, _, _⟩ <;>
      rcases signedValue_cases right with ⟨rightTop, _, _⟩ | ⟨rightTop, _, _⟩ <;>
      rcases signedValue_cases (add left right carry).1 with ⟨top, _, _⟩ | ⟨top, _, _⟩ <;>
      cases carried : (add left right carry).2.carry <;>
      simp [leftTop, rightTop, top, carried] at total ⊢ <;>
      omega

theorem judgesSign_subtract : JudgesSign subtract (-1) where
  sign_eq _ _ _ := rfl
  overflow_iff left right borrow := by
    have total := carries_subtract.value_eq left right trivial trivial borrow
    have leftBound := left.toNat_lt
    have rightBound := right.toNat_lt
    have resultBound := (subtract left right borrow).1.toNat_lt
    have borrowBound := borrow.toNat_le
    have overflow : (subtract left right borrow).2.overflow =
        (isNegative left != isNegative right &&
          isNegative left != isNegative (subtract left right borrow).1) := rfl
    rw [overflow, fits_one]
    rcases signedValue_cases left with ⟨leftTop, _, _⟩ | ⟨leftTop, _, _⟩ <;>
      rcases signedValue_cases right with ⟨rightTop, _, _⟩ | ⟨rightTop, _, _⟩ <;>
      rcases signedValue_cases (subtract left right borrow).1 with ⟨top, _, _⟩ | ⟨top, _, _⟩ <;>
      cases borrowed : (subtract left right borrow).2.carry <;>
      simp [leftTop, rightTop, top, borrowed] at total ⊢ <;>
      omega

/-- The sign that a chain leaves is the top bit of the whole result. -/
theorem sign_ripple {operation : ByteOperation} {sign : Int}
    (judges : JudgesSign operation sign) (flags : Flags) (pair : UInt8 × UInt8)
    (rest : List (UInt8 × UInt8)) :
    (ripple operation flags (pair :: rest)).2.sign = true ↔
      256 ^ (rest.length + 1) ≤ 2 * binary (ripple operation flags (pair :: rest)).1 := by
  induction rest generalizing pair flags with
  | nil =>
      have judged := judges.sign_eq pair.1 pair.2 flags.carry
      exact (Bool.eq_iff_iff.mp judged).trans (top_singleton _)
  | cons next others ih =>
      let digit := operation pair.1 pair.2 flags.carry
      have more : (ripple operation digit.2 (next :: others)).1 ≠ [] := List.cons_ne_nil _ _
      have top := top_cons digit.1 more
      rw [List.length_cons, length_ripple] at top
      exact (ih digit.2 next).trans top.symm

/-- The overflow that a chain leaves tells that the whole result does not fit in two's
complement. -/
theorem overflow_ripple {operation : ByteOperation} {sign : Int}
    (carries : Carries operation sign 256 (fun _ => True) UInt8.toNat)
    (judges : JudgesSign operation sign) (flags : Flags) (pair : UInt8 × UInt8)
    (rest : List (UInt8 × UInt8)) :
    (ripple operation flags (pair :: rest)).2.overflow = true ↔
      ¬Fits (rest.length + 1) (signedBinary ((pair :: rest).map Prod.fst) +
        sign * (signedBinary ((pair :: rest).map Prod.snd) + flags.carry.toNat)) := by
  induction rest generalizing pair flags with
  | nil =>
      rw [List.map_singleton, List.map_singleton, signedBinary_singleton,
        signedBinary_singleton]
      exact judges.overflow_iff pair.1 pair.2 flags.carry
  | cons next others ih =>
      let digit := operation pair.1 pair.2 flags.carry
      have digitValue := carries.value_eq pair.1 pair.2 trivial trivial flags.carry
      have leftNumber : signedBinary ((pair :: next :: others).map Prod.fst) =
          pair.1.toNat + 256 * signedBinary ((next :: others).map Prod.fst) :=
        signedBinary_cons pair.1 (List.cons_ne_nil _ _)
      have rightNumber : signedBinary ((pair :: next :: others).map Prod.snd) =
          pair.2.toNat + 256 * signedBinary ((next :: others).map Prod.snd) :=
        signedBinary_cons pair.2 (List.cons_ne_nil _ _)
      -- The carry of the first byte is the carry with which the others begin.
      refine (ih digit.2 next).trans (not_congr ?_)
      rw [← fits_succ digit.1, leftNumber, rightNumber]
      refine iff_of_eq (congrArg (Fits _) ?_)
      linear_combination digitValue

/-- The sign differs from the overflow exactly if the left number is less: the sign is
right about the difference if that fits, and wrong if it does not. -/
theorem less_of_difference {length : Nat} {left right result : List UInt8}
    {borrow carry : Bool} (leftLength : left.length = length)
    (rightLength : right.length = length) (resultLength : result.length = length)
    (value : (binary result : Int) =
      binary left - binary right - borrow.toNat + 256 ^ length * carry.toNat) :
    ¬(256 ^ length ≤ 2 * binary result ↔
        ¬Fits length (signedBinary left - signedBinary right - borrow.toNat)) ↔
      signedBinary left < signedBinary right + borrow.toNat := by
  have leftBound := binary_lt left
  have rightBound := binary_lt right
  have resultBound := binary_lt result
  have power : (256 : Int) ^ length = (256 ^ length : Nat) := by push_cast; rfl
  rw [leftLength] at leftBound
  rw [rightLength] at rightBound
  rw [resultLength] at resultBound
  unfold Fits signedBinary
  rw [leftLength, rightLength, power]
  rw [power] at value
  generalize 256 ^ length = modulus at *
  cases borrow <;> cases carry <;>
    simp only [Bool.toNat_true, Bool.toNat_false] at value ⊢ <;>
    split <;> split <;> omega

theorem isSum_ripple (flags : Flags) (pair : UInt8 × UInt8) (rest : List (UInt8 × UInt8)) :
    IsSum (rest.length + 1) ((pair :: rest).map Prod.fst) ((pair :: rest).map Prod.snd)
      flags.carry (ripple add flags (pair :: rest)) where
  length_eq := length_ripple add flags (pair :: rest)
  value_eq := by
    have value := numberOf_ripple carries_add flags (pair :: rest) (by simp)
    rw [one_mul, one_mul, ← add_assoc, List.length_cons] at value
    exact_mod_cast value
  sign_iff := sign_ripple judgesSign_add flags pair rest
  overflow_iff := by
    have overflow := overflow_ripple carries_add judgesSign_add flags pair rest
    rwa [one_mul, ← add_assoc] at overflow

theorem isDifference_ripple (flags : Flags) (pair : UInt8 × UInt8)
    (rest : List (UInt8 × UInt8)) :
    IsDifference (rest.length + 1) ((pair :: rest).map Prod.fst)
      ((pair :: rest).map Prod.snd) flags.carry (ripple subtract flags (pair :: rest)) := by
  have total := numberOf_ripple carries_subtract flags (pair :: rest) (by simp)
  rw [List.length_cons] at total
  have value : (binary (ripple subtract flags (pair :: rest)).1 : Int) =
      binary ((pair :: rest).map Prod.fst) - binary ((pair :: rest).map Prod.snd) -
        flags.carry.toNat + 256 ^ (rest.length + 1) *
          (ripple subtract flags (pair :: rest)).2.carry.toNat := by
    unfold binary
    push_cast at total
    linear_combination total
  have sign := sign_ripple judgesSign_subtract flags pair rest
  have overflow := overflow_ripple carries_subtract judgesSign_subtract flags pair rest
  rw [neg_one_mul, neg_add, ← add_assoc] at overflow
  refine ⟨length_ripple subtract flags (pair :: rest), value,
    carry_ripple_of_difference carries_subtract flags (pair :: rest) (by simp), sign,
    overflow, ?_⟩
  rw [Ne, Bool.eq_iff_iff, sign, overflow]
  exact less_of_difference (by simp) (by simp) (by simp) value

end Arithmetic

namespace Machine

open Arithmetic

/-- Adding and subtracting byte by byte adds and subtracts numbers of any length, with
the carry flag as the first carry or, if the chain begins without one, with no carry.
A comparison of single bytes is their subtraction with the accumulator kept. -/
theorem binary_chains_are_exact (machine : Machine) (first : Column) (rest : List Column) :
    let length := rest.length + 1
    let left := (first :: rest).map Column.left
    let right := (first :: rest).map fun column => column.right machine
    let carry := machine.cpu.main.flags.carry
    let result opening following :=
      machine.collect (Column.chain opening following first rest)
    let subtracted := machine.executeAll (first.code .subtract)
    IsSum length left right carry (result .addCarry .addCarry) ∧
      IsSum length left right false (result .add .addCarry) ∧
      IsDifference length left right carry (result .subtractCarry .subtractCarry) ∧
      IsDifference length left right false (result .subtract .subtractCarry) ∧
      machine.executeAll (first.code .compare) =
        { subtracted with cpu := subtracted.cpu.setRegister .a first.left } := by
  intro length left right carry result subtracted
  have leftPairs : (machine.pairs (first :: rest)).map Prod.fst = left :=
    map_fst_pairs machine _
  have rightPairs : (machine.pairs (first :: rest)).map Prod.snd = right :=
    map_snd_pairs machine _
  have sum (initial : Bool) : IsSum length left right initial
      (ripple add { machine.cpu.main.flags with carry := initial }
        (machine.pairs (first :: rest))) := by
    have isSum := isSum_ripple { machine.cpu.main.flags with carry := initial }
      (first.left, first.right machine) (machine.pairs rest)
    rw [length_pairs] at isSum
    rwa [← leftPairs, ← rightPairs]
  have difference (initial : Bool) : IsDifference length left right initial
      (ripple subtract { machine.cpu.main.flags with carry := initial }
        (machine.pairs (first :: rest))) := by
    have isDifference := isDifference_ripple
      { machine.cpu.main.flags with carry := initial }
      (first.left, first.right machine) (machine.pairs rest)
    rw [length_pairs] at isDifference
    rwa [← leftPairs, ← rightPairs]
  refine ⟨?_, ?_, ?_, ?_, rfl⟩
  · rw [show result .addCarry .addCarry = _ from
      collect_chain add machine first rest (fun _ _ => rfl) rfl]
    exact sum carry
  · rw [show result .add .addCarry = _ from
      collect_chain add machine first rest (fun _ _ => rfl) rfl]
    exact sum false
  · rw [show result .subtractCarry .subtractCarry = _ from
      collect_chain subtract machine first rest (fun _ _ => rfl) rfl]
    exact difference carry
  · rw [show result .subtract .subtractCarry = _ from
      collect_chain subtract machine first rest (fun _ _ => rfl) rfl]
    exact difference false

end Machine

end Z80
