import Z80.Proofs.BinaryArithmetic

/-!
# Threads through the bytes of a number

A computation on a number of several bytes goes through its bytes and hands something on
from each to the next: a carry, or a digit.  If an operation on one byte multiplies it by a
factor, taking in what the former byte has left and leaving what does not fit, a thread from
the least significant byte on multiplies the number.  If it divides the byte, a thread from
the most significant byte on divides the number.
-/

namespace Z80

namespace Arithmetic

/-- Apply an operation to bytes one after another, handing a state on. -/
def thread {State : Type} (operation : UInt8 → State → UInt8 × State) (state : State) :
    List UInt8 → List UInt8 × State
  | [] => ([], state)
  | byte :: rest =>
      let first := operation byte state
      let others := thread operation first.2 rest
      (first.1 :: others.1, others.2)

/-- The number for which bytes stand as hexadecimal digits, two in each byte and the least
significant one first. -/
def hexadecimal (bytes : List UInt8) : Nat :=
  Nat.ofDigits 16 (bytes.flatMap fun byte => [byte.toNat % 16, byte.toNat / 16])

/-- The bytes and the carry of twice a number. -/
structure IsDouble (bytes : List UInt8) (result : List UInt8 × Flags) : Prop where
  length_eq : result.1.length = bytes.length
  value_eq : binary result.1 = 2 * binary bytes % 256 ^ bytes.length
  carry_iff : result.2.carry = true ↔ 256 ^ bytes.length ≤ 2 * binary bytes

/-- The bytes of half a number, and its lowest bit as the carry. -/
structure IsHalf (bytes : List UInt8) (result : List UInt8 × Flags) : Prop where
  length_eq : result.1.length = bytes.length
  value_eq : binary result.1 = binary bytes / 2
  carry_iff : result.2.carry = true ↔ binary bytes % 2 = 1

/-- The bytes of half a number in two's complement, and its lowest bit as the carry. -/
structure IsSignedHalf (bytes : List UInt8) (result : List UInt8 × Flags) : Prop where
  length_eq : result.1.length = bytes.length
  value_eq : signedBinary result.1 = signedBinary bytes / 2
  carry_iff : result.2.carry = true ↔ binary bytes % 2 = 1

@[simp] theorem hexadecimal_eq_binary (bytes : List UInt8) :
    hexadecimal bytes = binary bytes := by
  induction bytes with
  | nil => rfl
  | cons byte rest ih =>
      rw [binary_cons, ← ih]
      simp only [hexadecimal, List.flatMap_cons, List.cons_append, List.nil_append,
        Nat.ofDigits_cons]
      omega

/-- All digits of at least one byte but the top one. -/
theorem pow_digits (count : Nat) : 256 ^ (count + 1) = 16 * 16 ^ (2 * count + 1) := by
  rw [show 256 = 16 ^ 2 from rfl, ← pow_mul, ← pow_succ']
  rfl

theorem binary_append (first second : List UInt8) :
    binary (first ++ second) = binary first + 256 ^ first.length * binary second := by
  simp [binary, numberOf, Nat.ofDigits_append]

section Threads

variable {State : Type}

section Operations

variable {operation : UInt8 → State → UInt8 × State}

@[simp] theorem length_thread (state : State) (bytes : List UInt8) :
    (thread operation state bytes).1.length = bytes.length := by
  induction bytes generalizing state with
  | nil => rfl
  | cons byte rest ih => simp [thread, ih]

/-- What the operation keeps of its state, a whole thread keeps. -/
theorem view_thread {View : Type} (view : State → View)
    (keeps : ∀ byte state, view (operation byte state).2 = view state) (state : State)
    (bytes : List UInt8) : view (thread operation state bytes).2 = view state := by
  induction bytes generalizing state with
  | nil => rfl
  | cons byte rest ih => exact (ih (operation byte state).2).trans (keeps byte state)

end Operations

/-- An operation multiplies a byte by a factor: it takes in what the former byte has left,
and leaves what does not fit. -/
def Multiplies (operation : UInt8 → State → UInt8 × State) (factor : Nat)
    (carried : State → Nat) : Prop :=
  ∀ byte state,
    (operation byte state).1.toNat + 256 * carried (operation byte state).2 =
      factor * byte.toNat + carried state

/-- An operation divides a byte by a factor: it takes in what the former byte has left
above the byte, and leaves the remainder. -/
def Divides (operation : UInt8 → State → UInt8 × State) (factor : Nat)
    (carried : State → Nat) : Prop :=
  ∀ byte state,
    factor * (operation byte state).1.toNat + carried (operation byte state).2 =
      byte.toNat + 256 * carried state

variable {operation : UInt8 → State → UInt8 × State} {factor : Nat} {carried : State → Nat}

theorem binary_thread_of_multiplies (multiplies : Multiplies operation factor carried)
    (state : State) (bytes : List UInt8) :
    let threaded := thread operation state bytes
    binary threaded.1 + 256 ^ bytes.length * carried threaded.2 =
      factor * binary bytes + carried state := by
  induction bytes generalizing state with
  | nil => simp [thread, binary]
  | cons byte rest ih =>
      have first := multiplies byte state
      have others := ih (operation byte state).2
      dsimp only at others
      simp only [thread, binary_cons, List.length_cons, pow_succ]
      linear_combination first + 256 * others

/-- From the most significant byte on, so that the lists are the numbers backwards. -/
theorem binary_thread_of_divides (divides : Divides operation factor carried)
    (state : State) (bytes : List UInt8) :
    let threaded := thread operation state bytes
    factor * binary threaded.1.reverse + carried threaded.2 =
      binary bytes.reverse + 256 ^ bytes.length * carried state := by
  induction bytes generalizing state with
  | nil => simp [thread, binary]
  | cons byte rest ih =>
      have first := divides byte state
      have others := ih (operation byte state).2
      dsimp only at others
      have single (last : UInt8) : binary [last] = last.toNat := by simp [binary]
      simp only [thread, List.reverse_cons, binary_append, List.length_reverse, length_thread,
        single, List.length_cons, pow_succ]
      linear_combination others + 256 ^ rest.length * first

theorem thread_multiplied (multiplies : Multiplies operation factor carried)
    (state : State) (bytes : List UInt8) :
    let threaded := thread operation state bytes
    let number := factor * binary bytes + carried state
    binary threaded.1 = number % 256 ^ bytes.length ∧
      carried threaded.2 = number / 256 ^ bytes.length := by
  intro threaded number
  have total : binary threaded.1 + 256 ^ bytes.length * carried threaded.2 = number :=
    binary_thread_of_multiplies multiplies state bytes
  have below := binary_lt threaded.1
  rw [length_thread] at below
  have parts := (Nat.div_mod_unique (Nat.pow_pos (by decide))).mpr ⟨total, below⟩
  exact ⟨parts.2.symm, parts.1.symm⟩

theorem thread_divided (divides : Divides operation factor carried)
    (carried_lt : ∀ state, carried state < factor) (state : State) (bytes : List UInt8) :
    let threaded := thread operation state bytes
    let number := binary bytes.reverse + 256 ^ bytes.length * carried state
    binary threaded.1.reverse = number / factor ∧ carried threaded.2 = number % factor := by
  intro threaded number
  have total : factor * binary threaded.1.reverse + carried threaded.2 = number :=
    binary_thread_of_divides divides state bytes
  have below := carried_lt threaded.2
  rw [add_comm] at total
  have parts := (Nat.div_mod_unique (Nat.zero_lt_of_lt below)).mpr ⟨total, below⟩
  exact ⟨parts.1.symm, parts.2.symm⟩

/-- The top bit of a number is that of its most significant byte. -/
theorem top_append (rest : List UInt8) (last : UInt8) :
    isNegative last = true ↔
      256 ^ (rest ++ [last]).length ≤ 2 * binary (rest ++ [last]) := by
  induction rest with
  | nil => exact top_singleton last
  | cons byte rest ih => exact ih.trans (top_cons byte (by simp)).symm

/-- A number is read in two's complement by its top bit. -/
theorem signedBinary_eq_of_top {bytes : List UInt8} {top : Bool}
    (top_iff : top = true ↔ 256 ^ bytes.length ≤ 2 * binary bytes) :
    signedBinary bytes = binary bytes - (256 ^ bytes.length * top.toNat : Nat) := by
  unfold signedBinary
  cases top with
  | false =>
      have low : ¬256 ^ bytes.length ≤ 2 * binary bytes := mt top_iff.mpr (by decide)
      rw [if_pos (Nat.not_le.mp low)]
      simp
  | true =>
      rw [if_neg (Nat.not_lt.mpr (top_iff.mp rfl))]
      simp

/-- A number that the top bit enters once more is halved with its sign. -/
theorem half_of_top {modulus number : Nat} {top : Bool} (even : modulus % 2 = 0)
    (below : number < modulus) (top_iff : top = true ↔ modulus ≤ 2 * number) :
    let doubled := number + modulus * top.toNat
    (top = true ↔ modulus ≤ 2 * (doubled / 2)) ∧
      ((doubled / 2 : Nat) : Int) - (modulus * top.toNat : Nat) =
        ((number : Int) - (modulus * top.toNat : Nat)) / 2 ∧
      doubled % 2 = number % 2 := by
  cases top with
  | false =>
      simp only [Bool.false_eq_true, false_iff, Bool.toNat_false] at top_iff ⊢
      omega
  | true =>
      simp only [true_iff, Bool.toNat_true] at top_iff ⊢
      omega

section Shifts

variable {flagsOf : State → Flags}

theorem isDouble_thread
    (multiplies : Multiplies operation 2 fun state => (flagsOf state).carry.toNat)
    {state : State} (clear : (flagsOf state).carry = false) (bytes : List UInt8) :
    let threaded := thread operation state bytes
    IsDouble bytes (threaded.1, flagsOf threaded.2) := by
  intro threaded
  have positive : 0 < 256 ^ bytes.length := Nat.pow_pos (by decide)
  obtain ⟨value, carry⟩ := thread_multiplied multiplies state bytes
  rw [clear, Bool.toNat_false, Nat.add_zero] at value carry
  refine ⟨length_thread state bytes, value, ?_⟩
  rw [← Nat.div_pos_iff.trans (and_iff_right positive), ← carry]
  cases (flagsOf (thread operation state bytes).2).carry <;> simp

theorem isHalf_thread
    (divides : Divides operation 2 fun state => (flagsOf state).carry.toNat)
    {state : State} (clear : (flagsOf state).carry = false) (bytes : List UInt8) :
    let threaded := thread operation state bytes
    IsHalf bytes.reverse (threaded.1.reverse, flagsOf threaded.2) := by
  intro threaded
  obtain ⟨value, carry⟩ := thread_divided divides
    (fun state => Nat.lt_succ_of_le (Bool.toNat_le _)) state bytes
  rw [clear, Bool.toNat_false, Nat.mul_zero, Nat.add_zero] at value carry
  refine ⟨by simp [threaded], value, ?_⟩
  rw [← carry]
  exact Bool.toNat_eq_one.symm

/-- If the top bit of a number enters it once more, half of it keeps its sign. -/
theorem isSignedHalf_thread
    (divides : Divides operation 2 fun state => (flagsOf state).carry.toNat)
    {state : State} {first : UInt8} (sign : (flagsOf state).carry = isNegative first)
    (rest : List UInt8) :
    let threaded := thread operation state (first :: rest)
    IsSignedHalf (first :: rest).reverse (threaded.1.reverse, flagsOf threaded.2) := by
  intro threaded
  let bytes := (first :: rest).reverse
  have top_iff : (flagsOf state).carry = true ↔
      256 ^ bytes.length ≤ 2 * binary bytes := by
    rw [sign]
    simpa [bytes] using top_append rest.reverse first
  have even : 256 ^ bytes.length % 2 = 0 := by
    simp [bytes, pow_succ, Nat.mul_mod]
  have length : threaded.1.reverse.length = bytes.length := by
    simp [threaded, bytes]
  have lengthEq : (first :: rest).length = bytes.length := List.length_reverse.symm
  obtain ⟨value, carry⟩ := thread_divided divides
    (fun state => Nat.lt_succ_of_le (Bool.toNat_le _)) state (first :: rest)
  rw [lengthEq] at value carry
  obtain ⟨kept, half, bottom⟩ := half_of_top even (binary_lt bytes) top_iff
  have keptTop : (flagsOf state).carry = true ↔
      256 ^ threaded.1.reverse.length ≤ 2 * binary threaded.1.reverse := by
    rw [length, value]
    exact kept
  refine ⟨length, ?_, ?_⟩
  · rw [signedBinary_eq_of_top top_iff, signedBinary_eq_of_top keptTop, length, value]
    exact half
  · rw [← bottom, ← carry]
    exact Bool.toNat_eq_one.symm

end Shifts

end Threads

end Arithmetic

end Z80
