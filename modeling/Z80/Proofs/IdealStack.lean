import Mathlib.Data.List.Infix
import Mathlib.Data.List.MinMax
import Mathlib.Order.Nat
import Z80.Cpu.Step
import Z80.Proofs.MemoryBlocks

/-!
# The stack

The stack lies in memory below the address at which the stack pointer began, and both may
wrap.  As long as no word is popped that was not pushed, and no more words are on the stack
than memory can hold, it behaves like a list of words: each pop gives the word that was
pushed last and not yet popped, and the cells outside of the greatest extent of the stack
keep their bytes.
-/

namespace Z80

inductive StackOperation where
  | push (word : UInt16)
  | pop
  deriving DecidableEq, Repr

namespace StackOperation

/-- How an operation changes the depth of a stack. -/
def change : StackOperation → Int
  | .push _ => 1
  | .pop => -1

/-- The number of words pushed and not popped. -/
def depth : List StackOperation → Int
  | [] => 0
  | operation :: rest => operation.change + depth rest

/-- At no time there are more pops than pushes. -/
def Balanced (operations : List StackOperation) : Prop :=
  ∀ former, former <+: operations → 0 ≤ depth former

instance (operations : List StackOperation) : Decidable (Balanced operations) :=
  decidable_of_iff (∀ former ∈ operations.inits, 0 ≤ depth former)
    (forall_congr' fun _ => imp_congr_left (List.mem_inits ..))

/-- The greatest number of words that are on the stack at any time. -/
def greatestDepth (operations : List StackOperation) : Nat :=
  (operations.inits.map fun former => (depth former).toNat).foldr max 0

/-- The words that operations pop from a list of words, and the list that they leave. -/
def ideal (stack : List UInt16) : List StackOperation → Option (List UInt16 × List UInt16)
  | [] => some ([], stack)
  | .push word :: rest => ideal (word :: stack) rest
  | .pop :: rest =>
      match stack with
      | [] => none
      | top :: below => (ideal below rest).map fun result => (top :: result.1, result.2)

@[simp] theorem depth_nil : depth [] = 0 :=
  rfl

@[simp] theorem depth_cons (operation : StackOperation) (rest : List StackOperation) :
    depth (operation :: rest) = operation.change + depth rest :=
  rfl

theorem Balanced.of_earlier {former operations : List StackOperation}
    (balanced : Balanced operations) (earlier : former <+: operations) : Balanced former :=
  fun _ earliest => balanced _ (earliest.trans earlier)

theorem depth_le_greatestDepth {former operations : List StackOperation}
    (earlier : former <+: operations) : depth former ≤ greatestDepth operations := by
  have listed : (depth former).toNat ∈
      operations.inits.map fun former => (depth former).toNat :=
    List.mem_map_of_mem ((List.mem_inits ..).mpr earlier)
  have bounded : (depth former).toNat ≤ greatestDepth operations :=
    List.le_max_of_le listed (Nat.le_refl _)
  omega

theorem greatestDepth_le {limit : Nat} {operations : List StackOperation}
    (bounded : ∀ former, former <+: operations → depth former ≤ limit) :
    greatestDepth operations ≤ limit := by
  refine List.max_le_of_forall_le _ _ ?_
  intro value listed
  obtain ⟨former, earlier, rfl⟩ := List.mem_map.mp listed
  have bound := bounded former ((List.mem_inits ..).mp earlier)
  omega

/-- A list of words takes every operation as long as the words do not run out. -/
theorem exists_ideal_of_supplied {stack : List UInt16} {operations : List StackOperation}
    (supplied : ∀ former, former <+: operations → 0 ≤ stack.length + depth former) :
    ∃ popped left, ideal stack operations = some (popped, left) ∧
      (left.length : Int) = stack.length + depth operations := by
  induction operations generalizing stack with
  | nil => exact ⟨[], stack, rfl, by simp⟩
  | cons operation rest ih =>
      have onwards : ∀ former, former <+: rest →
          0 ≤ stack.length + (operation.change + depth former) := by
        intro former earlier
        rw [← depth_cons]
        exact supplied _ (List.cons_prefix_cons.mpr ⟨rfl, earlier⟩)
      cases operation with
      | push word =>
          obtain ⟨popped, left, result, length⟩ := @ih (word :: stack) (by
            intro former earlier
            have enough := onwards former earlier
            simp only [change, List.length_cons] at enough ⊢
            omega)
          refine ⟨popped, left, result, ?_⟩
          simp only [depth_cons, change, List.length_cons] at length ⊢
          omega
      | pop =>
          cases stack with
          | nil =>
              have empty := onwards [] <| List.nil_prefix ..
              simp [change] at empty
          | cons top below =>
              obtain ⟨popped, left, result, length⟩ := @ih below (by
                intro former earlier
                have enough := onwards former earlier
                simp only [change, List.length_cons] at enough ⊢
                omega)
              refine ⟨top :: popped, left, by simp [ideal, result], ?_⟩
              simp only [depth_cons, change, List.length_cons] at length ⊢
              omega

theorem Balanced.exists_ideal {operations : List StackOperation}
    (balanced : Balanced operations) :
    ∃ popped left, ideal [] operations = some (popped, left) ∧
      (left.length : Int) = depth operations := by
  obtain ⟨popped, left, result, length⟩ := @exists_ideal_of_supplied [] operations (by
    intro former earlier
    rw [List.length_nil, Int.natCast_zero, Int.zero_add]
    exact balanced former earlier)
  rw [List.length_nil, Int.natCast_zero, Int.zero_add] at length
  exact ⟨popped, left, result, length⟩

/-- The words below those that are popped do not matter. -/
theorem ideal_append_stack {stack popped left : List UInt16}
    {operations : List StackOperation} (result : ideal stack operations = some (popped, left))
    (below : List UInt16) :
    ideal (stack ++ below) operations = some (popped, left ++ below) := by
  induction operations generalizing stack popped with
  | nil =>
      obtain ⟨rfl, rfl⟩ := Prod.mk.inj (Option.some.inj result)
      rfl
  | cons operation rest ih =>
      cases operation with
      | push word => exact @ih (word :: stack) popped result
      | pop =>
          cases stack with
          | nil => simp [ideal] at result
          | cons top others =>
              rw [ideal, Option.map_eq_some_iff] at result
              obtain ⟨⟨later, last⟩, laterResult, equal⟩ := result
              obtain ⟨rfl, rfl⟩ := Prod.mk.inj equal
              rw [List.cons_append, ideal, ih laterResult]
              rfl

theorem ideal_append {stack popped left : List UInt16} {former : List StackOperation}
    (result : ideal stack former = some (popped, left)) (latter : List StackOperation) :
    ideal stack (former ++ latter) =
      (ideal left latter).map fun after => (popped ++ after.1, after.2) := by
  induction former generalizing stack popped with
  | nil =>
      obtain ⟨rfl, rfl⟩ := Prod.mk.inj (Option.some.inj result)
      exact (Option.map_id' ..).symm
  | cons operation rest ih =>
      cases operation with
      | push word => exact @ih (word :: stack) popped result
      | pop =>
          cases stack with
          | nil => simp [ideal] at result
          | cons top others =>
              rw [ideal, Option.map_eq_some_iff] at result
              obtain ⟨⟨later, last⟩, laterResult, equal⟩ := result
              obtain ⟨rfl, rfl⟩ := Prod.mk.inj equal
              rw [List.cons_append, ideal, ih laterResult, Option.map_map]
              rfl

/-- A word comes back by the pop that matches its push. -/
theorem ideal_matching {between : List StackOperation} (balanced : Balanced between)
    (level : depth between = 0) (word : UInt16) (stack : List UInt16) :
    ∃ popped, ideal stack (.push word :: (between ++ [.pop])) =
      some (popped ++ [word], stack) := by
  obtain ⟨popped, left, result, length⟩ := balanced.exists_ideal
  obtain rfl : left = [] := by
    rw [level] at length
    exact List.eq_nil_of_length_eq_zero (Int.ofNat_eq_zero.mp length)
  have onTop : ideal (word :: stack) between = some (popped, word :: stack) :=
    ideal_append_stack result (word :: stack)
  exact ⟨popped, by rw [ideal, ideal_append onTop]; rfl⟩

end StackOperation

namespace Machine

open StackOperation

/-- Put a word on the stack. -/
def push (machine : Machine) (word : UInt16) : Machine :=
  let effect := machine.cpu.push word
  ⟨effect.cpu, machine.memory.perform effect.writes⟩

/-- Take a word from the stack. -/
def pop (machine : Machine) : UInt16 × Machine :=
  let popped := machine.cpu.pop machine.memory
  (popped.1, { machine with cpu := popped.2 })

/-- Push and pop words, and collect those that are popped. -/
def performStack (machine : Machine) : List StackOperation → List UInt16 × Machine
  | [] => ([], machine)
  | .push word :: rest => (machine.push word).performStack rest
  | .pop :: rest =>
      let popped := machine.pop
      let others := popped.2.performStack rest
      (popped.1 :: others.1, others.2)

theorem performStack_append (machine : Machine) (former latter : List StackOperation) :
    machine.performStack (former ++ latter) =
      let done := machine.performStack former
      let after := done.2.performStack latter
      (done.1 ++ after.1, after.2) := by
  induction former generalizing machine with
  | nil => rfl
  | cons operation rest ih =>
      cases operation with
      | push word => exact ih (machine.push word)
      | pop => simp only [List.cons_append, performStack, ih machine.pop.2]

/-- A machine holds a list of words on a stack that was empty in an initial machine: the
stack pointer has moved past them, they lie above it with their low bytes first, and nothing
else has changed but cells below the initial stack pointer, two for each word of a limit. -/
structure Stacked (initial : Machine) (limit : Nat) (stack : List UInt16)
    (machine : Machine) : Prop where
  cpu_eq : machine.cpu =
    { initial.cpu with sp := initial.cpu.sp - UInt16.ofNat (2 * stack.length) }
  words_eq : machine.memory.slice machine.cpu.sp (2 * stack.length) =
    stack.flatMap fun word => [lowByte word, highByte word]
  others_eq : ∀ address,
    (∀ offset, 0 < offset → offset ≤ 2 * limit →
      initial.cpu.sp - UInt16.ofNat offset ≠ address) →
      machine.memory.read address = initial.memory.read address

theorem read_push (machine : Machine) (word address : UInt16) :
    (machine.push word).memory.read address =
      if address = machine.cpu.sp - 2 then lowByte word
      else if address = machine.cpu.sp - 1 then highByte word
      else machine.memory.read address := by
  simp only [push, Cpu.push, Memory.perform, List.foldl_cons, List.foldl_nil,
    Memory.read_write]

theorem read_push_of_ne (machine : Machine) (word : UInt16) {address : UInt16}
    (first : address ≠ machine.cpu.sp - 1) (second : address ≠ machine.cpu.sp - 2) :
    (machine.push word).memory.read address = machine.memory.read address := by
  rw [read_push, if_neg second, if_neg first]

private theorem sub_ofNat_add (base : UInt16) (first second : Nat) :
    base - UInt16.ofNat (first + second) = base - UInt16.ofNat first - UInt16.ofNat second := by
  rw [UInt16.ofNat_add]
  grind

private theorem add_ofNat_ne_sub_ofNat (base : UInt16) {above below : Nat}
    (apart : 0 < below) (within : above + below < 65536) :
    base + UInt16.ofNat above ≠ base - UInt16.ofNat below := by
  intro equal
  have values := congrArg UInt16.toNat equal
  have bound := base.toNat_lt
  simp only [UInt16.toNat_add, UInt16.toNat_sub, UInt16.toNat_ofNat'] at values
  omega

namespace Stacked

variable {initial machine : Machine} {limit : Nat} {stack : List UInt16}

protected theorem refl (initial : Machine) (limit : Nat) : Stacked initial limit [] initial where
  cpu_eq := by simp
  words_eq := rfl
  others_eq _ _ := rfl

theorem sp_eq (stacked : Stacked initial limit stack machine) :
    machine.cpu.sp = initial.cpu.sp - UInt16.ofNat (2 * stack.length) :=
  congrArg Cpu.sp stacked.cpu_eq

theorem push (stacked : Stacked initial limit stack machine) (limited : limit ≤ 32768)
    (room : stack.length < limit) (word : UInt16) :
    Stacked initial limit (word :: stack) (machine.push word) := by
  have sp := stacked.sp_eq
  refine ⟨?_, ?_, ?_⟩
  · change { machine.cpu with sp := machine.cpu.sp - 2 } = _
    rw [stacked.cpu_eq, List.length_cons, Nat.mul_succ, sub_ofNat_add]
    rfl
  · have below : (machine.push word).memory.slice (machine.cpu.sp - 2) 2 =
        [lowByte word, highByte word] := by
      have next : machine.cpu.sp - 2 + 1 = machine.cpu.sp - 1 := by grind
      have apart : machine.cpu.sp - 1 ≠ machine.cpu.sp - 2 := by grind
      simp only [Memory.slice, next, read_push, if_neg apart, if_true]
    -- The stack ends before it would come round to the two new cells.
    have above : (machine.push word).memory.slice machine.cpu.sp (2 * stack.length) =
        machine.memory.slice machine.cpu.sp (2 * stack.length) := by
      apply Memory.slice_eq_of_read_eq
      intro index indexLt
      have first : index + 1 < 65536 := by omega
      have second : index + 2 < 65536 := by omega
      exact read_push_of_ne _ _ (add_ofNat_ne_sub_ofNat _ (Nat.succ_pos 0) first)
        (add_ofNat_ne_sub_ofNat _ (Nat.succ_pos 1) second)
    have back : machine.cpu.sp - 2 + UInt16.ofNat 2 = machine.cpu.sp :=
      UInt16.sub_add_cancel ..
    change (machine.push word).memory.slice (machine.cpu.sp - 2) _ = _
    rw [List.length_cons, Nat.mul_succ, Nat.add_comm, Memory.slice_append, below, back,
      above, stacked.words_eq, List.flatMap_cons]
  · intro address outside
    have first := outside (2 * stack.length + 1) (by omega) (by omega)
    have second := outside (2 * stack.length + 2) (by omega) (by omega)
    rw [sub_ofNat_add, ← sp] at first second
    rw [read_push_of_ne _ _ first.symm second.symm]
    exact stacked.others_eq address outside

theorem pop {top : UInt16} (stacked : Stacked initial limit (top :: stack) machine) :
    machine.pop.1 = top ∧ Stacked initial limit stack machine.pop.2 := by
  have words := stacked.words_eq
  have two : machine.cpu.sp + 1 + 1 = machine.cpu.sp + 2 := UInt16.add_assoc ..
  rw [List.length_cons, Nat.mul_succ, Memory.slice, Memory.slice, two,
    List.flatMap_cons, List.cons_append, List.cons_append, List.nil_append] at words
  obtain ⟨low, highAndOthers⟩ := List.cons.inj words
  obtain ⟨high, others⟩ := List.cons.inj highAndOthers
  refine ⟨?_, ?_, others, stacked.others_eq⟩
  · change wordOfBytes (machine.memory.read (machine.cpu.sp + 1))
      (machine.memory.read machine.cpu.sp) = top
    rw [low, high, wordOfBytes_highByte_lowByte]
  · change { machine.cpu with sp := machine.cpu.sp + 2 } = _
    rw [stacked.cpu_eq, List.length_cons, Nat.mul_succ, sub_ofNat_add]
    exact congrArg (fun sp => { initial.cpu with sp := sp }) (UInt16.sub_add_cancel ..)

/-- Operations that an ideal stack can perform lead from one stacked machine to another, and
pop the same words. -/
theorem performStack {operations : List StackOperation} {popped left : List UInt16}
    (stacked : Stacked initial limit stack machine) (limited : limit ≤ 32768)
    (room : ∀ former, former <+: operations → stack.length + depth former ≤ limit)
    (result : ideal stack operations = some (popped, left)) :
    (machine.performStack operations).1 = popped ∧
      Stacked initial limit left (machine.performStack operations).2 := by
  induction operations generalizing machine stack popped with
  | nil =>
      obtain ⟨rfl, rfl⟩ := Prod.mk.inj (Option.some.inj result)
      exact ⟨rfl, stacked⟩
  | cons operation rest ih =>
      have onwards : ∀ former, former <+: rest →
          stack.length + (operation.change + depth former) ≤ limit := by
        intro former earlier
        rw [← depth_cons]
        exact room _ (List.cons_prefix_cons.mpr ⟨rfl, earlier⟩)
      cases operation with
      | push word =>
          have here := onwards [] <| List.nil_prefix ..
          simp only [change, depth_nil] at here
          refine ih (stacked.push limited (by omega) word) ?_ result
          intro former earlier
          have enough := onwards former earlier
          simp only [change, List.length_cons] at enough ⊢
          omega
      | pop =>
          cases stack with
          | nil => simp [ideal] at result
          | cons top below =>
              rw [ideal, Option.map_eq_some_iff] at result
              obtain ⟨⟨later, last⟩, laterResult, equal⟩ := result
              obtain ⟨rfl, rfl⟩ := Prod.mk.inj equal
              obtain ⟨first, remains⟩ := stacked.pop
              obtain ⟨others, done⟩ := ih remains (by
                intro former earlier
                have enough := onwards former earlier
                simp only [change, List.length_cons] at enough ⊢
                omega) laterResult
              exact ⟨congrArg₂ List.cons first others, done⟩

end Stacked

/-- As long as pops do not exceed pushes and the depth does not exceed 32768, the stack of a
machine is an ideal one, wherever it begins.  At every time the words popped so far are those
of the ideal stack, which returns each word to the pop that matches its push; the stack
pointer is two below its beginning for each word on the stack, these words lie there with
their low bytes first, and pushes change only the cells that the greatest depth so far
takes.  A pop changes no cell. -/
theorem stack_is_ideal (initial : Machine) {operations : List StackOperation}
    (balanced : Balanced operations) (limited : greatestDepth operations ≤ 32768) :
    (∀ former, former <+: operations →
      ∃ popped stack, ideal [] former = some (popped, stack) ∧
        stack.length = depth former ∧
        (initial.performStack former).1 = popped ∧
        Stacked initial (greatestDepth former) stack (initial.performStack former).2) ∧
    (∀ former word between,
      former ++ .push word :: (between ++ [.pop]) <+: operations →
      Balanced between → depth between = 0 →
      ((initial.performStack (former ++ .push word :: (between ++ [.pop]))).1).getLast? =
        some word) ∧
    (∀ former, former ++ [.pop] <+: operations →
      (initial.performStack (former ++ [.pop])).2.memory =
        (initial.performStack former).2.memory) := by
  have atAll : ∀ former, former <+: operations →
      ∃ popped stack, ideal [] former = some (popped, stack) ∧
        stack.length = depth former ∧
        (initial.performStack former).1 = popped ∧
        Stacked initial (greatestDepth former) stack (initial.performStack former).2 := by
    intro former earlier
    obtain ⟨popped, stack, result, length⟩ := (balanced.of_earlier earlier).exists_ideal
    have within : greatestDepth former ≤ 32768 := by
      apply greatestDepth_le
      intro earliest before
      have bound := depth_le_greatestDepth (before.trans earlier)
      omega
    obtain ⟨same, stacked⟩ := (Stacked.refl initial _).performStack within (by
      intro earliest before
      have bound := depth_le_greatestDepth before
      rw [List.length_nil, Int.natCast_zero, Int.zero_add]
      exact bound) result
    exact ⟨popped, stack, result, length, same, stacked⟩
  refine ⟨atAll, ?_, ?_⟩
  · intro former word between earlier inner level
    obtain ⟨before, stack, formerResult, -⟩ :=
      (balanced.of_earlier ((List.prefix_append ..).trans earlier)).exists_ideal
    obtain ⟨within, matching⟩ := ideal_matching inner level word stack
    obtain ⟨popped, left, result, -, same, -⟩ := atAll _ earlier
    rw [ideal_append formerResult, matching] at result
    obtain ⟨rfl, -⟩ := Prod.mk.inj (Option.some.inj result)
    rw [same, ← List.append_assoc, List.getLast?_concat]
  · intro former _
    rw [performStack_append]
    rfl

/-- A stack that begins at address one and wraps within its first word. -/
theorem stack_is_ideal_wrapped :
    let initial : Machine := { cpu := { sp := 1 } }
    let operations := [.push 0x1234, .push 0xABCD, .pop, .pop]
    Balanced operations ∧ greatestDepth operations = 2 ∧
      (initial.performStack operations).1 = [0xABCD, 0x1234] ∧
      Stacked initial 2 [0x1234] (initial.performStack (operations.take 3)).2 := by
  intro initial operations
  have balanced : Balanced operations := by decide
  have greatest : greatestDepth operations = 2 := by decide
  obtain ⟨atAll, -, -⟩ := stack_is_ideal initial balanced (by rw [greatest]; decide)
  obtain ⟨popped, stack, result, -, same, -⟩ := atAll operations (List.prefix_refl _)
  obtain ⟨rfl, rfl⟩ : _ ∧ _ := by simpa [operations, ideal] using result
  obtain ⟨_, others, othersResult, -, -, stacked⟩ :=
    atAll (operations.take 3) <| List.take_prefix ..
  obtain ⟨rfl, rfl⟩ : _ ∧ _ := by simpa [operations, ideal] using othersResult
  exact ⟨balanced, greatest, same, stacked⟩

end Machine

end Z80
