import Mathlib.Data.List.DropRight
import Z80.Proofs.Runs
import Z80.Proofs.StepAgreement

/-!
# What is recorded of an execution

The debugger counts the instructions that run and remembers the latest of them
and the latest faults.  This file keeps a full account beside it: which
instructions ran since the last reset, each with its address and the bytes that
lay there.  Whatever a debugger is asked to do, its records are those of the
account, cut to the latest ones.
-/

namespace Z80

namespace Page

/-- The page that the bytes at an address select. -/
def ofMemory (memory : Memory) (address : UInt16) : Page :=
  let first := memory.read address
  if first = 0xCB then .bits
  else if first = 0xED then .extended
  else
    match IndexRegister.ofLeadByte? first with
    | some register =>
        if memory.read (address + 1) = 0xCB then .indexedBits register
        else .indexed register
    | none => .base

/-- The number of bytes up to an opcode of a page, the opcode included. -/
def opcodeEnd (page : Page) : Nat :=
  page.leadBytes.length + (if page.displacementFirst then 2 else 1)

theorem opcodeEnd_le_four (page : Page) : page.opcodeEnd ≤ 4 := by
  cases page <;> simp [opcodeEnd, leadBytes, displacementFirst]

end Page

namespace Instruction

theorem fetch_of_get?_none {fetch : Fetch (Option Instruction)} {page : Page} {opcode : UInt8}
    (reads : Reads fetch (Table.form? page opcode)) (missing : Table.get? page opcode = none)
    (memory : Memory) (address : UInt16) : fetch memory address = (none, address) := by
  have unlisted : Table.form? page opcode = none := Option.map_eq_none_iff.mp missing
  rw [unlisted] at reads
  exact reads memory address

theorem fetchIndexedBit_of_get?_none {register : IndexRegister} {memory : Memory}
    {address : UInt16}
    (missing : Table.get? (.indexedBits register) (memory.read (address + 1)) = none) :
    fetchIndexedBit register memory address = (none, address + 2) := by
  have undefined : Fields.last (memory.read (address + 1)) ≠ 6 := by
    intro defined
    simp [Table.get?, Table.form?, defined] at missing
  have taken : fetchIndexedBit register memory address =
      (if Fields.last (memory.read (address + 1)) = 6 then
        plain (ofBitOpcode (memory.read (address + 1))
          (.cell (.indexed register (memory.read address))))
      else unknown) memory (address + 1 + 1) := rfl
  rw [taken, if_neg undefined, UInt16.add_assoc]
  rfl

/-- Where the table finds nothing, fetching ends behind the opcode. -/
theorem fetch_of_lookup?_none {memory : Memory} {address : UInt16}
    (missing : Table.lookup? memory address = none) :
    fetch memory address =
      (none, address + UInt16.ofNat (Page.ofMemory memory address).opcodeEnd) := by
  have second : address + 1 + 1 = address + 2 := UInt16.add_assoc address 1 1
  rw [fetch_eq_fetchAfter]
  unfold Table.lookup? at missing
  unfold fetchAfter Page.ofMemory
  dsimp only at missing ⊢
  split at missing
  · rename_i bits
    rw [if_pos bits, if_pos bits]
    exact (fetch_of_get?_none (bitOpcode_reads _) missing memory (address + 1 + 1)).trans
      (congrArg _ second)
  · rename_i notBits
    rw [if_neg notBits, if_neg notBits]
    split at missing
    · rename_i extended
      rw [if_pos extended, if_pos extended]
      exact (fetch_of_get?_none (fetchExtended_reads _) missing memory (address + 1 + 1)).trans
        (congrArg _ second)
    · rename_i notExtended
      rw [if_neg notExtended, if_neg notExtended]
      split at missing
      · rename_i register first
        rw [first]
        dsimp only
        change (if memory.read (address + 1) = 0xCB then fetchIndexedBit register
          else fetchIndexed register (memory.read (address + 1))) memory (address + 1 + 1) = _
        rw [second]
        split at missing
        · rename_i bits
          have displaced : address + 3 = address + 2 + 1 := (UInt16.add_assoc address 2 1).symm
          rw [displaced] at missing
          rw [if_pos bits, if_pos bits]
          exact (fetchIndexedBit_of_get?_none missing).trans
            (congrArg _ (UInt16.add_assoc address 2 2))
        · rename_i notBits
          rw [if_neg notBits, if_neg notBits]
          exact fetch_of_get?_none (fetchIndexed_reads register _) missing memory (address + 2)
      · rename_i first
        rw [first]
        exact fetch_of_get?_none (fetchBase_reads _) missing memory (address + 1)

end Instruction

/-- Where the table finds nothing, a step faults on the bytes up to the opcode. -/
theorem Cpu.step_of_missing {cpu : Cpu} {memory : Memory} (running : cpu.halted = false)
    (missing : Table.lookup? memory cpu.pc = none) :
    cpu.step memory =
      { cpu := cpu.goto (cpu.pc + 1)
        outcome := .faulted
          ⟨cpu.pc, memory.slice cpu.pc (Page.ofMemory memory cpu.pc).opcodeEnd⟩ } := by
  have few := (Page.ofMemory memory cpu.pc).opcodeEnd_le_four
  unfold step
  rw [if_neg (by simp [running]), Instruction.fetch_of_lookup?_none missing]
  simp only [toNat_add_sub_cancel _ (Nat.lt_of_le_of_lt few (by decide))]

section LatestItems

variable {α : Type}

theorem rtake_rtake_append (older newer : List α) (count : Nat) :
    (older.rtake count ++ newer).rtake count = (older ++ newer).rtake count := by
  simp only [List.rtake_eq_reverse_take_reverse, List.reverse_append, List.reverse_reverse]
  rw [List.take_append, List.take_append, List.take_take,
    Nat.min_eq_left (Nat.sub_le count newer.reverse.length)]

theorem getLast?_rtake (items : List α) {count : Nat} (positive : 0 < count) :
    (items.rtake count).getLast? = items.getLast? := by
  rw [List.rtake_eq_reverse_take_reverse, List.getLast?_reverse, List.head?_take,
    if_neg (Nat.ne_of_gt positive), List.head?_reverse]

theorem rtake_of_length_le {items : List α} {count : Nat} (few : items.length ≤ count) :
    items.rtake count = items := by
  rw [List.rtake, Nat.sub_eq_zero_of_le few, List.drop_zero]

end LatestItems

namespace Recent

variable {α : Type} {capacity : Nat}

theorem rtake_toList_append_nil (recent : Recent α capacity) :
    (recent.toList ++ []).rtake capacity = recent.toList := by
  rw [List.append_nil]
  apply rtake_of_length_le
  rw [length_toList]
  exact recent.count_le

/-- Recording an item puts it behind the others and cuts them to the latest ones. -/
theorem toList_push_eq_rtake (recent : Recent α capacity) (item : α) :
    (recent.push item).toList = (recent.toList ++ [item]).rtake capacity := by
  have counted := recent.length_toList
  rw [toList_push, List.rtake, List.length_append, List.length_singleton, counted]
  split
  · have one : recent.count + 1 - capacity = 1 := by omega
    have nonempty : recent.toList ≠ [] := by
      rw [← List.length_pos_iff, counted]
      have positive := recent.capacity_pos
      omega
    rw [one, List.drop_one, List.tail_append_of_ne_nil nonempty]
  · have none : recent.count + 1 - capacity = 0 := by
      have bounded := recent.count_le
      omega
    rw [none, List.drop_zero]

end Recent

/-- An instruction that ran: its address, the bytes that lay there, and whether they
stood for no instruction. -/
structure Ran extends Executed where
  faulted : Bool
  deriving DecidableEq, Repr

/-- The fault that running it was, if it was one. -/
def Ran.fault? (ran : Ran) : Option Fault :=
  if ran.faulted then some ⟨ran.address, ran.bytes⟩ else none

namespace Debugger

/-- The instruction at the program counter, with the bytes that memory holds there. -/
def upcoming (debugger : Debugger) : Ran :=
  let address := debugger.pc
  match Table.lookup? debugger.memory address with
  | some entry => ⟨⟨address, debugger.memory.slice address entry.length⟩, false⟩
  | none =>
      let count := (Page.ofMemory debugger.memory address).opcodeEnd
      ⟨⟨address, debugger.memory.slice address count⟩, true⟩

/-- The instructions that one step runs. -/
def stepRuns (debugger : Debugger) : List Ran :=
  if debugger.cpu.halted then [] else [debugger.upcoming]

/-- The instructions that a number of steps runs. -/
def stepsRun (debugger : Debugger) (count : Nat) : List Ran :=
  (List.range count).flatMap fun made => (step^[made] debugger).stepRuns

/-- The records after some instructions ran are those from before with the
instructions added, cut to the latest ones. -/
structure Recorded (before after : Debugger) (ran : List Ran) : Prop where
  executed : after.executed = before.executed + ran.length
  history : after.history.toList =
    (before.history.toList ++ ran.map Ran.toExecuted).rtake recordCapacity
  faults : after.faults.toList =
    (before.faults.toList ++ ran.filterMap Ran.fault?).rtake recordCapacity

namespace Recorded

variable {before between after : Debugger} {former latter : List Ran}

theorem refl (debugger : Debugger) : Recorded debugger debugger [] where
  executed := rfl
  history := (Recent.rtake_toList_append_nil _).symm
  faults := (Recent.rtake_toList_append_nil _).symm

theorem trans (first : Recorded before between former) (second : Recorded between after latter) :
    Recorded before after (former ++ latter) where
  executed := by
    rw [second.executed, first.executed, List.length_append, Nat.add_assoc]
  history := by
    rw [second.history, first.history, rtake_rtake_append, List.map_append, List.append_assoc]
  faults := by
    rw [second.faults, first.faults, rtake_rtake_append, List.filterMap_append,
      List.append_assoc]

end Recorded

theorem step_of_halted {debugger : Debugger} (halted : debugger.cpu.halted = true) :
    debugger.step = debugger := by
  rw [step_eq_conclude]
  unfold Machine.step Cpu.step
  simp only [halted, if_true]
  rfl

theorem recorded_step (debugger : Debugger) :
    Recorded debugger debugger.step debugger.stepRuns := by
  unfold stepRuns
  by_cases halted : debugger.cpu.halted = true
  · rw [if_pos halted, step_of_halted halted]
    exact Recorded.refl debugger
  · rw [if_neg halted, step_eq_conclude]
    have running : debugger.cpu.halted = false := by simpa using halted
    unfold upcoming
    dsimp only
    cases found : Table.lookup? debugger.memory debugger.pc with
    | some entry =>
        obtain ⟨instruction, -, stepped⟩ := Cpu.step_of_lookup?_some running found
        rw [stepped, Listing.instructionBytes_of_lookup? found]
        exact ⟨rfl, Recent.toList_push_eq_rtake _ _, (Recent.rtake_toList_append_nil _).symm⟩
    | none =>
        rw [Cpu.step_of_missing running found]
        exact ⟨rfl, Recent.toList_push_eq_rtake _ _, Recent.toList_push_eq_rtake _ _⟩

theorem recorded_iterate (debugger : Debugger) (count : Nat) :
    Recorded debugger (step^[count] debugger) (debugger.stepsRun count) := by
  induction count with
  | zero => exact Recorded.refl debugger
  | succ count ih =>
      have further := ih.trans (recorded_step (step^[count] debugger))
      rw [← Function.iterate_succ_apply' step] at further
      simpa [stepsRun, List.range_succ] using further

theorem recorded_runFor (debugger : Debugger) (limit : Nat) :
    Recorded debugger (debugger.runFor limit).2
      (debugger.stepsRun (debugger.runFor limit).1.instructions) := by
  have recorded := debugger.recorded_iterate (debugger.runFor limit).1.instructions
  rwa [← iterate_of_runFor] at recorded

end Debugger

/-- The instructions that a command runs. -/
def Command.runs (command : Command) (debugger : Debugger) : List Ran :=
  match command with
  | .step => debugger.stepRuns
  | .runFor limit => debugger.stepsRun (debugger.runFor limit).1.instructions
  | .run => debugger.stepsRun debugger.run.1.instructions
  | _ => []

theorem Command.recorded {command : Command} {debugger : Debugger}
    (ends : command.Ends debugger) (keeps : command ≠ .reset) :
    Debugger.Recorded debugger (command.perform debugger).2 (command.runs debugger) := by
  cases command with
  | reset => exact absurd rfl keeps
  | step => exact debugger.recorded_step
  | runFor limit => exact debugger.recorded_runFor limit
  | run =>
      obtain ⟨limit, stops⟩ := ends rfl
      change Debugger.Recorded debugger debugger.run.2
        (debugger.stepsRun debugger.run.1.instructions)
      rw [Debugger.run_of_stops stops]
      exact debugger.recorded_runFor limit
  | _ =>
      -- what remains leaves the records as they are
      exact ⟨rfl, (Recent.rtake_toList_append_nil _).symm,
        (Recent.rtake_toList_append_nil _).symm⟩

namespace Debugger

/-- The instructions that ran since the last reset, where some are known to have run
and commands are performed then. -/
def account : List Command → Debugger → List Ran → List Ran
  | [], _, known => known
  | command :: rest, debugger, known =>
      account rest (command.perform debugger).2
        (if command = .reset then [] else known ++ command.runs debugger)

/-- The records of a debugger that began empty are those of the account. -/
theorem recorded_performAll {commands : List Command} {known : List Ran} {debugger : Debugger}
    (recorded : Recorded {} debugger known) (ends : Command.AllEnd commands debugger) :
    Recorded {} (performAll commands debugger).2 (account commands debugger known) := by
  induction commands generalizing known debugger with
  | nil => exact recorded
  | cons command rest ih =>
      obtain ⟨here, later⟩ := ends
      refine ih ?_ later
      by_cases resets : command = .reset
      · -- a reset leaves the records of a new debugger
        rw [if_pos resets, resets]
        exact ⟨rfl, rfl, rfl⟩
      · rw [if_neg resets]
        exact recorded.trans (command.recorded here resets)

theorem Recorded.newest? {before after : Debugger} {ran : List Ran}
    (recorded : Recorded before after ran) :
    after.faults.newest? = (before.faults.toList ++ ran.filterMap Ran.fault?).getLast? := by
  rw [Recent.newest?_eq_getLast?, recorded.faults, getLast?_rtake _ (by decide)]

/-- From a new debugger on, whatever is asked of it, the instructions are counted that
ran since the last reset, the latest of them and the latest faults among them are
remembered in order, and a command by which nothing runs changes no record. -/
theorem records_follow_account (commands : List Command) (ends : Command.AllEnd commands {}) :
    let debugger := (performAll commands {}).2
    let known := account commands {} []
    debugger.executed = known.length ∧
    debugger.history.toList = (known.map Ran.toExecuted).rtake 256 ∧
    debugger.faults.toList = (known.filterMap Ran.fault?).rtake 256 ∧
    debugger.faults.newest? = (known.filterMap Ran.fault?).getLast? ∧
    (∀ command : Command, command ≠ .reset → command.Ends debugger →
      command.runs debugger = [] →
        let next := (command.perform debugger).2
        next.executed = debugger.executed ∧
          next.history.toList = debugger.history.toList ∧
          next.faults.toList = debugger.faults.toList ∧
          next.faults.newest? = debugger.faults.newest?) := by
  intro debugger known
  have recorded : Recorded {} debugger known :=
    recorded_performAll (Recorded.refl {}) ends
  refine ⟨recorded.executed.trans (Nat.zero_add _), recorded.history, recorded.faults,
    recorded.newest?, ?_⟩
  intro command keeps commandEnds idle
  have unchanged := command.recorded commandEnds keeps
  rw [idle] at unchanged
  refine ⟨unchanged.executed, ?_, ?_, ?_⟩
  · exact unchanged.history.trans (Recent.rtake_toList_append_nil _)
  · exact unchanged.faults.trans (Recent.rtake_toList_append_nil _)
  · rw [unchanged.newest?, Recent.newest?_eq_getLast?]
    exact congrArg List.getLast? (List.append_nil _)

/-- A fault at the first address, and a run that goes on behind it to a breakpoint. -/
theorem records_follow_account_fault :
    let commands : List Command := [.load 0 [0xDD, 0x00, 0x3E], .setBreakpoint 2, .step, .run]
    let debugger := (performAll commands {}).2
    Command.AllEnd commands {} ∧
      debugger.history.toList = [⟨0, [0xDD, 0x00]⟩, ⟨1, [0x00]⟩] ∧
      debugger.faults.newest? = some ⟨0, [0xDD, 0x00]⟩ := by
  intro commands debugger
  let faulted := (performAll (commands.take 3) {}).2
  have stops : faulted.Stops 1 := by decide
  have ends : Command.AllEnd commands {} := ⟨nofun, nofun, nofun, fun _ => ⟨1, stops⟩, trivial⟩
  have known : account commands {} [] = [⟨⟨0, [0xDD, 0x00]⟩, true⟩, ⟨⟨1, [0x00]⟩, false⟩] := by
    change account (commands.take 3) {} [] ++ faulted.stepsRun faulted.run.1.instructions = _
    rw [run_of_stops stops]
    decide
  obtain ⟨-, history, -, newest, -⟩ := records_follow_account commands ends
  rw [known] at history newest
  exact ⟨ends, history, newest⟩

end Debugger

end Z80
