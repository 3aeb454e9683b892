import Mathlib.Data.List.Infix
import Z80.CommandLine.Response
import Z80.Proofs.ExecutionRecord
import Z80.Proofs.SingleSteps
import Z80.Proofs.StatementLength
import Z80.Proofs.Templates
import Z80.Proofs.WrittenLines

/-!
# What is printed about faults

After an execution one line tells of the faults on the way, if there were any.  It
names the last of them.  Their number is taken from the record, which forgets the
oldest faults, so that it is the number of faults only up to the capacity of the
record.
-/

namespace Z80

namespace Text

theorem mem_of_mem_splitAt {separator character : Char} {text line : Text}
    (isLine : line ∈ splitAt separator text) (member : character ∈ line) :
    character ∈ text := by
  induction text generalizing line with
  | nil =>
      obtain rfl := List.mem_singleton.mp isLine
      exact absurd member List.not_mem_nil
  | cons first rest ih =>
      rw [splitAt] at isLine
      split at isLine
      · rcases List.mem_cons.mp isLine with rfl | isLater
        · exact absurd member List.not_mem_nil
        · exact List.mem_cons_of_mem _ (ih isLater member)
      · split at isLine
        · obtain rfl := List.mem_singleton.mp isLine
          obtain rfl := List.mem_singleton.mp member
          exact List.mem_cons_self
        · rename_i line' others divided
          rw [divided] at ih
          rcases List.mem_cons.mp isLine with rfl | isLater
          · rcases List.mem_cons.mp member with rfl | inLine
            · exact List.mem_cons_self
            · exact List.mem_cons_of_mem _ (ih List.mem_cons_self inLine)
          · exact List.mem_cons_of_mem _ (ih (List.mem_cons_of_mem _ isLater) member)

end Text

/-! ## Characters of a report -/

namespace Hex

theorem not_mem_wordDigits (word : UInt16) {mark : Char}
    (other : Text.isCapital mark = false) : mark ∉ wordDigits word :=
  Text.not_mem_of_capital (isCapital_of_mem_numeral (wordValues_lt word)) other

end Hex

theorem Text.not_mem_toDigits (number : Nat) {mark : Char} (other : isCapital mark = false) :
    mark ∉ Nat.toDigits 10 number := by
  refine not_mem_of_capital ?_ other
  intro character member
  rw [isCapital, Nat.isDigit_of_mem_toDigits (by decide) (by decide) member, Bool.true_or]

/-- No listing has a small `c`, as a line about faults does. -/
theorem isCapital_c : Text.isCapital 'c' = false := rfl

namespace Operand

theorem not_mem_byteText (value : UInt8) : 'c' ∉ byteText value := by
  simp [byteText, Hex.not_mem_byteDigits value isCapital_c]

theorem not_mem_wordText (low high : UInt8) : 'c' ∉ wordText low high := by
  simp [wordText, Hex.not_mem_wordDigits _ isCapital_c]

theorem not_mem_text (next : UInt16) (operand : Operand) (payload : List UInt8) :
    'c' ∉ operand.text next payload := by
  unfold text
  split
  · exact not_mem_byteText _
  · exact not_mem_wordText _ _
  · simp [not_mem_wordText]
  · simp [Hex.not_mem_wordDigits _ isCapital_c]
  · rename_i register displacement _
    have shown : 'c' ∉ displacementText displacement := by
      unfold displacementText
      split <;> simp [not_mem_byteText]
    cases register <;> simp [IndexRegister.name, shown]
  · exact operand.not_mem_template rfl

theorem not_mem_texts (next : UInt16) (operands : List Operand) (payload : List UInt8) :
    ∀ text ∈ texts next operands payload, 'c' ∉ text := by
  induction operands generalizing payload with
  | nil => simp [texts]
  | cons operand rest ih =>
      rw [texts, List.forall_mem_cons]
      exact ⟨not_mem_text next operand payload, ih _⟩

end Operand

theorem Entry.not_mem_statement (mnemonic : Mnemonic) {operands : List Text}
    (free : ∀ text ∈ operands, 'c' ∉ text) : 'c' ∉ statement mnemonic operands := by
  have name : 'c' ∉ mnemonic.text := by cases mnemonic <;> decide
  unfold statement
  split
  · exact name
  · rw [List.mem_append, List.mem_cons, not_or, not_or]
    refine ⟨name, by decide, ?_⟩
    intro member
    rcases Text.mem_join member with inSeparator | ⟨text, textMember, inText⟩
    · exact absurd inSeparator (by decide)
    · exact free text textMember inText

namespace Row

theorem not_mem_line {row : Row} (free : 'c' ∉ row.text) : 'c' ∉ row.line.toList := by
  have bytes : 'c' ∉ Text.join [' '] (row.bytes.map Hex.byteDigits) := by
    intro member
    rcases Text.mem_join member with inSeparator | ⟨text, textMember, inText⟩
    · exact absurd inSeparator (by decide)
    · obtain ⟨byte, -, rfl⟩ := List.mem_map.mp textMember
      exact Hex.not_mem_byteDigits byte isCapital_c inText
  simp [line, String.toList_ofList, free, bytes, Hex.not_mem_wordDigits _ isCapital_c]

end Row

theorem Listing.not_mem_line (memory : Memory) (address : UInt16) :
    'c' ∉ (row memory address).line.toList := by
  apply Row.not_mem_line
  unfold row
  split
  · exact Entry.not_mem_statement _ (Operand.not_mem_texts _ _ _)
  · simp [Row.ofData, Operand.not_mem_byteText]

theorem Flags.not_mem_names (flags : Flags) :
    'c' ∉ (if flags.names = [] then "-" else String.intercalate " " flags.names).toList := by
  rcases flags with ⟨sign, zero, halfCarry, overflow, subtract, carry⟩
  revert sign zero halfCarry overflow subtract carry
  decide

theorem Cpu.not_mem_report (cpu : Cpu) : 'c' ∉ cpu.report.toList := by
  have word (value : UInt16) : 'c' ∉ (Hex.word value).toList := by
    simp [Hex.word, Hex.not_mem_wordDigits _ isCapital_c]
  have byte (value : UInt8) : 'c' ∉ (Hex.byte value).toList := by
    simp [Hex.byte, Hex.not_mem_byteDigits _ isCapital_c]
  have mode : 'c' ∉ Nat.toDigits 10 cpu.interruptMode.number := by
    cases cpu.interruptMode <;> decide
  have enabled : 'c' ∉ (if cpu.interruptsEnabled then "1" else "0").toList := by
    split <;> decide
  have halted : 'c' ∉ (if cpu.halted then "true" else "false").toList := by
    split <;> decide
  simp [report, word, byte, mode, enabled, halted, cpu.main.flags.not_mem_names]

theorem RunSummary.not_mem_describe (summary : RunSummary) {mark : Char}
    (isMark : mark = 'f' ∨ mark = '\n') : mark ∉ summary.describe.toList := by
  have other : Text.isCapital mark = false := by
    rcases isMark with rfl | rfl <;> rfl
  have word (value : UInt16) : mark ∉ (Hex.word value).toList := by
    simp [Hex.word, Hex.not_mem_wordDigits _ other]
  have count := Text.not_mem_toDigits summary.instructions other
  unfold describe
  rcases isMark with rfl | rfl <;> cases summary.reason <;> simp [word, count]

theorem Fault.newline_not_mem_message (fault : Fault) : '\n' ∉ fault.message.toList := by
  have other : Text.isCapital '\n' = false := rfl
  simp [message, Hex.word, Hex.spacedBytes, Hex.not_mem_wordDigits _ other,
    Hex.not_mem_byteDigits _ other]

/-! ## The lines of a report -/

/-- Whether a printed line tells of decode faults. -/
def tellsOfFaults (line : Text) : Bool :=
  decide ("decode fault(s)".toList <:+: line)

/-- The line that tells of a number of decode faults and of the last one. -/
def faultLine (count : Nat) (last : Fault) : Text :=
  (toString count ++ " decode fault(s), last: " ++ last.message).toList

theorem tellsOfFaults_faultLine (count : Nat) (last : Fault) :
    tellsOfFaults (faultLine count last) = true := by
  apply decide_eq_true
  refine ⟨(toString count).toList ++ [' '], ", last: ".toList ++ last.message.toList, ?_⟩
  simp [faultLine]

theorem tellsOfFaults_eq_false {line : Text} {mark : Char} (isMark : mark = 'c' ∨ mark = 'f')
    (absent : mark ∉ line) : tellsOfFaults line = false := by
  have needed : mark ∈ "decode fault(s)".toList := by
    rcases isMark with rfl | rfl <;> decide
  exact decide_eq_false fun tells => absent (tells.subset needed)

theorem newline_not_mem_faultLine (count : Nat) (last : Fault) :
    '\n' ∉ faultLine count last := by
  have digits : '\n' ∉ Nat.toDigits 10 count := Text.not_mem_toDigits count rfl
  simp [faultLine, digits, last.newline_not_mem_message]

namespace Debugger

/-- What a report says behind the line about faults. -/
def aftermath (debugger : Debugger) : Text :=
  (debugger.cpu.report ++ "\nnext: " ++ (debugger.row debugger.pc).line ++ "\n").toList

theorem toList_report (summary : RunSummary) (debugger : Debugger) :
    (report summary debugger).toList =
      summary.describe.toList ++ '\n' ::
        (debugger.faultReport.toList ++ debugger.aftermath) := by
  simp [report, aftermath]

theorem filter_aftermath (debugger : Debugger) :
    (Text.splitAt '\n' debugger.aftermath).filter tellsOfFaults = [] := by
  have absent : 'c' ∉ debugger.aftermath := by
    have row : 'c' ∉ (debugger.row debugger.pc).line.toList := Listing.not_mem_line _ _
    simp [aftermath, debugger.cpu.not_mem_report, row]
  rw [List.filter_eq_nil_iff]
  intro line isLine
  rw [Bool.not_eq_true]
  exact tellsOfFaults_eq_false (Or.inl rfl) fun member =>
    absent (Text.mem_of_mem_splitAt isLine member)

/-- One line of a report tells of faults if any is remembered, and none otherwise. -/
theorem filter_report (summary : RunSummary) (debugger : Debugger) :
    (Text.splitAt '\n' (report summary debugger).toList).filter tellsOfFaults =
      debugger.faults.newest?.toList.map (faultLine debugger.faults.count) := by
  have first : tellsOfFaults summary.describe.toList = false :=
    tellsOfFaults_eq_false (Or.inr rfl) (summary.not_mem_describe (Or.inl rfl))
  rw [toList_report, Text.splitAt_append (summary.not_mem_describe (Or.inr rfl)),
    List.filter_cons_of_neg (by simp [first])]
  unfold faultReport
  cases debugger.faults.newest? with
  | none =>
      dsimp only
      rw [String.toList_empty, List.nil_append, filter_aftermath, Option.toList_none,
        List.map_nil]
  | some last =>
      have line : (toString debugger.faults.count ++ " decode fault(s), last: " ++
          last.message ++ "\n").toList = faultLine debugger.faults.count last ++ ['\n'] := by
        simp [faultLine]
      dsimp only
      rw [line, List.append_assoc, List.singleton_append,
        Text.splitAt_append (newline_not_mem_faultLine _ _),
        List.filter_cons_of_pos (tellsOfFaults_faultLine _ _), filter_aftermath,
        Option.toList_some, List.map_singleton]

/-! ## The faults of an execution -/

/-- The fault that the next step is, if it is one. -/
def stepFault? (debugger : Debugger) : Option Fault :=
  match (debugger.cpu.step debugger.memory).outcome with
  | .faulted fault => some fault
  | _ => none

/-- The faults among a number of steps, in the order in which they happen. -/
def faultsWithin (debugger : Debugger) (count : Nat) : List Fault :=
  (List.range count).filterMap fun made => (step^[made] debugger).stepFault?

theorem fault?_stepRuns (debugger : Debugger) :
    debugger.stepRuns.filterMap Ran.fault? = debugger.stepFault?.toList := by
  unfold stepRuns stepFault?
  by_cases halted : debugger.cpu.halted = true
  · simp [halted, Cpu.step]
  · have running : debugger.cpu.halted = false := by simpa using halted
    rw [if_neg halted]
    unfold upcoming
    dsimp only
    cases found : Table.lookup? debugger.memory debugger.pc with
    | some entry =>
        obtain ⟨instruction, -, stepped⟩ := Cpu.step_of_lookup?_some running found
        rw [stepped]
        rfl
    | none =>
        rw [Cpu.step_of_missing running found]
        rfl

theorem fault?_stepsRun (debugger : Debugger) (count : Nat) :
    (debugger.stepsRun count).filterMap Ran.fault? = debugger.faultsWithin count := by
  rw [stepsRun, List.filterMap_flatMap, faultsWithin, List.filterMap_eq_flatMap_toList]
  simp only [fault?_stepRuns]

theorem iterate_of_stepMany (debugger : Debugger) (limit : Nat) :
    (debugger.stepMany limit).2 = step^[(debugger.stepMany limit).1.instructions] debugger := by
  classical
  have least : IsLeast {count | (step^[count] debugger).cpu.halted = true ∨ count = limit} _ :=
    Nat.isLeast_find ⟨limit, Or.inr rfl⟩
  rw [stepMany_of_isLeast least]

/-- An execution makes as many steps as it reports. -/
theorem iterate_of_execute (debugger : Debugger) (settings : Settings) (program : Program) :
    (debugger.execute settings program).2 =
      step^[(debugger.execute settings program).1.instructions]
        (debugger.prepare settings program) := by
  unfold execute
  dsimp only
  cases settings.step with
  | none => exact iterate_of_runFor _ _
  | some count => exact iterate_of_stepMany _ _

/-- A machine is prepared by a reset, the program and the address where it begins; nothing
but the breakpoints depends on the settings. -/
theorem exists_prepare_eq (debugger : Debugger) (settings : Settings) (program : Program) :
    ∃ breakpoints, debugger.prepare settings program =
      { debugger with
        memory := debugger.memory.load program.origin program.bytes
        cpu := (Patch.atAddress program.origin).apply Cpu.powerOn
        executed := 0
        history := Recent.empty recordCapacity_pos
        faults := Recent.empty recordCapacity_pos
        breakpoints := breakpoints } := by
  have others (addresses : List UInt16) (loaded : Debugger) :
      ∃ breakpoints, addresses.foldl setBreakpoint loaded =
        { loaded with breakpoints := breakpoints } := by
    induction addresses generalizing loaded with
    | nil => exact ⟨loaded.breakpoints, rfl⟩
    | cons first rest ih => exact ih (loaded.setBreakpoint first)
  exact others settings.breakpoints _

theorem faults_prepare (debugger : Debugger) (settings : Settings) (program : Program) :
    (debugger.prepare settings program).faults = Recent.empty recordCapacity_pos := by
  obtain ⟨breakpoints, prepared⟩ := debugger.exists_prepare_eq settings program
  rw [prepared]

/-- An execution remembers the latest of its faults. -/
theorem faults_execute (debugger : Debugger) (settings : Settings) (program : Program) :
    let execution := debugger.execute settings program
    let faults := (debugger.prepare settings program).faultsWithin execution.1.instructions
    execution.2.faults.newest? = faults.getLast? ∧
      execution.2.faults.count = min recordCapacity faults.length := by
  intro execution faults
  have recorded := (debugger.prepare settings program).recorded_iterate
    execution.1.instructions
  have ran := (debugger.prepare settings program).fault?_stepsRun execution.1.instructions
  rw [← debugger.iterate_of_execute settings program] at recorded
  have list := recorded.faults
  have newest := recorded.newest?
  rw [ran, faults_prepare, Recent.toList_empty, List.nil_append] at list newest
  refine ⟨newest, ?_⟩
  rw [← Recent.length_toList, list, List.rtake_eq_reverse_take_reverse, List.length_reverse,
    List.length_take, List.length_reverse]

end Debugger

namespace Debugger

variable {debugger : Debugger}

/-- The fault that a step is where no instruction is found. -/
def faultAt (memory : Memory) (address : UInt16) : Fault :=
  ⟨address, memory.slice address (Page.ofMemory memory address).opcodeEnd⟩

theorem toMachine_step_of_missing (running : debugger.cpu.halted = false)
    (missing : Table.lookup? debugger.memory debugger.pc = none) :
    debugger.step.toMachine = ⟨debugger.cpu.goto (debugger.pc + 1), debugger.memory⟩ := by
  rw [toMachine_step, Machine.step]
  dsimp only
  rw [Cpu.step_of_missing running missing]
  rfl

theorem stepFault?_of_missing (running : debugger.cpu.halted = false)
    (missing : Table.lookup? debugger.memory debugger.pc = none) :
    debugger.stepFault? = some (faultAt debugger.memory debugger.pc) := by
  rw [stepFault?, Cpu.step_of_missing running missing]
  rfl

/-- Bytes that begin no instruction are passed one by one. -/
theorem iterate_of_missing {count : Nat} (running : debugger.cpu.halted = false)
    (missing : ∀ passed < count,
      Table.lookup? debugger.memory (debugger.pc + UInt16.ofNat passed) = none) :
    (step^[count] debugger).cpu.halted = false ∧
      (step^[count] debugger).pc = debugger.pc + UInt16.ofNat count ∧
      (step^[count] debugger).memory = debugger.memory := by
  induction count with
  | zero => exact ⟨running, (UInt16.add_zero debugger.pc).symm, rfl⟩
  | succ count ih =>
      obtain ⟨stillRunning, address, memory⟩ :=
        ih fun passed less => missing passed (Nat.lt_succ_of_lt less)
      have here := missing count (Nat.lt_succ_self count)
      rw [← address, ← memory] at here
      have stepped := toMachine_step_of_missing stillRunning here
      rw [Function.iterate_succ_apply', pc, stepped]
      refine ⟨stillRunning, ?_, memory⟩
      change (step^[count] debugger).pc + 1 = _
      rw [address, UInt16.add_assoc, UInt16.ofNat_add]
      rfl

/-- Every step over bytes that begin no instruction is a fault. -/
theorem faultsWithin_of_missing {count : Nat} (running : debugger.cpu.halted = false)
    (missing : ∀ passed < count,
      Table.lookup? debugger.memory (debugger.pc + UInt16.ofNat passed) = none) :
    debugger.faultsWithin count = (List.range count).map fun passed =>
      faultAt debugger.memory (debugger.pc + UInt16.ofNat passed) := by
  rw [faultsWithin, ← List.filterMap_eq_map]
  apply List.filterMap_congr
  intro passed member
  have before : passed < count := List.mem_range.mp member
  have here := missing passed before
  obtain ⟨stillRunning, address, memory⟩ := iterate_of_missing running
    fun earlier less => missing earlier (Nat.lt_trans less before)
  rw [← address, ← memory] at here
  rw [stepFault?_of_missing stillRunning here, address, memory]
  rfl

/-- Single steps over bytes that begin no instruction are all made. -/
theorem instructions_stepMany_of_missing {count : Nat} (running : debugger.cpu.halted = false)
    (missing : ∀ passed < count,
      Table.lookup? debugger.memory (debugger.pc + UInt16.ofNat passed) = none) :
    (debugger.stepMany count).1.instructions = count := by
  rw [stepMany_of_isLeast]
  refine ⟨Or.inr rfl, ?_⟩
  rintro earlier (halted | rfl)
  · by_contra before
    have still := (iterate_of_missing running fun passed less =>
      missing passed (Nat.lt_trans less (Nat.lt_of_not_le before))).1
    rw [still] at halted
    cases halted
  · exact Nat.le_refl _

/-- The faults of single steps over a program whose bytes begin no instruction. -/
theorem execute_of_missing (debugger : Debugger) {settings : Settings} (program : Program)
    {steps : UInt64} (asked : settings.step = some steps)
    (missing : ∀ passed < steps.toNat,
      Table.lookup? (debugger.memory.load program.origin program.bytes)
        (program.origin + UInt16.ofNat passed) = none) :
    (debugger.execute settings program).1.instructions = steps.toNat ∧
      (debugger.prepare settings program).faultsWithin steps.toNat =
        (List.range steps.toNat).map fun passed =>
          faultAt (debugger.memory.load program.origin program.bytes)
            (program.origin + UInt16.ofNat passed) := by
  have execution : debugger.execute settings program =
      (debugger.prepare settings program).stepMany steps.toNat := by
    rw [execute, asked]
  obtain ⟨breakpoints, prepared⟩ := debugger.exists_prepare_eq settings program
  have running : (debugger.prepare settings program).cpu.halted = false := by
    rw [prepared]
    rfl
  have address : (debugger.prepare settings program).pc = program.origin := by
    rw [prepared]
    rfl
  have memory : (debugger.prepare settings program).memory =
      debugger.memory.load program.origin program.bytes := by
    rw [prepared]
  rw [← memory, ← address] at missing ⊢
  rw [execution]
  exact ⟨instructions_stepMany_of_missing running missing,
    faultsWithin_of_missing running missing⟩

end Debugger

/-- The byte that would put the accumulator out to a port begins no instruction. -/
theorem Table.lookup?_of_output {memory : Memory} {address : UInt16}
    (read : memory.read address = 0xD3) : lookup? memory address = none := by
  have missing : get? .base 0xD3 = none := by decide
  have plain : IndexRegister.ofLeadByte? 0xD3 = none := by decide
  simp [lookup?, read, missing, plain]

theorem Debugger.faultAt_of_output {memory : Memory} {address : UInt16}
    (read : memory.read address = 0xD3) : faultAt memory address = ⟨address, [0xD3]⟩ := by
  have page : Page.ofMemory memory address = .base := by
    rw [Page.ofMemory, read]
    rfl
  rw [faultAt, page]
  change Fault.mk address [memory.read address] = _
  rw [read]

theorem Program.read_of_binary {path : String} {content : ByteArray}
    (binary : isSource path = false) (small : content.size ≤ 65536)
    (origin : Option UInt16) :
    read path origin (.ok content) = .ok ⟨origin.getD 0, content.data.toList⟩ := by
  simp only [read, binary, Bool.false_eq_true, if_false]
  exact if_neg (Nat.not_lt.mpr small)

namespace Invocation

theorem run_eq_ok {invocation : Invocation} {content : Except String ByteArray}
    {output : String} :
    invocation.run content = .ok output ↔
      ∃ program, Program.read invocation.program invocation.settings.origin content =
          .ok program ∧
        output = Debugger.report (({} : Debugger).execute invocation.settings program).1
          (({} : Debugger).execute invocation.settings program).2 := by
  simp only [run, bind_eq_ok]
  constructor
  · rintro ⟨program, read, last⟩
    exact ⟨program, read, (Except.ok.inj last).symm⟩
  · rintro ⟨program, read, rfl⟩
    exact ⟨program, read, rfl⟩

/-- Of the lines that are printed about an execution, one tells of decode faults if there
were any, and none otherwise.  It names the last fault, and the number in it is that of the
faults, but no more than the record holds. -/
theorem fault_line_counts_record {invocation : Invocation}
    {content : Except String ByteArray} {output : String}
    (printed : invocation.run content = .ok output) :
    ∃ program,
      Program.read invocation.program invocation.settings.origin content = .ok program ∧
      let start := ({} : Debugger).prepare invocation.settings program
      let execution := ({} : Debugger).execute invocation.settings program
      let faults := start.faultsWithin execution.1.instructions
      execution.2 = Debugger.step^[execution.1.instructions] start ∧
      (Text.splitAt '\n' output.toList).filter tellsOfFaults =
        faults.getLast?.toList.map (faultLine (min 256 faults.length)) := by
  obtain ⟨program, read, rfl⟩ := run_eq_ok.mp printed
  refine ⟨program, read, ?_⟩
  obtain ⟨newest, count⟩ := ({} : Debugger).faults_execute invocation.settings program
  refine ⟨Debugger.iterate_of_execute _ _ _, ?_⟩
  rw [Debugger.filter_report, newest, count]
  rfl

/-- A fault on a byte of input and output, and then a halt. -/
theorem fault_line_counts_record_once :
    let invocation : Invocation := ⟨"port.bin", {}⟩
    let content : Except String ByteArray := .ok ⟨#[0xD3, 0x76]⟩
    ∃ output, invocation.run content = .ok output ∧
      (Text.splitAt '\n' output.toList).filter tellsOfFaults =
        [faultLine 1 ⟨0, [0xD3]⟩] := by
  intro invocation content
  have read : Program.read invocation.program invocation.settings.origin content =
      .ok ⟨0, [0xD3, 0x76]⟩ :=
    Program.read_of_binary (by decide) (by decide) none
  have printed := run_eq_ok.mpr ⟨_, read, rfl⟩
  obtain ⟨program, same, -, lines⟩ := fault_line_counts_record printed
  refine ⟨_, printed, lines.trans ?_⟩
  obtain rfl := Except.ok.inj (read.symm.trans same)
  decide

/-- A sled of 257 bytes of output, each of which is a fault, is reported as 256 faults. -/
theorem fault_line_forgets_oldest :
    let invocation : Invocation := ⟨"sled.bin", { step := some 257 }⟩
    let program : Program := ⟨0, List.replicate 257 0xD3⟩
    let start := ({} : Debugger).prepare invocation.settings program
    ∃ output,
      invocation.run (.ok ⟨program.bytes.toArray⟩) = .ok output ∧
      (({} : Debugger).execute invocation.settings program).1.instructions = 257 ∧
      (start.faultsWithin 257).length = 257 ∧
      (Text.splitAt '\n' output.toList).filter tellsOfFaults =
        [faultLine 256 ⟨256, [0xD3]⟩] ∧
      (Text.splitAt '\n' output.toList).filter tellsOfFaults ≠
        [faultLine 257 ⟨256, [0xD3]⟩] := by
  intro invocation program start
  have size : program.bytes.length = 257 := List.length_replicate
  have byte (passed : Nat) (less : passed < 257) :
      (Memory.zero.load 0 program.bytes).read (0 + UInt16.ofNat passed) = 0xD3 := by
    rw [Memory.read_load _ _ (by omega) passed (by omega), List.getElem_replicate]
  have asked : invocation.settings.step = some 257 := rfl
  have asMany : (257 : UInt64).toNat = 257 := rfl
  obtain ⟨steps, faults⟩ := ({} : Debugger).execute_of_missing program asked
    fun passed less => Table.lookup?_of_output (byte passed less)
  rw [asMany] at steps faults
  have count : (start.faultsWithin 257).length = 257 :=
    (congrArg List.length faults).trans (by rw [List.length_map, List.length_range])
  have last : (start.faultsWithin 257).getLast? = some ⟨256, [0xD3]⟩ := by
    refine (congrArg List.getLast? faults).trans ?_
    rw [List.getLast?_map, List.getLast?_range]
    exact congrArg some (Debugger.faultAt_of_output (byte 256 (by decide)))
  have small : (ByteArray.mk program.bytes.toArray).size ≤ 65536 := by
    rw [ByteArray.size, List.size_toArray, size]
    decide
  have read : Program.read invocation.program invocation.settings.origin
      (.ok ⟨program.bytes.toArray⟩) = .ok program :=
    Program.read_of_binary (by decide) small none
  have printed := run_eq_ok.mpr ⟨program, read, rfl⟩
  obtain ⟨newest, remembered⟩ := ({} : Debugger).faults_execute invocation.settings program
  rw [steps] at newest remembered
  have lines := Debugger.filter_report
    (({} : Debugger).execute invocation.settings program).1
    (({} : Debugger).execute invocation.settings program).2
  rw [newest.trans last, remembered.trans (congrArg (min 256) count)] at lines
  have numbers : (faultLine 256 ⟨256, [0xD3]⟩).take 3 ≠
      (faultLine 257 ⟨256, [0xD3]⟩).take 3 := by decide
  refine ⟨_, printed, steps, count, lines, ?_⟩
  intro miscounted
  have same := List.singleton_inj.mp (lines.symm.trans miscounted)
  exact numbers (congrArg (List.take 3) same)

end Invocation

end Z80
