import Z80.Proofs.InstructionMeaning
import Z80.Cpu.Step

/-!
# Steps and the opcode table

A step executes exactly what the opcode table finds at the program counter.  It
consumes the bytes of the entry, goes on behind them unless the entry is a jump,
call or return that is taken or a block instruction that repeats, and it faults
exactly where the table finds nothing.
-/

namespace Z80

theorem byte_sub_eq_zero_iff (first second : UInt8) :
    first - second = 0 ↔ first = second := by
  simp [UInt8.sub_eq_iff_eq_add]

theorem byte_sub_ne_zero (first second : UInt8) :
    (first - second != 0) = (first != second) := by
  simp [bne, beq_eq_decide, byte_sub_eq_zero_iff]

private theorem word_sub_ne_zero (first second : UInt16) :
    (first - second != 0) = (first != second) := by
  have shift : first - second = 0 ↔ first = second := by simp [UInt16.sub_eq_iff_eq_add]
  simp [bne, beq_eq_decide, shift]

namespace Cpu

@[simp] theorem pc_setRegister (cpu : Cpu) (register : Register) (byte : UInt8) :
    (cpu.setRegister register byte).pc = cpu.pc := by
  cases register <;> rfl

@[simp] theorem pc_setIndex (cpu : Cpu) (register : IndexRegister) (word : UInt16) :
    (cpu.setIndex register word).pc = cpu.pc := by
  cases register <;> rfl

@[simp] theorem pc_setPair (cpu : Cpu) (pair : Pair) (word : UInt16) :
    (cpu.setPair pair word).pc = cpu.pc := by
  cases pair <;> first | rfl | exact cpu.pc_setIndex _ word

@[simp] theorem pc_setFlags (cpu : Cpu) (flags : Flags) : (cpu.setFlags flags).pc = cpu.pc :=
  rfl

@[simp] theorem pc_keep (cpu : Cpu) (place : Place) (byte : UInt8) :
    (cpu.keep place byte).cpu.pc = cpu.pc := by
  cases place with
  | register register => exact cpu.pc_setRegister register byte
  | cell pointer => rfl

@[simp] theorem pc_keepWord (cpu : Cpu) (place : WordPlace) (word : UInt16) :
    (cpu.keepWord place word).cpu.pc = cpu.pc := by
  cases place with
  | pair pair => exact cpu.pc_setPair pair word
  | cells address => rfl

@[simp] theorem pc_replace (cpu : Cpu) (place : Place) (result : UInt8 × Flags) :
    (cpu.replace place result).cpu.pc = cpu.pc := by
  simp [replace]

@[simp] theorem pc_goto (cpu : Cpu) (target : UInt16) : (cpu.goto target).pc = target :=
  rfl

end Cpu

namespace Instruction

/-- The address an instruction continues at, unless it is the one behind it. -/
def destination? (cpu : Cpu) (memory : Memory) : Instruction → Option UInt16
  | .jump condition target => if cpu.permits condition then some target else none
  | .jumpTo pair => some (cpu.pair pair)
  | .jumpRelative condition displacement =>
      if cpu.permits condition then some (cpu.pc + signExtend displacement) else none
  | .decrementJump displacement =>
      if cpu.main.b - 1 != 0 then some (cpu.pc + signExtend displacement) else none
  | .call condition target => if cpu.permits condition then some target else none
  | .ret condition => if cpu.permits condition then some (memory.readWord cpu.sp) else none
  | .restart vector => some vector
  | .copyBlock _ repeats =>
      if repeats && cpu.main.bc - 1 != 0 then some (cpu.pc - 2) else none
  | .compareBlock _ repeats =>
      if repeats && cpu.main.bc - 1 != 0 && cpu.main.a - memory.read cpu.main.hl != 0 then
        some (cpu.pc - 2)
      else none
  | _ => none

theorem pc_execute (cpu : Cpu) (memory : Memory) (instruction : Instruction) :
    (cpu.execute memory instruction).cpu.pc =
      (instruction.destination? cpu memory).getD cpu.pc := by
  cases instruction with
  | readSpecial register => cases register <;> rfl
  | writeSpecial register => cases register <;> rfl
  | load target source => exact cpu.pc_keep target _
  | loadWord target source => exact cpu.pc_keepWord target _
  | pop pair => exact Cpu.pc_setPair _ pair _
  | exchangeStackTop pair => exact cpu.pc_setPair pair _
  | increment place => exact cpu.pc_replace place _
  | decrement place => exact cpu.pc_replace place _
  | incrementPair pair => exact cpu.pc_setPair pair _
  | decrementPair pair => exact cpu.pc_setPair pair _
  | addPair target source => exact Cpu.pc_setPair _ target _
  | rotate rotation place => exact cpu.pc_replace place _
  | resetBit position place => exact cpu.pc_keep place _
  | setBit position place => exact cpu.pc_keep place _
  | jump condition target =>
      cases permitted : cpu.permits condition <;>
        simp [Cpu.execute, destination?, permitted]
  | jumpRelative condition displacement =>
      cases permitted : cpu.permits condition <;>
        simp [Cpu.execute, destination?, permitted, Cpu.gotoRelative]
  | decrementJump displacement =>
      by_cases ends : cpu.main.b - 1 = 0 <;>
        simp [Cpu.execute, destination?, Cpu.setRegister, ends, Cpu.gotoRelative]
  | call condition target =>
      cases permitted : cpu.permits condition <;>
        simp [Cpu.execute, destination?, permitted, Cpu.enter]
  | ret condition =>
      cases permitted : cpu.permits condition <;>
        simp [Cpu.execute, destination?, permitted, Cpu.leave, Cpu.pop]
  | copyBlock direction repeats =>
      cases again : repeats && cpu.main.bc - 1 != 0 <;>
        simp [Cpu.execute, destination?, Cpu.copyBlock, again, Cpu.again]
  | compareBlock direction repeats =>
      cases again : repeats && cpu.main.bc - 1 != 0 &&
          cpu.main.a - memory.read cpu.main.hl != 0 <;>
        simp [Cpu.execute, destination?, Cpu.compareBlock, again, Cpu.again]
  | _ => rfl

end Instruction

namespace Form

/-- The condition that a form names as its first operand. -/
def condition? (form : Form) : Option Condition :=
  match form.2 with
  | .keyword word :: _ => word.condition?
  | _ => none

/-- Whether a jump, call or return is taken. -/
def transfers (form : Form) (cpu : Cpu) : Bool :=
  match form.1 with
  | .jp | .jr | .call | .ret => cpu.permits (condition? form)
  | .djnz => cpu.main.b != 1
  | .retn | .reti | .rst => true
  | _ => false

/-- Whether a block instruction runs again. -/
def repeats (form : Form) (cpu : Cpu) (memory : Memory) : Bool :=
  match form.1 with
  | .ldir | .lddr => cpu.main.bc != 1
  | .cpir | .cpdr => cpu.main.bc != 1 && cpu.main.a != memory.read cpu.main.hl
  | _ => false

/-- A load is one of a special register, or one of a word between two operands that
name words, or one of a byte. -/
theorem load?_cases {target source : Operand} {payload : List UInt8}
    {instruction : Instruction} (meaning : load? target source payload = some instruction) :
    (∃ register, instruction = .writeSpecial register ∧
      target = .keyword (Keyword.special register) ∧ source = .keyword .a) ∨
    (∃ register, instruction = .readSpecial register ∧ target = .keyword .a ∧
      source = .keyword (Keyword.special register)) ∨
    (∃ place word, instruction = .loadWord place word ∧
      target.wordPlace? payload = some place ∧
      source.wordSource? (payload.drop target.size) = some word) ∨
    ∃ place byte, instruction = .load place byte ∧ target.place? payload = some place ∧
      (target.wordPlace? payload = none ∨
        source.wordSource? (payload.drop target.size) = none) := by
  unfold load? at meaning
  split at meaning
  · exact Or.inl ⟨.i, (Option.some.inj meaning).symm, rfl, rfl⟩
  · exact Or.inl ⟨.r, (Option.some.inj meaning).symm, rfl, rfl⟩
  · exact Or.inr (Or.inl ⟨.i, (Option.some.inj meaning).symm, rfl, rfl⟩)
  · exact Or.inr (Or.inl ⟨.r, (Option.some.inj meaning).symm, rfl, rfl⟩)
  · dsimp only at meaning
    split at meaning
    · rename_i place word placeEq wordEq
      exact Or.inr (Or.inr (Or.inl
        ⟨place, word, (Option.some.inj meaning).symm, placeEq, wordEq⟩))
    · rename_i narrow
      simp only [Option.bind_eq_bind, Option.bind_eq_some_iff] at meaning
      obtain ⟨place, placeEq, byte, -, equal⟩ := meaning
      refine Or.inr (Or.inr (Or.inr
        ⟨place, byte, (Option.some.inj equal).symm, placeEq, ?_⟩))
      by_contra wide
      rw [not_or, ← ne_eq, ← ne_eq, Option.ne_none_iff_exists', Option.ne_none_iff_exists']
        at wide
      obtain ⟨⟨place, placeEq⟩, word, wordEq⟩ := wide
      exact narrow place word placeEq wordEq

theorem destination?_of_load? {target source : Operand} {payload : List UInt8}
    {instruction : Instruction} (meaning : load? target source payload = some instruction)
    (cpu : Cpu) (memory : Memory) : instruction.destination? cpu memory = none := by
  obtain ⟨register, rfl, -⟩ | ⟨register, rfl, -⟩ | ⟨place, word, rfl, -⟩ |
    ⟨place, byte, rfl, -⟩ := load?_cases meaning
  all_goals rfl

theorem destination?_of_exchange? {first second : Keyword} {instruction : Instruction}
    (meaning : exchange? first second = some instruction) (cpu : Cpu) (memory : Memory) :
    instruction.destination? cpu memory = none := by
  unfold exchange? at meaning
  split at meaning
  · obtain rfl := Option.some.inj meaning
    rfl
  · obtain rfl := Option.some.inj meaning
    rfl
  · obtain ⟨pair, _, rfl⟩ := Option.map_eq_some_iff.mp meaning
    rfl
  · simp at meaning

/-- Counting acts on the pair that a keyword names, or else on a place. -/
theorem count?_cases {ofPair : Pair → Instruction} {ofPlace : Place → Instruction}
    {operand : Operand} {payload : List UInt8} {instruction : Instruction}
    (meaning : count? ofPair ofPlace operand payload = some instruction) :
    (∃ word pair, operand = .keyword word ∧ word.pair? = some pair ∧
      instruction = ofPair pair) ∨
    ∃ place, operand.place? payload = some place ∧ instruction = ofPlace place ∧
      operand.wordPlace? [] = none := by
  unfold count? at meaning
  split at meaning
  · rename_i word
    split at meaning
    · rename_i pair pairEq
      exact Or.inl ⟨word, pair, rfl, pairEq, (Option.some.inj meaning).symm⟩
    · rename_i unpaired
      obtain ⟨place, placeEq, rfl⟩ := Option.map_eq_some_iff.mp meaning
      exact Or.inr ⟨place, placeEq, rfl, by simp [Operand.wordPlace?, unpaired]⟩
  · rename_i unnamed
    obtain ⟨place, placeEq, rfl⟩ := Option.map_eq_some_iff.mp meaning
    refine Or.inr ⟨place, placeEq, rfl, ?_⟩
    unfold Operand.wordPlace?
    split
    · exact absurd rfl (unnamed _)
    · rename_i missing
      simp at missing
    · rfl

/-- A jump or call to a word waits for the condition that its form names. -/
theorem toWord?_cases {complete : Option Condition → UInt16 → Instruction}
    {operands : List Operand} {payload : List UInt8} {instruction : Instruction}
    (meaning : toWord? complete operands payload = some instruction)
    (mnemonic : Mnemonic) :
    ∃ target, instruction = complete (condition? (mnemonic, operands)) target := by
  unfold toWord? at meaning
  split at meaning
  · obtain rfl := Option.some.inj meaning
    exact ⟨_, rfl⟩
  · rename_i word low high
    obtain ⟨condition, named, rfl⟩ := Option.map_eq_some_iff.mp meaning
    refine ⟨wordOfBytes high low, ?_⟩
    simp only [condition?, named]
  · simp at meaning

private theorem condition?_of_target? {word : Keyword} {pair : Pair}
    (named : word.target? = some pair) : word.condition? = none := by
  cases word <;> simp [Keyword.target?] at named <;> rfl

/-- An instruction that is neither taken nor repeated goes on behind itself, and
one that is repeated goes back over its two bytes. -/
theorem destination?_of_meaning? {form : Form} {payload : List UInt8}
    {instruction : Instruction} (meaning : form.meaning? payload = some instruction)
    (cpu : Cpu) (memory : Memory) :
    (repeats form cpu memory = true →
        instruction.destination? cpu memory = some (cpu.pc - 2)) ∧
      (repeats form cpu memory = false → transfers form cpu = false →
        instruction.destination? cpu memory = none) := by
  obtain ⟨mnemonic, operands⟩ := form
  unfold meaning? at meaning
  dsimp only at meaning
  split at meaning
  -- most forms neither transfer control nor repeat, whatever their operands
  any_goals
    obtain rfl := Option.some.inj meaning
    simp [repeats, transfers, Instruction.destination?]
    done
  any_goals
    obtain ⟨_, _, rfl⟩ := Option.map_eq_some_iff.mp meaning
    simp [repeats, transfers, Instruction.destination?]
    done
  · exact ⟨nofun, fun _ _ => destination?_of_load? meaning cpu memory⟩
  · exact ⟨nofun, fun _ _ => destination?_of_exchange? meaning cpu memory⟩
  · simp only [Option.bind_eq_bind, Option.bind_eq_some_iff] at meaning
    obtain ⟨target, _, source, _, equal⟩ := meaning
    obtain rfl := Option.some.inj equal
    exact ⟨nofun, fun _ _ => rfl⟩
  · obtain ⟨word, pair, -, -, rfl⟩ | ⟨place, -, rfl, -⟩ := count?_cases meaning
    all_goals exact ⟨nofun, fun _ _ => rfl⟩
  · obtain ⟨word, pair, -, -, rfl⟩ | ⟨place, -, rfl, -⟩ := count?_cases meaning
    all_goals exact ⟨nofun, fun _ _ => rfl⟩
  · obtain ⟨pair, named, rfl⟩ := Option.map_eq_some_iff.mp meaning
    refine ⟨nofun, fun _ untaken => ?_⟩
    simp [transfers, condition?, condition?_of_target? named, Cpu.permits] at untaken
  · obtain ⟨target, rfl⟩ := toWord?_cases meaning .jp
    refine ⟨nofun, fun _ untaken => ?_⟩
    simp only [transfers] at untaken
    simp [Instruction.destination?, untaken]
  · obtain ⟨displacement, _, rfl⟩ := Option.map_eq_some_iff.mp meaning
    refine ⟨nofun, fun _ untaken => ?_⟩
    simp [transfers, condition?, Cpu.permits] at untaken
  · simp only [Option.bind_eq_bind, Option.bind_eq_some_iff] at meaning
    obtain ⟨condition, named, displacement, _, equal⟩ := meaning
    obtain rfl := Option.some.inj equal
    refine ⟨nofun, fun _ untaken => ?_⟩
    simp only [transfers, condition?, named] at untaken
    simp [Instruction.destination?, untaken]
  · obtain ⟨displacement, _, rfl⟩ := Option.map_eq_some_iff.mp meaning
    refine ⟨nofun, fun _ untaken => ?_⟩
    simp only [transfers] at untaken
    simp [Instruction.destination?, byte_sub_ne_zero, untaken]
  · obtain ⟨target, rfl⟩ := toWord?_cases meaning .call
    refine ⟨nofun, fun _ untaken => ?_⟩
    simp only [transfers] at untaken
    simp [Instruction.destination?, untaken]
  · refine ⟨nofun, fun _ untaken => ?_⟩
    simp [transfers, condition?, Cpu.permits] at untaken
  · obtain ⟨condition, named, rfl⟩ := Option.map_eq_some_iff.mp meaning
    refine ⟨nofun, fun _ untaken => ?_⟩
    simp only [transfers, condition?, named] at untaken
    simp [Instruction.destination?, untaken]
  · exact ⟨nofun, nofun⟩
  iterate 4
    obtain rfl := Option.some.inj meaning
    simp only [repeats, Instruction.destination?, word_sub_ne_zero, byte_sub_ne_zero]
    constructor
    · intro again
      simp [again]
    · intro ended _
      simp [ended]
  simp at meaning

theorem restart_of_meaning? {operands : List Operand} {payload : List UInt8}
    {instruction : Instruction} (meaning : meaning? (.rst, operands) payload = some instruction) :
    ∃ address : UInt8, instruction = .restart address.toUInt16 := by
  rcases operands with _ | ⟨operand, _ | ⟨second, rest⟩⟩
  · exact absurd meaning nofun
  · cases operand with
    | vector address => exact ⟨address, (Option.some.inj meaning).symm⟩
    | _ => exact absurd meaning nofun
  · cases operand <;> exact absurd meaning nofun

/-- A call or restart that is taken puts the address behind it on the stack. -/
theorem writes_of_meaning? {form : Form} {payload : List UInt8}
    {instruction : Instruction} (meaning : form.meaning? payload = some instruction)
    (enters : form.1 = .call ∨ form.1 = .rst) (cpu : Cpu) (memory : Memory)
    (taken : transfers form cpu = true) :
    (cpu.execute memory instruction).writes =
      [⟨cpu.sp - 1, highByte cpu.pc⟩, ⟨cpu.sp - 2, lowByte cpu.pc⟩] := by
  obtain ⟨mnemonic, operands⟩ := form
  obtain rfl | rfl := enters
  · obtain ⟨target, rfl⟩ := toWord?_cases meaning .call
    simp only [transfers] at taken
    simp [Cpu.execute, taken, Cpu.enter, Cpu.push]
  · obtain ⟨address, rfl⟩ := restart_of_meaning? meaning
    rfl

end Form

namespace Entry

def transfers (entry : Entry) (cpu : Cpu) : Bool :=
  Form.transfers (entry.mnemonic, entry.operands) cpu

def repeats (entry : Entry) (cpu : Cpu) (memory : Memory) : Bool :=
  Form.repeats (entry.mnemonic, entry.operands) cpu memory

theorem length_facts {entry : Entry} (member : entry ∈ Table.entries) :
    entry.length ≤ 4 ∧
      (entry.mnemonic ∈ [Mnemonic.ldir, .lddr, .cpir, .cpdr] → entry.length = 2) := by
  have every : ∀ entry ∈ Table.entries, entry.length ≤ 4 ∧
      (entry.mnemonic ∈ [Mnemonic.ldir, .lddr, .cpir, .cpdr] → entry.length = 2) := by
    decide +kernel
  exact every entry member

theorem length_of_repeats {entry : Entry} (member : entry ∈ Table.entries) {cpu : Cpu}
    {memory : Memory} (again : entry.repeats cpu memory = true) : entry.length = 2 := by
  apply (length_facts member).2
  unfold repeats Form.repeats at again
  split at again <;> simp_all

theorem length_le_four {entry : Entry} (member : entry ∈ Table.entries) :
    entry.length ≤ 4 :=
  (length_facts member).1

end Entry

namespace Instruction

/-- Nothing is fetched exactly where the table has no entry. -/
theorem fetch_eq_none_iff (memory : Memory) (address : UInt16) :
    (fetch memory address).1 = none ↔ Table.lookup? memory address = none := by
  have agrees := fetch_agrees memory address
  cases found : Table.lookup? memory address with
  | none =>
      rw [found] at agrees
      obtain ⟨count, _, fetched⟩ := agrees
      rw [fetched]
      exact iff_of_true rfl rfl
  | some entry =>
      rw [found] at agrees
      obtain ⟨instruction, _, fetched⟩ := agrees
      rw [fetched]
      exact iff_of_false (Option.some_ne_none _) (Option.some_ne_none _)

/-- Fetching depends on the bytes of the entry alone. -/
theorem fetch_eq_of_slice_eq {memory other : Memory} {address : UInt16} {entry : Entry}
    (found : Table.lookup? memory address = some entry)
    (equal : other.slice address entry.length = memory.slice address entry.length) :
    fetch other address = fetch memory address := by
  have payloadEq : entry.payloadAt other address = entry.payloadAt memory address := by
    rw [← Entry.drop_take_slice, ← Entry.drop_take_slice, equal]
  have foundOther : Table.lookup? other address = some entry := by
    apply Entry.lookup?_of_slice (Table.mem_entries_of_lookup? found)
      (entry.length_payloadAt memory address)
    rw [equal, Entry.slice_eq_encode found]
  have agrees := fetch_agrees memory address
  have agreesOther := fetch_agrees other address
  rw [found] at agrees
  rw [foundOther] at agreesOther
  obtain ⟨instruction, meaning, fetched⟩ := agrees
  obtain ⟨instructionOther, meaningOther, fetchedOther⟩ := agreesOther
  rw [payloadEq, meaning] at meaningOther
  rw [fetched, fetchedOther, Option.some.inj meaningOther]

end Instruction

namespace Cpu

theorem toNat_add_sub_cancel (address : UInt16) {count : Nat}
    (few : count < 65536) : (address + UInt16.ofNat count - address).toNat = count := by
  rw [UInt16.add_comm, UInt16.add_sub_cancel, UInt16.toNat_ofNat',
    Nat.mod_eq_of_lt few]

/-- Where the table finds nothing, a step faults. -/
theorem step_of_lookup?_none {cpu : Cpu} {memory : Memory} (running : cpu.halted = false)
    (missing : Table.lookup? memory cpu.pc = none) :
    ∃ count ∈ [1, 2, 4],
      cpu.step memory =
        { cpu := cpu.goto (cpu.pc + 1)
          outcome := .faulted ⟨cpu.pc, memory.slice cpu.pc count⟩ } := by
  have agrees := Instruction.fetch_agrees memory cpu.pc
  rw [missing] at agrees
  obtain ⟨count, few, fetched⟩ := agrees
  refine ⟨count, few, ?_⟩
  have bound : count < 65536 := by
    simp only [List.mem_cons, List.not_mem_nil, or_false] at few
    omega
  unfold step
  rw [if_neg (by simp [running]), fetched]
  simp only [toNat_add_sub_cancel _ bound]

/-- Where the table finds an entry, a step executes what the entry stands for. -/
theorem step_of_lookup?_some {cpu : Cpu} {memory : Memory} {entry : Entry}
    (running : cpu.halted = false) (found : Table.lookup? memory cpu.pc = some entry) :
    ∃ instruction, entry.meaning? (entry.payloadAt memory cpu.pc) = some instruction ∧
      cpu.step memory =
        { (cpu.goto (cpu.pc + UInt16.ofNat entry.length)).execute memory instruction with
          outcome := .executed (memory.slice cpu.pc entry.length) } := by
  have agrees := Instruction.fetch_agrees memory cpu.pc
  rw [found] at agrees
  obtain ⟨instruction, meaning, fetched⟩ := agrees
  refine ⟨instruction, meaning, ?_⟩
  have bound := Entry.length_le_four (Table.mem_entries_of_lookup? found)
  unfold step
  rw [if_neg (by simp [running]), fetched]
  simp only [toNat_add_sub_cancel _ (by omega : entry.length < 65536)]

/-- Where the encoding of an entry stands, a step executes what the encoding means. -/
theorem step_of_slice {cpu : Cpu} {memory : Memory} {entry : Entry} {payload : List UInt8}
    {instruction : Instruction} (running : cpu.halted = false)
    (member : entry ∈ Table.entries) (meaning : entry.meaning? payload = some instruction)
    (sized : payload.length = entry.payloadSize)
    (stored : memory.slice cpu.pc entry.length = entry.encode payload) :
    cpu.step memory =
      { (cpu.goto (cpu.pc + UInt16.ofNat entry.length)).execute memory instruction with
        outcome := .executed (entry.encode payload) } := by
  have found := Entry.lookup?_of_slice member sized stored
  have payloadEq : entry.payloadAt memory cpu.pc = payload := by
    rw [← Entry.drop_take_slice, stored, Entry.drop_take_encode entry sized]
  obtain ⟨other, otherMeaning, stepped⟩ := step_of_lookup?_some running found
  rw [payloadEq, meaning] at otherMeaning
  rw [stepped, stored, Option.some.inj otherMeaning]

/-- A step that is not halted does what the table says.  An instruction is fetched exactly
where the table has an entry, so that no entry lacks a handler.  Without an entry the step
faults and changes the program counter alone.  With one it consumes exactly the
bytes of the entry, as they stood before the step, and executes what the entry
stands for; it repeats a block instruction at its own address, goes on behind the
entry unless control is transferred, and returns from a call lead behind it. -/
theorem step_agrees_with_table (cpu : Cpu) (memory : Memory)
    (running : cpu.halted = false) :
    ((Instruction.fetch memory cpu.pc).1 = none ↔ Table.lookup? memory cpu.pc = none) ∧
    match Table.lookup? memory cpu.pc with
    | none => ∃ count ∈ [1, 2, 4],
        cpu.step memory =
          { cpu := { cpu with pc := cpu.pc + 1 }
            writes := []
            outcome := .faulted ⟨cpu.pc, memory.slice cpu.pc count⟩ }
    | some entry =>
        let next := cpu.pc + UInt16.ofNat entry.length
        let step := cpu.step memory
        step.outcome = .executed (memory.slice cpu.pc entry.length) ∧
        (∀ other : Memory,
          other.slice cpu.pc entry.length = memory.slice cpu.pc entry.length →
            Instruction.fetch other cpu.pc = Instruction.fetch memory cpu.pc) ∧
        (∃ instruction,
          entry.meaning? (entry.payloadAt memory cpu.pc) = some instruction ∧
          Instruction.fetch memory cpu.pc = (some instruction, next) ∧
          step.toEffect = ({ cpu with pc := next }).execute memory instruction) ∧
        (entry.repeats cpu memory = true → step.cpu.pc = cpu.pc) ∧
        (entry.repeats cpu memory = false → entry.transfers cpu = false →
          step.cpu.pc = next) ∧
        (entry.mnemonic = .call ∨ entry.mnemonic = .rst → entry.transfers cpu = true →
          step.writes = [⟨cpu.sp - 1, highByte next⟩, ⟨cpu.sp - 2, lowByte next⟩]) := by
  refine ⟨Instruction.fetch_eq_none_iff memory cpu.pc, ?_⟩
  split
  · rename_i missing
    exact step_of_lookup?_none running missing
  · rename_i entry found
    have member := Table.mem_entries_of_lookup? found
    obtain ⟨instruction, meaning, stepped⟩ := step_of_lookup?_some running found
    dsimp only
    rw [stepped]
    generalize nextEq : cpu.pc + UInt16.ofNat entry.length = next
    have pcEq := Instruction.pc_execute (cpu.goto next) memory instruction
    obtain ⟨again, onwards⟩ :=
      Form.destination?_of_meaning? meaning (cpu.goto next) memory
    refine ⟨rfl, fun other equal => Instruction.fetch_eq_of_slice_eq found equal,
      ⟨instruction, meaning, ?_, rfl⟩, ?_, ?_, ?_⟩
    · have agrees := Instruction.fetch_agrees memory cpu.pc
      rw [found] at agrees
      obtain ⟨fetched, fetchedMeaning, fetchedEq⟩ := agrees
      rw [meaning] at fetchedMeaning
      rw [fetchedEq, nextEq, Option.some.inj fetchedMeaning]
    · intro repeated
      have length := Entry.length_of_repeats member repeated
      have back : next - 2 = cpu.pc := by
        rw [← nextEq, length]
        exact UInt16.add_sub_cancel cpu.pc 2
      rw [pcEq, again repeated]
      exact back
    · intro ended untaken
      rw [pcEq, onwards ended untaken]
      rfl
    · intro enters taken
      exact Form.writes_of_meaning? meaning enters (cpu.goto next) memory taken

/-- A call that lies across the last address returns behind it. -/
theorem step_agrees_with_table_call :
    let memory := ((Memory.zero.write 0xFFFF 0xCD).write 0x0000 0x34).write 0x0001 0x12
    let cpu : Cpu := { pc := 0xFFFF, sp := 0x8000 }
    cpu.halted = false ∧
      (cpu.step memory).outcome = .executed [0xCD, 0x34, 0x12] ∧
      (cpu.step memory).writes = [⟨0x7FFF, 0x00⟩, ⟨0x7FFE, 0x02⟩] := by
  intro memory cpu
  have stored : memory.slice 0xFFFF 3 = [0xCD, 0x34, 0x12] := by
    simp [memory, Memory.slice, Memory.read_write]
  have sized : [(0x34 : UInt8), 0x12].length =
      Entry.payloadSize ⟨.base, 0xCD, .call, [.word]⟩ := rfl
  have found : Table.lookup? memory cpu.pc = some ⟨.base, 0xCD, .call, [.word]⟩ :=
    Entry.lookup?_of_slice (by decide) sized stored
  have running : cpu.halted = false := rfl
  clear_value memory
  obtain ⟨_, agrees⟩ := step_agrees_with_table cpu memory running
  rw [found] at agrees
  obtain ⟨outcome, _, _, _, _, pushed⟩ := agrees
  refine ⟨rfl, ?_, ?_⟩
  · rw [outcome]
    exact congrArg Outcome.executed stored
  · rw [pushed (Or.inl rfl) rfl]
    subst cpu
    decide

end Cpu

end Z80
