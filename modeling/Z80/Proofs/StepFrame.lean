import Z80.Proofs.StepAgreement

/-!
# What a step leaves alone

Which cells of memory a step may write and which parts of the processor it may
change, read off the mnemonic and the operands that the opcode table has for the
bytes at the program counter.
-/

namespace Z80

/-- Cells that nothing is written to keep their bytes. -/
theorem Memory.read_perform_of_notMem {memory : Memory} {writes : List Write}
    {address : UInt16} (outside : address ∉ writes.map Write.address) :
    (memory.perform writes).read address = memory.read address := by
  induction writes generalizing memory with
  | nil => rfl
  | cons write rest ih =>
      rw [List.map_cons, List.mem_cons, not_or] at outside
      change ((memory.write write.address write.byte).perform rest).read address = _
      rw [ih outside.2, read_write, if_neg outside.1]

/-- The parts of a processor that only some instructions change. -/
inductive Part where
  /-- The shadows of the accumulator and the flags. -/
  | shadowAF
  /-- The shadows of the six other registers. -/
  | shadowPairs
  | i
  | r
  | interruptMode
  | interruptsEnabled
  | halted
  | sp
  | index (register : IndexRegister)
  | flags
  deriving DecidableEq, Repr

/-- Two processors agree in a part. -/
def Part.Same (first second : Cpu) : Part → Prop
  | .shadowAF =>
      second.shadow.a = first.shadow.a ∧ second.shadow.flags = first.shadow.flags
  | .shadowPairs =>
      second.shadow.b = first.shadow.b ∧ second.shadow.c = first.shadow.c ∧
        second.shadow.d = first.shadow.d ∧ second.shadow.e = first.shadow.e ∧
        second.shadow.h = first.shadow.h ∧ second.shadow.l = first.shadow.l
  | .i => second.i = first.i
  | .r => second.r = first.r
  | .interruptMode => second.interruptMode = first.interruptMode
  | .interruptsEnabled => second.interruptsEnabled = first.interruptsEnabled
  | .halted => second.halted = first.halted
  | .sp => second.sp = first.sp
  | .index register => second.index register = first.index register
  | .flags => second.main.flags = first.main.flags

/-! ## The footprint of an instruction -/

/-- The parts that a pair belongs to. -/
def Pair.parts : Pair → List Part
  | .sp => [.sp]
  | .af => [.flags]
  | .index register => [.index register]
  | _ => []

def WordPlace.parts : WordPlace → List Part
  | .pair words => words.parts
  | .cells _ => []

/-- The cells that a place consists of. -/
def Place.cells (cpu : Cpu) : Place → List UInt16
  | .register _ => []
  | .cell pointer => [cpu.address pointer]

def WordPlace.addresses : WordPlace → List UInt16
  | .pair _ => []
  | .cells address => [address, address + 1]

namespace Instruction

/-- The parts that an instruction may change. -/
def parts (cpu : Cpu) : Instruction → List Part
  | .nop => []
  | .halt => [.halted]
  | .disableInterrupts => [.interruptsEnabled]
  | .enableInterrupts => [.interruptsEnabled]
  | .setInterruptMode _ => [.interruptMode]
  | .load _ _ => []
  | .loadWord target _ => target.parts
  | .readSpecial _ => [.flags]
  | .writeSpecial .i => [.i]
  | .writeSpecial .r => [.r]
  | .push _ => [.sp]
  | .pop pair => .sp :: pair.parts
  | .exchangeAF => [.shadowAF, .flags]
  | .exchangePairs => [.shadowPairs]
  | .exchangeDEHL => []
  | .exchangeStackTop pair => pair.parts
  | .incrementPair pair => pair.parts
  | .decrementPair pair => pair.parts
  | .addPair target _ => .flags :: target.parts
  | .resetBit _ _ => []
  | .setBit _ _ => []
  | .jump _ _ => []
  | .jumpTo _ => []
  | .jumpRelative _ _ => []
  | .decrementJump _ => []
  | .call condition _ => if cpu.permits condition then [.sp] else []
  | .ret condition => if cpu.permits condition then [.sp] else []
  | .restart _ => [.sp]
  | _ => [.flags]

/-- The cells that an instruction writes, in the order in which it does. -/
def cells (cpu : Cpu) : Instruction → List UInt16
  | .load target _ => target.cells cpu
  | .loadWord target _ => target.addresses
  | .push _ => [cpu.sp - 1, cpu.sp - 2]
  | .exchangeStackTop _ => [cpu.sp, cpu.sp + 1]
  | .increment place => place.cells cpu
  | .decrement place => place.cells cpu
  | .rotate _ place => place.cells cpu
  | .resetBit _ place => place.cells cpu
  | .setBit _ place => place.cells cpu
  | .rotateDigitLeft => [cpu.main.hl]
  | .rotateDigitRight => [cpu.main.hl]
  | .call condition _ => if cpu.permits condition then [cpu.sp - 1, cpu.sp - 2] else []
  | .restart _ => [cpu.sp - 1, cpu.sp - 2]
  | .copyBlock _ _ => [cpu.main.de]
  | _ => []

end Instruction

namespace Cpu

variable (cpu : Cpu)

theorem addresses_keep (place : Place) (byte : UInt8) :
    (cpu.keep place byte).writes.map Write.address = place.cells cpu := by
  cases place <;> rfl

theorem addresses_keepWord (place : WordPlace) (word : UInt16) :
    (cpu.keepWord place word).writes.map Write.address = place.addresses := by
  cases place <;> rfl

theorem addresses_replace (place : Place) (result : UInt8 × Flags) :
    (cpu.replace place result).writes.map Write.address = place.cells cpu := by
  rw [replace, addresses_keep]
  rcases place with named | pointer
  · rfl
  · cases pointer with
    | indexed register displacement => cases register <;> rfl
    | _ => rfl

theorem addresses_execute (memory : Memory) (instruction : Instruction) :
    (cpu.execute memory instruction).writes.map Write.address = instruction.cells cpu := by
  cases instruction with
  | load target source => exact cpu.addresses_keep target _
  | loadWord target source => exact cpu.addresses_keepWord target _
  | increment place => exact cpu.addresses_replace place _
  | decrement place => exact cpu.addresses_replace place _
  | rotate rotation place => exact cpu.addresses_replace place _
  | resetBit position place => exact cpu.addresses_keep place _
  | setBit position place => exact cpu.addresses_keep place _
  | call condition target =>
      cases permitted : cpu.permits condition <;>
        simp [execute, Instruction.cells, permitted, enter, push]
  | _ => rfl

end Cpu

namespace Part

variable {part : Part}

theorem same_refl (cpu : Cpu) (part : Part) : part.Same cpu cpu := by
  cases part <;> simp [Same]

theorem same_trans {first second third : Cpu} (former : part.Same first second)
    (latter : part.Same second third) : part.Same first third := by
  cases part <;> simp_all [Same]

variable (cpu : Cpu)

theorem same_goto (part : Part) (target : UInt16) : part.Same cpu (cpu.goto target) := by
  cases part with
  | index register => cases register <;> rfl
  | _ => simp [Same, Cpu.goto]

/-- The registers of the main bank belong to no part, but for the flags. -/
theorem same_setMain {bank : Bank} (part : Part) (flags : bank.flags = cpu.main.flags) :
    part.Same cpu { cpu with main := bank } := by
  cases part with
  | index register => cases register <;> rfl
  | flags => exact flags
  | _ => simp [Same]

theorem same_setMain_of_ne (bank : Bank) (other : part ≠ .flags) :
    part.Same cpu { cpu with main := bank } := by
  cases part with
  | index register => cases register <;> rfl
  | flags => exact absurd rfl other
  | _ => simp [Same]

theorem same_setRegister (part : Part) (register : Register) (byte : UInt8) :
    part.Same cpu (cpu.setRegister register byte) := by
  cases register <;> exact same_setMain cpu part rfl

theorem same_setPair {pair : Pair} (outside : part ∉ pair.parts) (word : UInt16) :
    part.Same cpu (cpu.setPair pair word) := by
  cases pair with
  | sp =>
      cases part with
      | index register => cases register <;> rfl
      | sp => simp [Pair.parts] at outside
      | _ => simp [Same, Cpu.setPair]
  | af => exact same_setMain_of_ne cpu _ (by simpa [Pair.parts] using outside)
  | index register =>
      cases part with
      | index named =>
          cases register <;> cases named <;>
            first
            | rfl
            | simp [Pair.parts] at outside
      | _ => cases register <;> simp [Same, Cpu.setPair, Cpu.setIndex]
  | _ => exact same_setMain cpu part rfl

theorem same_keep (part : Part) (place : Place) (byte : UInt8) :
    part.Same cpu (cpu.keep place byte).cpu := by
  cases place with
  | register register => exact same_setRegister cpu part register byte
  | cell pointer => exact same_refl cpu part

theorem same_replace (place : Place) (result : UInt8 × Flags) (other : part ≠ .flags) :
    part.Same cpu (cpu.replace place result).cpu :=
  same_trans (same_setMain_of_ne cpu _ other) (same_keep _ part place result.1)

theorem same_setSP (word : UInt16) (other : part ≠ .sp) :
    part.Same cpu { cpu with sp := word } := by
  have outside : part ∉ Pair.parts .sp := by simpa [Pair.parts] using other
  exact same_setPair cpu outside word

theorem same_enter (target : UInt16) (other : part ≠ .sp) :
    part.Same cpu (cpu.enter target).cpu :=
  same_trans (same_setSP cpu _ other) (same_goto _ part target)

theorem same_leave (memory : Memory) (other : part ≠ .sp) :
    part.Same cpu (cpu.leave memory) :=
  same_trans (same_setSP cpu _ other) (same_goto _ part _)

/-- An instruction leaves every part alone that it does not count among its own. -/
theorem same_execute (memory : Memory) {instruction : Instruction}
    (outside : part ∉ instruction.parts cpu) :
    part.Same cpu (cpu.execute memory instruction).cpu := by
  cases instruction with
  | load target source => exact same_keep cpu part target _
  | resetBit position place => exact same_keep cpu part place _
  | setBit position place => exact same_keep cpu part place _
  | increment place =>
      exact same_replace cpu place _ (by simpa [Instruction.parts] using outside)
  | decrement place =>
      exact same_replace cpu place _ (by simpa [Instruction.parts] using outside)
  | rotate rotation place =>
      exact same_replace cpu place _ (by simpa [Instruction.parts] using outside)
  | loadWord target source =>
      cases target with
      | pair pair => exact same_setPair cpu outside _
      | cells address => exact same_refl cpu part
  | exchangeStackTop pair => exact same_setPair cpu outside _
  | incrementPair pair => exact same_setPair cpu outside _
  | decrementPair pair => exact same_setPair cpu outside _
  | addPair target source =>
      rw [Instruction.parts, List.mem_cons, not_or] at outside
      exact same_trans (same_setMain_of_ne cpu _ outside.1) (same_setPair _ outside.2 _)
  | pop pair =>
      rw [Instruction.parts, List.mem_cons, not_or] at outside
      exact same_trans (same_setSP cpu _ outside.1) (same_setPair _ outside.2 _)
  | push pair => exact same_setSP cpu _ (by simpa [Instruction.parts] using outside)
  | restart vector => exact same_enter cpu _ (by simpa [Instruction.parts] using outside)
  | call condition target =>
      rw [Cpu.execute]
      split
      · rename_i permitted
        exact same_enter cpu target (by simpa [Instruction.parts, permitted] using outside)
      · exact same_refl cpu part
  | ret condition =>
      rw [Cpu.execute]
      split
      · rename_i permitted
        exact same_leave cpu memory (by simpa [Instruction.parts, permitted] using outside)
      · exact same_refl cpu part
  | nop => exact same_refl cpu part
  | jump condition target =>
      rw [Cpu.execute]
      split
      · exact same_goto cpu part target
      · exact same_refl cpu part
  | jumpTo pair => exact same_goto cpu part _
  | jumpRelative condition displacement =>
      rw [Cpu.execute]
      split
      · exact same_goto cpu part _
      · exact same_refl cpu part
  | decrementJump displacement =>
      have counted := same_setRegister cpu part .b (cpu.main.b - 1)
      dsimp only [Cpu.execute]
      split
      · exact same_trans counted (same_goto _ part _)
      · exact counted
  | exchangeDEHL => exact same_setMain cpu part rfl
  | copyBlock direction repeats =>
      have moved (bank : Bank) : part.Same cpu { cpu with main := bank } :=
        same_setMain_of_ne cpu bank (by simpa [Instruction.parts] using outside)
      dsimp only [Cpu.execute, Cpu.copyBlock]
      split
      · exact same_trans (moved _) (same_goto _ part _)
      · exact moved _
  | compareBlock direction repeats =>
      have moved (bank : Bank) : part.Same cpu { cpu with main := bank } :=
        same_setMain_of_ne cpu bank (by simpa [Instruction.parts] using outside)
      dsimp only [Cpu.execute, Cpu.compareBlock]
      split
      · exact same_trans (moved _) (same_goto _ part _)
      · exact moved _
  -- what is left changes single parts, or the accumulator and the flags
  | halt | disableInterrupts | enableInterrupts | setInterruptMode | exchangeAF
    | exchangePairs =>
      cases part with
      | index register => cases register <;> rfl
      | _ =>
          simp_all [Same, Instruction.parts, Cpu.execute, Cpu.exchangeAF,
            Cpu.exchangePairs]
  | writeSpecial register =>
      cases part with
      | index named => cases named <;> cases register <;> rfl
      | _ =>
          cases register <;>
            simp_all [Same, Instruction.parts, Cpu.execute, Cpu.writeSpecial]
  | _ =>
      exact same_setMain_of_ne cpu _ (by simpa [Instruction.parts] using outside)

end Part

/-! ## The footprint of a form -/

/-- The cell that an operand names, by the bytes that fill it in. -/
def Operand.cells (cpu : Cpu) : Operand → List UInt8 → List UInt16
  | .keyword .atBC, _ => [cpu.main.bc]
  | .keyword .atDE, _ => [cpu.main.de]
  | .keyword .atHL, _ => [cpu.main.hl]
  | .cell, low :: high :: _ => [wordOfBytes high low]
  | .indexed register, displacement :: _ => [cpu.index register + signExtend displacement]
  | _, _ => []

theorem Operand.cells_of_place? {operand : Operand} {payload : List UInt8} {place : Place}
    (named : operand.place? payload = some place) (cpu : Cpu) :
    place.cells cpu = operand.cells cpu payload := by
  unfold place? at named
  split at named
  · rename_i word
    cases word <;> simp [Keyword.place?] at named <;> subst named <;> rfl
  · obtain rfl := Option.some.inj named
    rfl
  · obtain rfl := Option.some.inj named
    rfl
  · simp at named

/-- A word is kept in the pair that a keyword names or in the cells at an address. -/
theorem Operand.wordPlace?_cases {operand : Operand} {payload : List UInt8}
    {place : WordPlace} (named : operand.wordPlace? payload = some place) :
    (∃ word pair, operand = .keyword word ∧ word.pair? = some pair ∧ place = .pair pair) ∨
      ∃ low high rest, operand = .cell ∧ payload = low :: high :: rest ∧
        place = .cells (wordOfBytes high low) := by
  unfold wordPlace? at named
  split at named
  · rename_i word
    obtain ⟨pair, pairEq, rfl⟩ := Option.map_eq_some_iff.mp named
    exact Or.inl ⟨word, pair, rfl, pairEq, rfl⟩
  · obtain rfl := Option.some.inj named
    exact Or.inr ⟨_, _, _, rfl, rfl, rfl⟩
  · simp at named

theorem Operand.cells_of_pair? {word : Keyword} {pair : Pair} (named : word.pair? = some pair)
    (cpu : Cpu) (payload : List UInt8) : Operand.cells cpu (.keyword word) payload = [] := by
  cases word <;> first | rfl | simp [Keyword.pair?] at named

namespace Form

/-- The cells that a load writes: two from an address on, unless it stores the
accumulator there. -/
def loadCells (cpu : Cpu) (target source : Operand) (payload : List UInt8) : List UInt16 :=
  if target = .cell ∧ source ≠ .keyword .a then
    (target.cells cpu payload).flatMap fun address => [address, address + 1]
  else target.cells cpu payload

/-- The cells that a form writes, in the order in which it does. -/
def cells (form : Form) (cpu : Cpu) (payload : List UInt8) : List UInt16 :=
  match form.1, form.2 with
  | .ld, [target, source] => loadCells cpu target source payload
  | .inc, [target] | .dec, [target] => target.cells cpu payload
  | .rlc, [target] | .rrc, [target] | .rl, [target] | .rr, [target]
  | .sla, [target] | .sra, [target] | .sll, [target] | .srl, [target] =>
      target.cells cpu payload
  | .res, [_, target] | .set, [_, target] => target.cells cpu payload
  | .rld, _ | .rrd, _ => [cpu.main.hl]
  | .push, _ | .rst, _ => [cpu.sp - 1, cpu.sp - 2]
  | .call, _ => if transfers form cpu then [cpu.sp - 1, cpu.sp - 2] else []
  | .ex, .keyword .atSP :: _ => [cpu.sp, cpu.sp + 1]
  | .ldi, _ | .ldd, _ | .ldir, _ | .lddr, _ => [cpu.main.de]
  | _, _ => []

/-- Whether a form can change a part. -/
def changes (form : Form) (cpu : Cpu) : Part → Bool
  | .shadowAF => form == (.ex, [.keyword .af, .keyword .afShadow])
  | .shadowPairs => form.1 == .exx
  | .i => form == (.ld, [.keyword .i, .keyword .a])
  | .r => form == (.ld, [.keyword .r, .keyword .a])
  | .interruptMode => form.1 == .im
  | .interruptsEnabled => form.1 == .di || form.1 == .ei
  | .halted => form.1 == .halt
  | .sp =>
      match form.1 with
      | .push | .pop | .rst => true
      | .call | .ret | .retn | .reti => transfers form cpu
      | .ld | .inc | .dec => form.2.head? == some (.keyword .sp)
      | _ => false
  | .index register =>
      match form.1 with
      | .ld | .pop | .add | .inc | .dec =>
          form.2.head? == some (.keyword (Keyword.index register))
      | .ex => form.2 == [.keyword .atSP, .keyword (Keyword.index register)]
      | _ => false
  | .flags =>
      match form.1 with
      | .ld => form.2 == [.keyword .a, .keyword .i] || form.2 == [.keyword .a, .keyword .r]
      | .pop => form.2 == [.keyword .af]
      | .ex => form.2 == [.keyword .af, .keyword .afShadow]
      | .inc | .dec => form.2.all fun operand => (operand.wordPlace? []).isNone
      | .nop | .halt | .di | .ei | .im | .push | .exx | .res | .set | .jp | .jr | .djnz
      | .call | .ret | .retn | .reti | .rst => false
      | _ => true

/-- Whether a form stores at an address nothing but the accumulator or a pair, and
writes AF and SP only where the table has it do so. -/
def regular : Form → Bool
  | (.ld, [.cell, source]) => source == .keyword .a || (source.wordPlace? []).isSome
  | (.ld, .keyword word :: _) | (.inc, .keyword word :: _) | (.dec, .keyword word :: _) =>
      word != .af
  | (.add, .keyword word :: _) => word != .af && word != .sp
  | (.ex, [.keyword .atSP, .keyword word]) => word != .af && word != .sp
  | _ => true

theorem regular_of_mem {entry : Entry} (member : entry ∈ Table.entries) :
    regular (entry.mnemonic, entry.operands) = true := by
  have every : ∀ entry ∈ Table.entries, regular (entry.mnemonic, entry.operands) = true := by
    decide +kernel
  exact every entry member

theorem page_of_changes {entry : Entry} (member : entry ∈ Table.entries) {cpu : Cpu}
    {register : IndexRegister}
    (changed : changes (entry.mnemonic, entry.operands) cpu (.index register) = true) :
    entry.page = .indexed register := by
  have every : ∀ entry ∈ Table.entries,
      changes (entry.mnemonic, entry.operands) {} (.index register) = true →
        entry.page = .indexed register := by
    cases register <;> decide +kernel
  exact every entry member changed

theorem cells_of_load? {target source : Operand} {payload : List UInt8}
    {instruction : Instruction} (meaning : load? target source payload = some instruction)
    (plain : regular (.ld, [target, source]) = true) (cpu : Cpu) :
    instruction.cells cpu = loadCells cpu target source payload := by
  obtain ⟨register, rfl, rfl, rfl⟩ | ⟨register, rfl, rfl, rfl⟩ | ⟨place, word, rfl, named, wide⟩ |
    ⟨place, byte, rfl, named, narrow⟩ := load?_cases meaning
  · cases register <;> rfl
  · rfl
  · obtain ⟨word, pair, rfl, pairEq, rfl⟩ | ⟨low, high, rest, rfl, rfl, rfl⟩ :=
      Operand.wordPlace?_cases named
    · simp [loadCells, Operand.cells_of_pair? pairEq, Instruction.cells,
        WordPlace.addresses]
    · have other : source ≠ .keyword .a := by
        rintro rfl
        simp [Operand.wordSource?, Operand.wordPlace?, Keyword.pair?] at wide
      simp [loadCells, other, Operand.cells, Instruction.cells, WordPlace.addresses]
  · rw [loadCells, if_neg, ← Operand.cells_of_place? named cpu]
    · rfl
    · rintro ⟨rfl, other⟩
      obtain ⟨low, high, rest, rfl⟩ : ∃ low high rest, payload = low :: high :: rest := by
        unfold Operand.place? at named
        split at named <;> simp_all
      have pair : ∃ place, source.wordPlace? [] = some place := by
        simpa [regular, other, Option.isSome_iff_exists] using plain
      obtain ⟨place, placeEq⟩ := pair
      obtain ⟨word, pair, rfl, pairEq, -⟩ | ⟨_, _, _, _, missing, _⟩ :=
        Operand.wordPlace?_cases placeEq
      · simp [Operand.wordPlace?, Operand.wordSource?, pairEq] at narrow
      · simp at missing

/-- A form accounts for the cells that an instruction writes and for the parts that
it changes. -/
structure Covers (form : Form) (payload : List UInt8) (cpu : Cpu)
    (instruction : Instruction) : Prop where
  cells : instruction.cells cpu = Form.cells form cpu payload
  parts : ∀ part ∈ instruction.parts cpu, changes form cpu part = true

theorem parts_subset_of_pair? {word : Keyword} {pair : Pair} (named : word.pair? = some pair)
    {part : Part} (member : part ∈ pair.parts) :
    part = .flags ∧ word = .af ∨ part = .sp ∧ word = .sp ∨
      ∃ register, part = .index register ∧ word = Keyword.index register := by
  cases word <;> simp [Keyword.pair?] at named <;> subst named <;>
    simp_all [Pair.parts, Keyword.index]

theorem covers_of_load? {target source : Operand} {payload : List UInt8}
    {instruction : Instruction} (meaning : load? target source payload = some instruction)
    (plain : regular (.ld, [target, source]) = true) (cpu : Cpu) :
    Covers (.ld, [target, source]) payload cpu instruction := by
  refine ⟨cells_of_load? meaning plain cpu, fun part member => ?_⟩
  obtain ⟨register, rfl, rfl, rfl⟩ | ⟨register, rfl, rfl, rfl⟩ | ⟨place, word, rfl, named, -⟩ |
    ⟨place, byte, rfl, -, -⟩ := load?_cases meaning
  · cases register <;> simp_all [Instruction.parts, changes, Keyword.special]
  · cases register <;> simp_all [Instruction.parts, changes, Keyword.special]
  · obtain ⟨word, pair, rfl, pairEq, rfl⟩ | ⟨low, high, rest, rfl, rfl, rfl⟩ :=
      Operand.wordPlace?_cases named
    · obtain ⟨rfl, rfl⟩ | ⟨rfl, rfl⟩ | ⟨register, rfl, rfl⟩ :=
        parts_subset_of_pair? pairEq member
      · simp [regular] at plain
      · simp [changes]
      · simp [changes]
    · simp [Instruction.parts, WordPlace.parts] at member
  · simp [Instruction.parts] at member

theorem covers_of_exchange? {first second : Keyword} {payload : List UInt8}
    {instruction : Instruction} (meaning : exchange? first second = some instruction)
    (plain : regular (.ex, [.keyword first, .keyword second]) = true) (cpu : Cpu) :
    Covers (.ex, [.keyword first, .keyword second]) payload cpu instruction := by
  unfold exchange? at meaning
  split at meaning
  · obtain rfl := Option.some.inj meaning
    exact ⟨rfl, by simp [Instruction.parts, changes]⟩
  · obtain rfl := Option.some.inj meaning
    exact ⟨rfl, by simp [Instruction.parts]⟩
  · obtain ⟨pair, pairEq, rfl⟩ := Option.map_eq_some_iff.mp meaning
    refine ⟨rfl, fun part member => ?_⟩
    obtain ⟨rfl, rfl⟩ | ⟨rfl, rfl⟩ | ⟨register, rfl, rfl⟩ :=
      parts_subset_of_pair? pairEq member
    · simp [regular] at plain
    · simp [regular] at plain
    · simp [changes]
  · simp at meaning

theorem covers_of_count? {mnemonic : Mnemonic} {ofPair : Pair → Instruction}
    {ofPlace : Place → Instruction} {operand : Operand} {payload : List UInt8}
    {instruction : Instruction}
    (counts : mnemonic = .inc ∧ ofPair = .incrementPair ∧ ofPlace = .increment ∨
      mnemonic = .dec ∧ ofPair = .decrementPair ∧ ofPlace = .decrement)
    (meaning : count? ofPair ofPlace operand payload = some instruction)
    (plain : regular (mnemonic, [operand]) = true) (cpu : Cpu) :
    Covers (mnemonic, [operand]) payload cpu instruction := by
  obtain ⟨word, pair, rfl, pairEq, rfl⟩ | ⟨place, named, rfl, unpaired⟩ :=
    count?_cases meaning
  · have empty := Operand.cells_of_pair? pairEq cpu payload
    obtain ⟨rfl, rfl, rfl⟩ | ⟨rfl, rfl, rfl⟩ := counts
    all_goals
      refine ⟨empty.symm, fun part member => ?_⟩
      obtain ⟨rfl, rfl⟩ | ⟨rfl, rfl⟩ | ⟨register, rfl, rfl⟩ :=
        parts_subset_of_pair? pairEq member
      · simp [regular] at plain
      · simp [changes]
      · simp [changes]
  · have cellsEq := Operand.cells_of_place? named cpu
    obtain ⟨rfl, rfl, rfl⟩ | ⟨rfl, rfl, rfl⟩ := counts
    all_goals exact ⟨cellsEq, by simp [Instruction.parts, changes, unpaired]⟩

/-- A form accounts for the instruction that it stands for. -/
theorem covers_of_meaning? {form : Form} {payload : List UInt8} {instruction : Instruction}
    (meaning : form.meaning? payload = some instruction) (plain : regular form = true)
    (cpu : Cpu) : Covers form payload cpu instruction := by
  obtain ⟨mnemonic, operands⟩ := form
  unfold meaning? at meaning
  dsimp only at meaning
  split at meaning
  -- most forms write no cell, or a fixed one, and change no part but the flags
  any_goals
    obtain rfl := Option.some.inj meaning
    refine ⟨rfl, ?_⟩
    simp [Instruction.parts, changes, transfers, condition?]
  any_goals
    obtain ⟨_, _, rfl⟩ := Option.map_eq_some_iff.mp meaning
    refine ⟨rfl, ?_⟩
    simp [Instruction.parts, changes]
    done
  · exact covers_of_load? meaning plain cpu
  · obtain ⟨pair, pairEq, rfl⟩ := Option.map_eq_some_iff.mp meaning
    refine ⟨rfl, List.forall_mem_cons.mpr ⟨rfl, fun part member => ?_⟩⟩
    obtain ⟨rfl, rfl⟩ | ⟨rfl, rfl⟩ | ⟨register, rfl, rfl⟩ :=
      parts_subset_of_pair? pairEq member
    all_goals simp [changes]
  · exact covers_of_exchange? meaning plain cpu
  · simp only [Option.bind_eq_bind, Option.bind_eq_some_iff] at meaning
    obtain ⟨target, targetEq, source, -, equal⟩ := meaning
    obtain rfl := Option.some.inj equal
    refine ⟨rfl, List.forall_mem_cons.mpr ⟨rfl, fun part member => ?_⟩⟩
    obtain ⟨rfl, rfl⟩ | ⟨rfl, rfl⟩ | ⟨register, rfl, rfl⟩ :=
      parts_subset_of_pair? targetEq member
    · rfl
    · simp [regular] at plain
    · simp [changes]
  · exact covers_of_count? (Or.inl ⟨rfl, rfl, rfl⟩) meaning plain cpu
  · exact covers_of_count? (Or.inr ⟨rfl, rfl, rfl⟩) meaning plain cpu
  iterate 10
    obtain ⟨place, named, rfl⟩ := Option.map_eq_some_iff.mp meaning
    exact ⟨Operand.cells_of_place? named cpu, by simp [Instruction.parts, changes]⟩
  · obtain ⟨target, rfl⟩ := toWord?_cases meaning .jp
    exact ⟨rfl, by simp [Instruction.parts]⟩
  · simp only [Option.bind_eq_bind, Option.bind_eq_some_iff] at meaning
    obtain ⟨condition, -, displacement, -, equal⟩ := meaning
    obtain rfl := Option.some.inj equal
    exact ⟨rfl, by simp [Instruction.parts]⟩
  · obtain ⟨target, rfl⟩ := toWord?_cases meaning .call
    refine ⟨rfl, ?_⟩
    simp [Instruction.parts, changes, transfers]
  · obtain ⟨condition, named, rfl⟩ := Option.map_eq_some_iff.mp meaning
    refine ⟨rfl, ?_⟩
    simp [Instruction.parts, changes, transfers, condition?, named]
  · rename_i operand
    have restarts : meaning? (.rst, [operand]) payload = some instruction := meaning
    obtain ⟨address, rfl⟩ := restart_of_meaning? restarts
    exact ⟨rfl, by simp [Instruction.parts, changes]⟩
  · simp at meaning

end Form

namespace Cpu

/-- A step leaves almost everything alone.  A halted processor stays as it is, and a
fault moves the program counter alone.  An instruction writes the cells of its form,
as the processor stood before the step, and no others; it changes the shadows, the
special registers, the interrupt settings, the stack pointer, the index registers and
the flags only if its form says so, and an index register only behind the lead byte
of that register; and the processor halts at a halt alone. -/
theorem step_frame (cpu : Cpu) (memory : Memory) :
    (cpu.halted = true → (cpu.step memory).toEffect = { cpu := cpu }) ∧
    (cpu.halted = false →
      let step := cpu.step memory
      match Table.lookup? memory cpu.pc with
      | none => step.toEffect = { cpu := cpu.goto (cpu.pc + 1) }
      | some entry =>
          let form : Form := (entry.mnemonic, entry.operands)
          let cells := form.cells cpu (entry.payloadAt memory cpu.pc)
          step.writes.map Write.address = cells ∧
          (∀ address ∉ cells,
            (memory.perform step.writes).read address = memory.read address) ∧
          (∀ part, form.changes cpu part = false → part.Same cpu step.cpu) ∧
          (∀ register, memory.read cpu.pc ≠ register.leadByte →
            step.cpu.index register = cpu.index register) ∧
          step.cpu.halted = (entry.mnemonic == .halt)) := by
  refine ⟨fun halted => by simp [step, halted], fun running => ?_⟩
  dsimp only
  split
  · rename_i missing
    obtain ⟨count, -, stepped⟩ := step_of_lookup?_none running missing
    rw [stepped]
  · rename_i entry found
    have member := Table.mem_entries_of_lookup? found
    obtain ⟨instruction, meaning, stepped⟩ := step_of_lookup?_some running found
    rw [stepped]
    generalize cpu.pc + UInt16.ofNat entry.length = next
    have covers := Form.covers_of_meaning? meaning (Form.regular_of_mem member)
      (cpu.goto next)
    have addresses : ((cpu.goto next).execute memory instruction).writes.map Write.address =
        Form.cells (entry.mnemonic, entry.operands) cpu (entry.payloadAt memory cpu.pc) := by
      rw [addresses_execute]
      exact covers.cells
    have spared (part : Part)
        (unchanged : Form.changes (entry.mnemonic, entry.operands) cpu part = false) :
        part.Same cpu ((cpu.goto next).execute memory instruction).cpu := by
      refine Part.same_trans (Part.same_goto cpu part next) (Part.same_execute _ memory ?_)
      intro inside
      have changed : Form.changes (entry.mnemonic, entry.operands) cpu part = true :=
        covers.parts part inside
      rw [changed] at unchanged
      simp at unchanged
    refine ⟨addresses, fun address outside => ?_, spared, fun register other => ?_, ?_⟩
    · exact Memory.read_perform_of_notMem (addresses ▸ outside)
    · -- a form that changed the register would stand on the page of its lead byte
      apply spared (.index register)
      rw [← Bool.not_eq_true]
      intro changed
      obtain ⟨lead, -⟩ := (Table.selected_of_lookup? found).2
      rw [Form.page_of_changes member changed] at lead
      exact other (List.cons.inj lead).1
    · obtain ⟨page, opcode, mnemonic, operands⟩ := entry
      by_cases halts : mnemonic = .halt
      · subst halts
        cases operands with
        | nil =>
            obtain rfl := Option.some.inj meaning
            rfl
        | cons operand rest => simp [Form.meaning?, Entry.meaning?] at meaning
      · have same := spared .halted (by simp [Form.changes, halts])
        rw [beq_eq_false_iff_ne.mpr halts]
        exact same.trans running

/-- A push that runs over the first address writes the last one, and the flags stay. -/
theorem step_frame_push :
    let memory := ((Memory.zero.write 0xFFFE 0xDD).write 0xFFFF 0xE5)
    let cpu : Cpu := { pc := 0xFFFE, sp := 0x0001, ix := 0x1234 }
    cpu.halted = false ∧
      (cpu.step memory).writes.map Write.address = [0x0000, 0xFFFF] ∧
      (∀ address ∉ [(0x0000 : UInt16), 0xFFFF],
        (memory.perform (cpu.step memory).writes).read address = memory.read address) ∧
      (cpu.step memory).cpu.main.flags = cpu.main.flags ∧
      (cpu.step memory).cpu.index .iy = cpu.index .iy := by
  intro memory cpu
  have stored : memory.slice 0xFFFE 2 = [0xDD, 0xE5] := by
    simp [memory, Memory.slice, Memory.read_write]
  have sized : ([] : List UInt8).length =
      Entry.payloadSize ⟨.indexed .ix, 0xE5, .push, [.keyword .ix]⟩ := rfl
  have found : Table.lookup? memory cpu.pc =
      some ⟨.indexed .ix, 0xE5, .push, [.keyword .ix]⟩ :=
    Entry.lookup?_of_slice (Table.mem_entries.mpr (by decide)) sized stored
  have lead : memory.read cpu.pc = 0xDD := (List.cons.inj stored).1
  have running : cpu.halted = false := rfl
  have cells (payload : List UInt8) :
      Form.cells (.push, [.keyword .ix]) cpu payload = [0x0000, 0xFFFF] := by
    change [(0x0001 : UInt16) - 1, 0x0001 - 2] = _
    decide
  clear_value memory
  have frame := (step_frame cpu memory).2 running
  rw [found] at frame
  dsimp only at frame
  rw [cells] at frame
  obtain ⟨addresses, others, spared, indices, -⟩ := frame
  have flags := spared .flags rfl
  have iy := indices .iy (by rw [lead]; decide)
  exact ⟨rfl, addresses, others, flags, iy⟩

end Cpu

end Z80
