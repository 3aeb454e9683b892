import Z80.Proofs.TableEntries
import Z80.Instruction.Fetch
import Mathlib.Data.Fintype.Basic
import Mathlib.Tactic.FinCases

/-!
# What the forms of the table mean

A form of the opcode table, with the bytes that fill in its operands, stands for
an instruction.  This file reads that instruction off the mnemonic and the
operands alone, and shows that fetching arrives at the same instruction by
opcodes: it takes exactly the operand bytes of the form, and it fails exactly
where the table has no form.
-/

namespace Z80

namespace Keyword

/-- The place of a byte that a keyword names. -/
def place? : Keyword → Option Place
  | .a => some (.register .a)
  | .b => some (.register .b)
  | .c => some (.register .c)
  | .d => some (.register .d)
  | .e => some (.register .e)
  | .h => some (.register .h)
  | .l => some (.register .l)
  | .atBC => some (.cell .bc)
  | .atDE => some (.cell .de)
  | .atHL => some (.cell .hl)
  | _ => none

/-- The pair that a keyword names. -/
def pair? : Keyword → Option Pair
  | .af => some .af
  | .bc => some .bc
  | .de => some .de
  | .hl => some .hl
  | .sp => some .sp
  | .ix => some (.index .ix)
  | .iy => some (.index .iy)
  | _ => none

/-- The pair whose content a jump through a keyword leads to. -/
def target? : Keyword → Option Pair
  | .atHL => some .hl
  | .atIX => some (.index .ix)
  | .atIY => some (.index .iy)
  | _ => none

/-- The name of a special register. -/
def special : SpecialRegister → Keyword
  | .i => .i
  | .r => .r

/-- The condition that a keyword names. -/
def condition? : Keyword → Option Condition
  | .nz => some .notZero
  | .z => some .zero
  | .nc => some .noCarry
  | .c => some .carry
  | .po => some .parityOdd
  | .pe => some .parityEven
  | .p => some .positive
  | .m => some .negative
  | _ => none

end Keyword

namespace Operand

/-- The place of a byte that an operand names. -/
def place? : Operand → List UInt8 → Option Place
  | .keyword fixed, _ => fixed.place?
  | .cell, low :: high :: _ => some (.cell (.absolute (wordOfBytes high low)))
  | .indexed register, displacement :: _ => some (.cell (.indexed register displacement))
  | _, _ => none

/-- The source of a byte that an operand names. -/
def source? : Operand → List UInt8 → Option Source
  | .byte, value :: _ => some (.constant value)
  | operand, payload => (operand.place? payload).map .place

/-- The place of a word that an operand names. -/
def wordPlace? : Operand → List UInt8 → Option WordPlace
  | .keyword fixed, _ => fixed.pair?.map .pair
  | .cell, low :: high :: _ => some (.cells (wordOfBytes high low))
  | _, _ => none

/-- The source of a word that an operand names. -/
def wordSource? : Operand → List UInt8 → Option WordSource
  | .word, low :: high :: _ => some (.constant (wordOfBytes high low))
  | operand, payload => (operand.wordPlace? payload).map .place

end Operand

namespace Form

/-- How many bytes fill in the operands of a form. -/
def size (form : Form) : Nat :=
  Operand.totalSize form.2

/-- The load from one operand to another: of a special register, of a word if
both operands can be words, and otherwise of a byte. -/
def load? (target source : Operand) (payload : List UInt8) : Option Instruction :=
  match target, source with
  | .keyword .i, .keyword .a => some (.writeSpecial .i)
  | .keyword .r, .keyword .a => some (.writeSpecial .r)
  | .keyword .a, .keyword .i => some (.readSpecial .i)
  | .keyword .a, .keyword .r => some (.readSpecial .r)
  | target, source =>
      let rest := payload.drop target.size
      match target.wordPlace? payload, source.wordSource? rest with
      | some place, some word => some (.loadWord place word)
      | _, _ => do
          let place ← target.place? payload
          let byte ← source.source? rest
          return .load place byte

/-- The exchange of two operands. -/
def exchange? : Keyword → Keyword → Option Instruction
  | .af, .afShadow => some .exchangeAF
  | .de, .hl => some .exchangeDEHL
  | .atSP, word => word.pair?.map .exchangeStackTop
  | _, _ => none

/-- The jump, call or return on a condition, if there is one, to a word. -/
def toWord? (complete : Option Condition → UInt16 → Instruction) :
    List Operand → List UInt8 → Option Instruction
  | [.word], [low, high] => some (complete none (wordOfBytes high low))
  | [.keyword word, .word], [low, high] =>
      word.condition?.map fun condition =>
        complete (some condition) (wordOfBytes high low)
  | _, _ => none

/-- The operation between the accumulator and an operand. -/
def accumulate? (operation : Operation) (operand : Operand) (payload : List UInt8) :
    Option Instruction :=
  (operand.source? payload).map (.accumulate operation)

/-- The step up or down of a pair or a byte. -/
def count? (ofPair : Pair → Instruction) (ofPlace : Place → Instruction)
    (operand : Operand) (payload : List UInt8) : Option Instruction :=
  match operand with
  | .keyword word =>
      match word.pair? with
      | some pair => some (ofPair pair)
      | none => word.place?.map ofPlace
  | operand => (operand.place? payload).map ofPlace

/-- The restart at the address that an operand fixes. -/
def restart? : Operand → Option Instruction
  | .vector address => some (.restart address.toUInt16)
  | _ => none

/-- The instruction that a form stands for, given its operand bytes. -/
def meaning? (form : Form) (payload : List UInt8) : Option Instruction :=
  match form.1, form.2 with
  | .nop, [] => some .nop
  | .halt, [] => some .halt
  | .di, [] => some .disableInterrupts
  | .ei, [] => some .enableInterrupts
  | .im, [.digit mode] => some (.setInterruptMode (InterruptMode.ofNumber mode))
  | .ld, [target, source] => load? target source payload
  | .push, [.keyword word] => word.pair?.map .push
  | .pop, [.keyword word] => word.pair?.map .pop
  | .ex, [.keyword first, .keyword second] => exchange? first second
  | .exx, [] => some .exchangePairs
  | .add, [.keyword .a, operand] => accumulate? .add operand payload
  | .add, [.keyword target, .keyword source] => do
      return .addPair (← target.pair?) (← source.pair?)
  | .adc, [.keyword .a, operand] => accumulate? .addCarry operand payload
  | .adc, [.keyword .hl, .keyword source] => source.pair?.map .addCarryPair
  | .sub, [operand] => accumulate? .subtract operand payload
  | .sbc, [.keyword .a, operand] => accumulate? .subtractCarry operand payload
  | .sbc, [.keyword .hl, .keyword source] => source.pair?.map .subtractCarryPair
  | .and, [operand] => accumulate? .and operand payload
  | .xor, [operand] => accumulate? .xor operand payload
  | .or, [operand] => accumulate? .or operand payload
  | .cp, [operand] => accumulate? .compare operand payload
  | .inc, [operand] => count? .incrementPair .increment operand payload
  | .dec, [operand] => count? .decrementPair .decrement operand payload
  | .rlca, [] => some (.rotateAccumulator .rlc)
  | .rrca, [] => some (.rotateAccumulator .rrc)
  | .rla, [] => some (.rotateAccumulator .rl)
  | .rra, [] => some (.rotateAccumulator .rr)
  | .rlc, [operand] => (operand.place? payload).map (.rotate .rlc)
  | .rrc, [operand] => (operand.place? payload).map (.rotate .rrc)
  | .rl, [operand] => (operand.place? payload).map (.rotate .rl)
  | .rr, [operand] => (operand.place? payload).map (.rotate .rr)
  | .sla, [operand] => (operand.place? payload).map (.rotate .sla)
  | .sra, [operand] => (operand.place? payload).map (.rotate .sra)
  | .sll, [operand] => (operand.place? payload).map (.rotate .sll)
  | .srl, [operand] => (operand.place? payload).map (.rotate .srl)
  | .bit, [.digit position, operand] => (operand.place? payload).map (.testBit position)
  | .res, [.digit position, operand] => (operand.place? payload).map (.resetBit position)
  | .set, [.digit position, operand] => (operand.place? payload).map (.setBit position)
  | .daa, [] => some .decimalAdjust
  | .cpl, [] => some .complement
  | .neg, [] => some .negate
  | .scf, [] => some .setCarry
  | .ccf, [] => some .complementCarry
  | .rld, [] => some .rotateDigitLeft
  | .rrd, [] => some .rotateDigitRight
  | .jp, [.keyword word] => word.target?.map .jumpTo
  | .jp, operands => toWord? .jump operands payload
  | .jr, [.relative] => payload.head?.map (.jumpRelative none)
  | .jr, [.keyword word, .relative] => do
      return .jumpRelative (some (← word.condition?)) (← payload.head?)
  | .djnz, [.relative] => payload.head?.map .decrementJump
  | .call, operands => toWord? .call operands payload
  | .ret, [] | .retn, [] | .reti, [] => some (.ret none)
  | .ret, [.keyword word] => word.condition?.map fun condition => .ret (some condition)
  | .rst, [operand] => restart? operand
  | .ldi, [] => some (.copyBlock .up false)
  | .ldd, [] => some (.copyBlock .down false)
  | .ldir, [] => some (.copyBlock .up true)
  | .lddr, [] => some (.copyBlock .down true)
  | .cpi, [] => some (.compareBlock .up false)
  | .cpd, [] => some (.compareBlock .down false)
  | .cpir, [] => some (.compareBlock .up true)
  | .cpdr, [] => some (.compareBlock .down true)
  | _, _ => none

end Form

namespace Instruction

/-- A fetch takes exactly the operand bytes of a form and arrives at its meaning;
without a form it takes nothing and fails. -/
def Reads (fetch : Fetch (Option Instruction)) (form? : Option Form) : Prop :=
  ∀ memory address,
    match form? with
    | none => fetch memory address = (none, address)
    | some form => ∃ instruction,
        form.meaning? (memory.slice address form.size) = some instruction ∧
          fetch memory address = (some instruction, address + UInt16.ofNat form.size)

theorem reads_unknown : Reads unknown none :=
  fun _ _ => rfl

theorem reads_plain {form : Form} {instruction : Instruction} (size : form.size = 0)
    (meaning : form.meaning? [] = some instruction) :
    Reads (plain instruction) (some form) := by
  intro memory address
  refine ⟨instruction, ?_, ?_⟩
  · rw [size]
    exact meaning
  · rw [size]
    exact congrArg (Prod.mk _) (UInt16.add_zero address).symm

theorem reads_withByte {form : Form} {complete : UInt8 → Instruction}
    (size : form.size = 1)
    (meaning : ∀ byte, form.meaning? [byte] = some (complete byte)) :
    Reads (withByte complete) (some form) := by
  intro memory address
  refine ⟨complete (memory.read address), ?_, ?_⟩
  · rw [size]
    exact meaning _
  · rw [size]
    rfl

theorem reads_withWord {form : Form} {complete : UInt16 → Instruction}
    (size : form.size = 2)
    (meaning : ∀ low high,
      form.meaning? [low, high] = some (complete (wordOfBytes high low))) :
    Reads (withWord complete) (some form) := by
  intro memory address
  refine ⟨complete (wordOfBytes (memory.read (address + 1)) (memory.read address)),
    ?_, ?_⟩
  · rw [size]
    exact meaning _ _
  · rw [size]
    exact congrArg (Prod.mk _) (UInt16.add_assoc address 1 1)

theorem fetchLow_reads (opcode : UInt8) :
    Reads (fetchLow opcode) (some (Table.lowForm opcode)) := by
  unfold fetchLow Table.lowForm
  generalize Fields.last opcode = last
  generalize Fields.middle opcode = middle
  generalize Fields.pair opcode = pair
  generalize Fields.second opcode = second
  fin_cases last
  · fin_cases middle
    · exact reads_plain rfl rfl
    · exact reads_plain rfl rfl
    all_goals exact reads_withByte rfl fun _ => rfl
  · cases second with
    | false => fin_cases pair <;> exact reads_withWord rfl fun _ _ => rfl
    | true => fin_cases pair <;> exact reads_plain rfl rfl
  · fin_cases middle
    · exact reads_plain rfl rfl
    · exact reads_plain rfl rfl
    · exact reads_plain rfl rfl
    · exact reads_plain rfl rfl
    all_goals exact reads_withWord rfl fun _ _ => rfl
  · cases second <;> fin_cases pair <;> exact reads_plain rfl rfl
  · fin_cases middle <;> exact reads_plain rfl rfl
  · fin_cases middle <;> exact reads_plain rfl rfl
  · fin_cases middle <;> exact reads_withByte rfl fun _ => rfl
  · fin_cases middle <;> exact reads_plain rfl rfl

theorem fetchHigh_reads (opcode : UInt8) :
    Reads (fetchHigh opcode) (Table.highForm? opcode) := by
  unfold fetchHigh Table.highForm?
  generalize Fields.last opcode = last
  generalize Fields.middle opcode = middle
  generalize Fields.pair opcode = pair
  fin_cases last
  · fin_cases middle <;> exact reads_plain rfl rfl
  · fin_cases middle
    · fin_cases pair <;> exact reads_plain rfl rfl
    · exact reads_plain rfl rfl
    · fin_cases pair <;> exact reads_plain rfl rfl
    · exact reads_plain rfl rfl
    · fin_cases pair <;> exact reads_plain rfl rfl
    · exact reads_plain rfl rfl
    · fin_cases pair <;> exact reads_plain rfl rfl
    · exact reads_plain rfl rfl
  · fin_cases middle <;> exact reads_withWord rfl fun _ _ => rfl
  · fin_cases middle
    · exact reads_withWord rfl fun _ _ => rfl
    · exact reads_unknown
    · exact reads_unknown
    · exact reads_unknown
    all_goals exact reads_plain rfl rfl
  · fin_cases middle <;> exact reads_withWord rfl fun _ _ => rfl
  · fin_cases middle
    · fin_cases pair <;> exact reads_plain rfl rfl
    · exact reads_withWord rfl fun _ _ => rfl
    · fin_cases pair <;> exact reads_plain rfl rfl
    · exact reads_unknown
    · fin_cases pair <;> exact reads_plain rfl rfl
    · exact reads_unknown
    · fin_cases pair <;> exact reads_plain rfl rfl
    · exact reads_unknown
  · fin_cases middle <;> exact reads_withByte rfl fun _ => rfl
  · exact reads_plain rfl rfl

theorem fetchBase_reads (opcode : UInt8) :
    Reads (fetchBase opcode) (Table.baseForm? opcode) := by
  unfold fetchBase Table.baseForm?
  generalize Fields.group opcode = group
  fin_cases group
  · exact fetchLow_reads opcode
  · by_cases halt : opcode = 0x76
    · simp only [halt, if_true]
      exact reads_plain rfl rfl
    · simp only [halt, if_false]
      generalize Fields.middle opcode = middle
      generalize Fields.last opcode = last
      fin_cases middle <;> fin_cases last <;> exact reads_plain rfl rfl
  · generalize Fields.middle opcode = middle
    generalize Fields.last opcode = last
    fin_cases middle <;> fin_cases last <;> exact reads_plain rfl rfl
  · exact fetchHigh_reads opcode

/-- The meaning of a form of the bit pages is the instruction on the place that
its operand names. -/
theorem meaning?_bitForm (opcode : UInt8) {operand : Operand} {payload : List UInt8}
    {target : Place} (named : operand.place? payload = some target) :
    Form.meaning? (Table.bitForm opcode operand) payload =
      some (ofBitOpcode opcode target) := by
  unfold Table.bitForm ofBitOpcode
  generalize Fields.group opcode = group
  generalize Fields.middle opcode = position
  fin_cases group
  · fin_cases position <;> exact congrArg (Option.map _) named
  all_goals exact congrArg (Option.map _) named

theorem bitOpcode_reads (opcode : UInt8) :
    Reads (plain (ofBitOpcode opcode (place (Fields.last opcode))))
      (some (Table.bitForm opcode (.keyword (Table.place (Fields.last opcode))))) := by
  apply reads_plain
  · unfold Table.bitForm
    split <;> rfl
  · apply meaning?_bitForm
    generalize Fields.last opcode = last
    fin_cases last <;> rfl

/-- The opcodes of the extended page that stand for an instruction. -/
def extendedOpcodes : List UInt8 :=
  [0x42, 0x43, 0x44, 0x45, 0x46, 0x47, 0x4A, 0x4B, 0x4D, 0x4F, 0x52, 0x53, 0x56, 0x57,
    0x5A, 0x5B, 0x5E, 0x5F, 0x62, 0x63, 0x67, 0x6A, 0x6B, 0x6F, 0x72, 0x73, 0x7A, 0x7B,
    0xA0, 0xA1, 0xA8, 0xA9, 0xB0, 0xB1, 0xB8, 0xB9]

theorem extendedForm?_eq_none {opcode : UInt8} (unlisted : opcode ∉ extendedOpcodes) :
    Table.extendedForm? opcode = none := by
  -- a Boolean run over the list visits each opcode once, whatever instances of
  -- finiteness are in scope; most have no form, so the listed ones are seldom searched
  have every : Table.opcodes.all fun opcode =>
      Table.extendedForm? opcode = none ∨ opcode ∈ extendedOpcodes := by decide +kernel
  have either := List.all_eq_true.mp every opcode (Table.mem_opcodes opcode)
  exact (of_decide_eq_true either).resolve_right unlisted

theorem fetchExtended_reads (opcode : UInt8) :
    Reads (fetchExtended opcode) (Table.extendedForm? opcode) := by
  unfold fetchExtended
  split
  any_goals exact reads_plain rfl rfl
  any_goals exact reads_withWord rfl fun _ _ => rfl
  -- what remains are the opcodes that are not listed
  rw [extendedForm?_eq_none (by simp_all [extendedOpcodes])]
  exact reads_unknown

/-- The opcodes of the index pages that do not follow the fields of the opcode. -/
def indexedOpcodes : List UInt8 :=
  [0x09, 0x19, 0x29, 0x39, 0x21, 0x22, 0x2A, 0x23, 0x2B, 0x34, 0x35, 0x36, 0xE1, 0xE3,
    0xE5, 0xE9, 0xF9]

/-- The forms of the index pages that follow the fields of the opcode. -/
def regularForm? (register : IndexRegister) (opcode : UInt8) : Option Form :=
  let middle := Fields.middle opcode
  let last := Fields.last opcode
  if Fields.group opcode = 1 ∧ last = 6 ∧ middle ≠ 6 then
    some (.ld, [.keyword (Table.place middle), .indexed register])
  else if Fields.group opcode = 1 ∧ middle = 6 ∧ last ≠ 6 then
    some (.ld, [.indexed register, .keyword (Table.place last)])
  else if Fields.group opcode = 2 ∧ last = 6 then
    some (Table.operation middle (.indexed register))
  else
    none

theorem indexedForm?_eq_regularForm? (register : IndexRegister) {opcode : UInt8}
    (unlisted : opcode ∉ indexedOpcodes) :
    Table.indexedForm? register opcode = regularForm? register opcode := by
  unfold Table.indexedForm? regularForm?
  dsimp only
  split
  all_goals try exact absurd (by decide) unlisted
  -- what remains are the opcodes that follow their fields
  split
  · rename_i group
    by_cases middle : Fields.middle opcode = 6 <;> by_cases last : Fields.last opcode = 6 <;>
      simp [group, middle, last]
  · rename_i group
    simp [group]
  · rename_i notOne notTwo
    rw [if_neg (fun holds => notOne holds.1), if_neg (fun holds => notOne holds.1),
      if_neg (fun holds => notTwo holds.1)]

theorem reads_displacement_byte {form : Form} {complete : UInt8 → UInt8 → Instruction}
    (size : form.size = 2)
    (meaning : ∀ displacement byte,
      form.meaning? [displacement, byte] = some (complete displacement byte)) :
    Reads (do let displacement ← Fetch.byte; withByte (complete displacement))
      (some form) := by
  intro memory address
  refine ⟨complete (memory.read address) (memory.read (address + 1)), ?_, ?_⟩
  · rw [size]
    exact meaning _ _
  · rw [size]
    exact congrArg (Prod.mk _) (UInt16.add_assoc address 1 1)

theorem fetchIndexed_reads (register : IndexRegister) (opcode : UInt8) :
    Reads (fetchIndexed register opcode) (Table.indexedForm? register opcode) := by
  unfold fetchIndexed
  dsimp only
  split
  any_goals cases register <;> exact reads_plain rfl rfl
  any_goals cases register <;> exact reads_withByte rfl fun _ => rfl
  any_goals cases register <;> exact reads_withWord rfl fun _ _ => rfl
  any_goals exact reads_displacement_byte rfl fun _ _ => rfl
  -- what remains are the opcodes that follow their fields
  rw [indexedForm?_eq_regularForm? register (by simp_all [indexedOpcodes])]
  unfold regularForm?
  dsimp only
  generalize Fields.middle opcode = middle
  generalize Fields.last opcode = last
  split
  · fin_cases middle <;> exact reads_withByte rfl fun _ => rfl
  · split
    · fin_cases last <;> exact reads_withByte rfl fun _ => rfl
    · split
      · fin_cases middle <;> exact reads_withByte rfl fun _ => rfl
      · exact reads_unknown

end Instruction

namespace Entry

/-- The instruction that an entry stands for, given its operand bytes. -/
def meaning? (entry : Entry) (payload : List UInt8) : Option Instruction :=
  Form.meaning? (entry.mnemonic, entry.operands) payload

end Entry

namespace Instruction

/-- A fetch at an address agrees with an entry there: it takes as many bytes as
the entry has and arrives at what the entry stands for.  Without an entry it
fails after one, two or four bytes. -/
def Agrees (memory : Memory) (address : UInt16) (found : Option Entry)
    (fetched : Option Instruction × UInt16) : Prop :=
  match found with
  | none => ∃ count ∈ [1, 2, 4], fetched = (none, address + UInt16.ofNat count)
  | some entry => ∃ instruction,
      entry.meaning? (entry.payloadAt memory address) = some instruction ∧
        fetched = (some instruction, address + UInt16.ofNat entry.length)

/-- Behind the bytes that select a page, reading by form is agreeing by entry. -/
theorem agrees_of_reads {memory : Memory} {address : UInt16} {page : Page}
    {opcode : UInt8} {fetch : Fetch (Option Instruction)}
    (reads : Reads fetch (Table.form? page opcode))
    (later : page.displacementFirst = false) {skipped : Nat}
    (lead : skipped = page.leadBytes.length + 1) (few : skipped ∈ [1, 2, 4]) :
    Agrees memory address (Table.get? page opcode)
      (fetch memory (address + UInt16.ofNat skipped)) := by
  have result := reads memory (address + UInt16.ofNat skipped)
  cases formEq : Table.form? page opcode with
  | none =>
      rw [formEq] at result
      simp only [Table.get?, formEq, Option.map_none]
      exact ⟨skipped, few, result⟩
  | some form =>
      rw [formEq] at result
      obtain ⟨instruction, meaning, fetched⟩ := result
      simp only [Table.get?, formEq, Option.map_some]
      refine ⟨instruction, ?_, ?_⟩
      · unfold Entry.payloadAt Entry.payloadOffset
        simp only [later, Bool.false_eq_true, if_false, ← lead]
        exact meaning
      · rw [fetched, UInt16.add_assoc, ← UInt16.ofNat_add, lead]
        rfl

theorem fetchIndexedBit_agrees (memory : Memory) (address : UInt16)
    (register : IndexRegister) :
    Agrees memory address
      (Table.get? (.indexedBits register) (memory.read (address + 3)))
      (fetchIndexedBit register memory (address + 2)) := by
  have third : address + 2 + 1 = address + 3 := UInt16.add_assoc address 2 1
  have fourth : address + 3 + 1 = address + 4 := UInt16.add_assoc address 3 1
  have taken : fetchIndexedBit register memory (address + 2) =
      (if Fields.last (memory.read (address + 3)) = 6 then
        plain (ofBitOpcode (memory.read (address + 3))
          (.cell (.indexed register (memory.read (address + 2)))))
      else unknown) memory (address + 4) := by
    rw [← fourth, ← third]
    rfl
  rw [taken]
  by_cases defined : Fields.last (memory.read (address + 3)) = 6
  · obtain ⟨entry, found⟩ : ∃ entry,
        Table.get? (.indexedBits register) (memory.read (address + 3)) = some entry := by
      simp [Table.get?, Table.form?, defined]
    have size := Table.payloadSize_indexedBits found
    rw [found, if_pos defined]
    simp only [Table.get?, Table.form?, defined, if_true, Option.map_some,
      Option.some.injEq] at found
    subst found
    let near := Place.cell (.indexed register (memory.read (address + 2)))
    refine ⟨ofBitOpcode (memory.read (address + 3)) near, meaning?_bitForm _ ?_, ?_⟩
    · unfold Entry.payloadAt
      rw [size]
      rfl
    · unfold Entry.length
      rw [size]
      rfl
  · simp only [Table.get?, Table.form?, defined, if_false, Option.map_none]
    exact ⟨4, by simp, rfl⟩

/-- Finish an instruction whose first byte has been taken. -/
def fetchAfter (first : UInt8) : Fetch (Option Instruction) :=
  if first = 0xCB then do
    let opcode ← Fetch.byte
    plain (ofBitOpcode opcode (place (Fields.last opcode)))
  else if first = 0xED then do
    let opcode ← Fetch.byte
    fetchExtended opcode
  else
    match IndexRegister.ofLeadByte? first with
    | some register => do
        let opcode ← Fetch.byte
        if opcode = 0xCB then fetchIndexedBit register
        else fetchIndexed register opcode
    | none => fetchBase first

theorem fetch_eq_fetchAfter (memory : Memory) (address : UInt16) :
    fetch memory address = fetchAfter (memory.read address) memory (address + 1) :=
  rfl

/-- Fetching agrees with the table at every address. -/
theorem fetch_agrees (memory : Memory) (address : UInt16) :
    Agrees memory address (Table.lookup? memory address) (fetch memory address) := by
  have second : address + 1 + 1 = address + 2 := UInt16.add_assoc address 1 1
  rw [fetch_eq_fetchAfter]
  unfold Table.lookup? fetchAfter
  dsimp only
  split
  · change Agrees _ _ _ (plain (ofBitOpcode (memory.read (address + 1))
      (place (Fields.last (memory.read (address + 1))))) memory (address + 1 + 1))
    rw [second]
    exact agrees_of_reads (bitOpcode_reads _) rfl rfl (by simp)
  · split
    · change Agrees _ _ _
        (fetchExtended (memory.read (address + 1)) memory (address + 1 + 1))
      rw [second]
      exact agrees_of_reads (fetchExtended_reads _) rfl rfl (by simp)
    · split
      · rename_i register first
        rw [first]
        change Agrees _ _ _ ((if memory.read (address + 1) = 0xCB then
            fetchIndexedBit register
          else fetchIndexed register (memory.read (address + 1)))
            memory (address + 1 + 1))
        rw [second]
        split
        · exact fetchIndexedBit_agrees memory address register
        · exact agrees_of_reads (fetchIndexed_reads register _) rfl rfl (by simp)
      · rename_i first
        rw [first]
        exact agrees_of_reads (fetchBase_reads _) rfl rfl (by simp)

end Instruction

end Z80
