import Z80.Proofs.StepFrame

/-!
# The index pages

An instruction of an index page is made like one of the unprefixed page.  Where
it has no displacement, it does what its model does when the index register
takes the place of HL for one step.  Where it has one, it does what its model
does when the cell near the index register takes the place of the one at HL;
H and L themselves stay what they are.
-/

namespace Z80

/-! ## An index register in place of HL -/

namespace Cpu

/-- Put the content of an index register into HL. -/
def indexToHL (cpu : Cpu) (register : IndexRegister) : Cpu :=
  { cpu with main := cpu.main.setHL (cpu.index register) }

/-- Move the content of HL to an index register, and put another word into HL. -/
def hlToIndex (cpu : Cpu) (register : IndexRegister) (word : UInt16) : Cpu :=
  { cpu.setIndex register cpu.main.hl with main := cpu.main.setHL word }

theorem hlToIndex_indexToHL (cpu : Cpu) (register : IndexRegister) :
    (cpu.indexToHL register).hlToIndex register cpu.main.hl = cpu := by
  cases register <;>
    simp [hlToIndex, indexToHL, setIndex, index, Bank.setHL, Bank.hl]

end Cpu

/-- The pair that takes the place of a pair, if an index register does of HL. -/
def Pair.onIndex? (register : IndexRegister) : Pair → Option Pair
  | .hl => some (.index register)
  | .index _ => none
  | pair => some pair

def WordPlace.onIndex? (register : IndexRegister) : WordPlace → Option WordPlace
  | .pair words => (words.onIndex? register).map .pair
  | .cells address => some (.cells address)

def WordSource.onIndex? (register : IndexRegister) : WordSource → Option WordSource
  | .place words => (words.onIndex? register).map .place
  | .constant word => some (.constant word)

/-- The instruction with an index register in place of HL, if it acts on pairs as
such and finds HL by its operands alone. -/
def Instruction.onIndex? (register : IndexRegister) : Instruction → Option Instruction
  | .loadWord target source => do
      return .loadWord (← target.onIndex? register) (← source.onIndex? register)
  | .push pair => (pair.onIndex? register).map .push
  | .pop pair => (pair.onIndex? register).map .pop
  | .exchangeStackTop pair => (pair.onIndex? register).map .exchangeStackTop
  | .incrementPair pair => (pair.onIndex? register).map .incrementPair
  | .decrementPair pair => (pair.onIndex? register).map .decrementPair
  | .addPair target source => do
      return .addPair (← target.onIndex? register) (← source.onIndex? register)
  | .jumpTo pair => (pair.onIndex? register).map .jumpTo
  | _ => none

namespace Cpu

variable (cpu : Cpu) (register : IndexRegister) (word : UInt16)

@[simp] theorem flags_hlToIndex :
    (cpu.hlToIndex register word).main.flags = cpu.main.flags := rfl

@[simp] theorem sp_hlToIndex : (cpu.hlToIndex register word).sp = cpu.sp := by
  cases register <;> rfl

@[simp] theorem setFlags_hlToIndex (flags : Flags) :
    (cpu.hlToIndex register word).setFlags flags =
      (cpu.setFlags flags).hlToIndex register word := by
  cases register <;> rfl

@[simp] theorem goto_hlToIndex (target : UInt16) :
    (cpu.hlToIndex register word).goto target =
      (cpu.goto target).hlToIndex register word := by
  cases register <;> rfl

theorem push_hlToIndex (value : UInt16) :
    (cpu.hlToIndex register word).push value =
      { cpu := (cpu.push value).cpu.hlToIndex register word
        writes := (cpu.push value).writes } := by
  cases register <;> rfl

theorem pop_hlToIndex (memory : Memory) :
    (cpu.hlToIndex register word).pop memory =
      ((cpu.pop memory).1, (cpu.pop memory).2.hlToIndex register word) := by
  cases register <;> rfl

theorem pair_onIndex {pair mirror : Pair} (mirrored : pair.onIndex? register = some mirror) :
    (cpu.hlToIndex register word).pair mirror = cpu.pair pair := by
  cases pair with
  | index other => simp [Pair.onIndex?] at mirrored
  | hl =>
      obtain rfl := Option.some.inj mirrored
      cases register <;> rfl
  | _ =>
      obtain rfl := Option.some.inj mirrored
      cases register <;> rfl

theorem setPair_onIndex {pair mirror : Pair}
    (mirrored : pair.onIndex? register = some mirror) (value : UInt16) :
    (cpu.hlToIndex register word).setPair mirror value =
      (cpu.setPair pair value).hlToIndex register word := by
  cases pair with
  | index other => simp [Pair.onIndex?] at mirrored
  | hl =>
      obtain rfl := Option.some.inj mirrored
      cases register <;> simp [hlToIndex, setPair, setIndex, Bank.setHL, Bank.hl]
  | _ =>
      obtain rfl := Option.some.inj mirrored
      cases register <;> rfl

theorem wordFrom_onIndex (memory : Memory) {source mirror : WordSource}
    (mirrored : source.onIndex? register = some mirror) :
    (cpu.hlToIndex register word).wordFrom memory mirror = cpu.wordFrom memory source := by
  cases source with
  | constant value =>
      obtain rfl := Option.some.inj mirrored
      rfl
  | place place =>
      obtain ⟨place', placeEq, rfl⟩ := Option.map_eq_some_iff.mp mirrored
      cases place with
      | cells address =>
          obtain rfl := Option.some.inj placeEq
          rfl
      | pair pair =>
          obtain ⟨pair', pairEq, rfl⟩ := Option.map_eq_some_iff.mp placeEq
          exact cpu.pair_onIndex register word pairEq

theorem keepWord_onIndex {target mirror : WordPlace}
    (mirrored : target.onIndex? register = some mirror) (value : UInt16) :
    (cpu.hlToIndex register word).keepWord mirror value =
      { cpu := (cpu.keepWord target value).cpu.hlToIndex register word
        writes := (cpu.keepWord target value).writes } := by
  cases target with
  | cells address =>
      obtain rfl := Option.some.inj mirrored
      rfl
  | pair pair =>
      obtain ⟨pair', pairEq, rfl⟩ := Option.map_eq_some_iff.mp mirrored
      exact congrArg (Effect.mk · []) (cpu.setPair_onIndex register word pairEq value)

/-- Executing an instruction on an index register is executing its model on HL,
where the two registers have changed places. -/
theorem execute_onIndex (memory : Memory) {instruction mirror : Instruction}
    (mirrored : instruction.onIndex? register = some mirror) :
    (cpu.hlToIndex register word).execute memory mirror =
      { cpu := (cpu.execute memory instruction).cpu.hlToIndex register word
        writes := (cpu.execute memory instruction).writes } := by
  cases instruction with
  | loadWord target source =>
      simp only [Instruction.onIndex?, Option.bind_eq_bind, Option.bind_eq_some_iff] at mirrored
      obtain ⟨target', targetEq, source', sourceEq, equal⟩ := mirrored
      obtain rfl := Option.some.inj equal
      simp only [execute, cpu.wordFrom_onIndex register word memory sourceEq,
        cpu.keepWord_onIndex register word targetEq]
  | addPair target source =>
      simp only [Instruction.onIndex?, Option.bind_eq_bind, Option.bind_eq_some_iff] at mirrored
      obtain ⟨target', targetEq, source', sourceEq, equal⟩ := mirrored
      obtain rfl := Option.some.inj equal
      simp only [execute, cpu.pair_onIndex register word targetEq,
        cpu.pair_onIndex register word sourceEq, flags_hlToIndex, setFlags_hlToIndex,
        setPair_onIndex _ register word targetEq]
  | push pair =>
      obtain ⟨pair', pairEq, rfl⟩ := Option.map_eq_some_iff.mp mirrored
      simp only [execute, cpu.pair_onIndex register word pairEq, push_hlToIndex]
  | pop pair =>
      obtain ⟨pair', pairEq, rfl⟩ := Option.map_eq_some_iff.mp mirrored
      simp only [execute, pop_hlToIndex, setPair_onIndex _ register word pairEq]
  | exchangeStackTop pair =>
      obtain ⟨pair', pairEq, rfl⟩ := Option.map_eq_some_iff.mp mirrored
      simp only [execute, cpu.pair_onIndex register word pairEq, sp_hlToIndex,
        setPair_onIndex _ register word pairEq]
  | incrementPair pair =>
      obtain ⟨pair', pairEq, rfl⟩ := Option.map_eq_some_iff.mp mirrored
      simp only [execute, cpu.pair_onIndex register word pairEq,
        cpu.setPair_onIndex register word pairEq]
  | decrementPair pair =>
      obtain ⟨pair', pairEq, rfl⟩ := Option.map_eq_some_iff.mp mirrored
      simp only [execute, cpu.pair_onIndex register word pairEq,
        cpu.setPair_onIndex register word pairEq]
  | jumpTo pair =>
      obtain ⟨pair', pairEq, rfl⟩ := Option.map_eq_some_iff.mp mirrored
      simp only [execute, cpu.pair_onIndex register word pairEq, goto_hlToIndex]
  | _ => simp [Instruction.onIndex?] at mirrored

end Cpu

/-! ## A cell near an index register in place of the one at HL -/

section Near

variable (register : IndexRegister) (displacement : UInt8)

/-- The place that takes the place of a register or of the cell at HL, if a cell
near an index register does of that cell. -/
def Place.near? : Place → Option Place
  | .register named => some (.register named)
  | .cell .hl => some (.cell (.indexed register displacement))
  | .cell _ => none

def Source.near? : Source → Option Source
  | .place named => (named.near? register displacement).map .place
  | .constant byte => some (.constant byte)

/-- The instruction with a cell near an index register in place of the one at HL,
if it acts on bytes in places. -/
def Instruction.near? : Instruction → Option Instruction
  | .load target source => do
      return .load (← target.near? register displacement)
        (← source.near? register displacement)
  | .accumulate operation source =>
      (source.near? register displacement).map (.accumulate operation)
  | .increment place => (place.near? register displacement).map .increment
  | .decrement place => (place.near? register displacement).map .decrement
  | .rotate rotation place => (place.near? register displacement).map (.rotate rotation)
  | .testBit position place => (place.near? register displacement).map (.testBit position)
  | .resetBit position place =>
      (place.near? register displacement).map (.resetBit position)
  | .setBit position place => (place.near? register displacement).map (.setBit position)
  | _ => none

end Near

/-- An effect on a processor follows a model, with a cell in place of the one at HL:
it changes the registers of the main bank as the model does and nothing else of
the processor, and it writes to the cell what the model writes to the one at HL. -/
structure Effect.Follows (cpu : Cpu) (near : UInt16) (effect model : Effect) : Prop where
  registers : effect.cpu = { cpu with main := model.cpu.main }
  writes : effect.writes = model.writes.map fun write => { write with address := near }
  inHL : ∀ write ∈ model.writes, write.address = cpu.main.hl

/-- Writes to one cell change that cell alone, by their bytes. -/
theorem Memory.read_perform_retarget {memory other : Memory} {near model : UInt16}
    {writes : List Write} (inModel : ∀ write ∈ writes, write.address = model)
    (cell : other.read model = memory.read near) (address : UInt16) :
    (memory.perform (writes.map fun write => { write with address := near })).read address =
      if address = near then (other.perform writes).read model else memory.read address := by
  induction writes generalizing memory other with
  | nil =>
      split
      · rename_i same
        rw [same]
        exact cell.symm
      · rfl
  | cons write rest ih =>
      obtain ⟨first, later⟩ := List.forall_mem_cons.mp inModel
      have written : (other.write write.address write.byte).read model =
          (memory.write near write.byte).read near := by
        rw [first, read_write_same, read_write_same]
      have restEq := ih later written
      change ((memory.write near write.byte).perform _).read address = _
      rw [restEq]
      split
      · rfl
      · rename_i different
        rw [read_write, if_neg different]

namespace Cpu

section Near

variable {cpu plain : Cpu} {memory other : Memory} {register : IndexRegister}
  {displacement : UInt8}

/-- Two processors see the same bytes in their registers, and in the cell near the
index register of the first and at HL of the second. -/
structure SeesAlike (cpu : Cpu) (memory : Memory) (near : UInt16) (plain : Cpu)
    (other : Memory) : Prop where
  main : plain.main = cpu.main
  cell : other.read cpu.main.hl = memory.read near

variable (alike : SeesAlike cpu memory (cpu.index register + signExtend displacement)
  plain other)

include alike

theorem byteIn_near {place mirror : Place}
    (mirrored : place.near? register displacement = some mirror) :
    cpu.byteIn memory mirror = plain.byteIn other place := by
  have main := alike.main
  have cell := alike.cell
  cases place with
  | register named =>
      obtain rfl := Option.some.inj mirrored
      cases named <;> simp [byteIn, Cpu.register, main]
  | cell pointer =>
      cases pointer with
      | hl =>
          obtain rfl := Option.some.inj mirrored
          simp only [byteIn, address, main, cell]
      | _ => simp [Place.near?] at mirrored

theorem byteFrom_near {source mirror : Source}
    (mirrored : source.near? register displacement = some mirror) :
    cpu.byteFrom memory mirror = plain.byteFrom other source := by
  cases source with
  | constant byte =>
      obtain rfl := Option.some.inj mirrored
      rfl
  | place place =>
      obtain ⟨place', placeEq, rfl⟩ := Option.map_eq_some_iff.mp mirrored
      exact byteIn_near alike placeEq

theorem keep_near {place mirror : Place}
    (mirrored : place.near? register displacement = some mirror) (byte : UInt8) :
    Effect.Follows cpu (cpu.index register + signExtend displacement)
      (cpu.keep mirror byte) (plain.keep place byte) := by
  have main := alike.main
  cases place with
  | register named =>
      obtain rfl := Option.some.inj mirrored
      refine ⟨?_, rfl, List.forall_mem_nil _⟩
      cases named <;> simp [keep, setRegister, main]
  | cell pointer =>
      cases pointer with
      | hl =>
          obtain rfl := Option.some.inj mirrored
          refine ⟨?_, rfl, ?_⟩
          · simp [keep, main]
          · simp [keep, address, main]
      | _ => simp [Place.near?] at mirrored

theorem replace_near {place mirror : Place}
    (mirrored : place.near? register displacement = some mirror) (result : UInt8 × Flags) :
    Effect.Follows cpu (cpu.index register + signExtend displacement)
      (cpu.replace mirror result) (plain.replace place result) := by
  have judged : SeesAlike (cpu.setFlags result.2) memory
      ((cpu.setFlags result.2).index register + signExtend displacement)
      (plain.setFlags result.2) other := by
    refine ⟨?_, ?_⟩
    · simp [setFlags, alike.main]
    · cases register <;> exact alike.cell
  have kept := keep_near judged mirrored result.1
  refine ⟨kept.registers, ?_, kept.inHL⟩
  rw [replace, kept.writes]
  cases register <;> rfl

/-- Executing an instruction on a cell near an index register follows its model on
the cell at HL. -/
theorem execute_near {instruction mirror : Instruction}
    (mirrored : instruction.near? register displacement = some mirror) :
    Effect.Follows cpu (cpu.index register + signExtend displacement)
      (cpu.execute memory mirror) (plain.execute other instruction) := by
  have main := alike.main
  cases instruction with
  | load target source =>
      simp only [Instruction.near?, Option.bind_eq_bind, Option.bind_eq_some_iff] at mirrored
      obtain ⟨target', targetEq, source', sourceEq, equal⟩ := mirrored
      obtain rfl := Option.some.inj equal
      simp only [execute, byteFrom_near alike sourceEq]
      exact keep_near alike targetEq _
  | accumulate operation source =>
      obtain ⟨source', sourceEq, rfl⟩ := Option.map_eq_some_iff.mp mirrored
      refine ⟨?_, rfl, List.forall_mem_nil _⟩
      simp only [execute, byteFrom_near alike sourceEq, setAccumulator, main]
  | increment place =>
      obtain ⟨place', placeEq, rfl⟩ := Option.map_eq_some_iff.mp mirrored
      simp only [execute, byteIn_near alike placeEq, main]
      exact replace_near alike placeEq _
  | decrement place =>
      obtain ⟨place', placeEq, rfl⟩ := Option.map_eq_some_iff.mp mirrored
      simp only [execute, byteIn_near alike placeEq, main]
      exact replace_near alike placeEq _
  | rotate rotation place =>
      obtain ⟨place', placeEq, rfl⟩ := Option.map_eq_some_iff.mp mirrored
      simp only [execute, byteIn_near alike placeEq, main]
      exact replace_near alike placeEq _
  | testBit position place =>
      obtain ⟨place', placeEq, rfl⟩ := Option.map_eq_some_iff.mp mirrored
      refine ⟨?_, rfl, List.forall_mem_nil _⟩
      simp only [execute, byteIn_near alike placeEq, setFlags, main]
  | resetBit position place =>
      obtain ⟨place', placeEq, rfl⟩ := Option.map_eq_some_iff.mp mirrored
      simp only [execute, byteIn_near alike placeEq]
      exact keep_near alike placeEq _
  | setBit position place =>
      obtain ⟨place', placeEq, rfl⟩ := Option.map_eq_some_iff.mp mirrored
      simp only [execute, byteIn_near alike placeEq]
      exact keep_near alike placeEq _
  | _ => simp [Instruction.near?] at mirrored

end Near

end Cpu

namespace Instruction

/-- The opcodes of the index pages whose instructions act on pairs. -/
def pairOpcodes : List UInt8 :=
  [0x09, 0x19, 0x29, 0x39, 0x21, 0x22, 0x2A, 0x23, 0x2B, 0xE1, 0xE3, 0xE5, 0xE9, 0xF9]

/-- The opcodes of the index pages whose instructions act on a cell and have no
operand byte but its displacement. -/
def cellOpcodes : List UInt8 :=
  [0x34, 0x35, 0x46, 0x4E, 0x56, 0x5E, 0x66, 0x6E, 0x7E, 0x70, 0x71, 0x72, 0x73, 0x74,
    0x75, 0x77, 0x86, 0x8E, 0x96, 0x9E, 0xA6, 0xAE, 0xB6, 0xBE]

/-- What the opcodes of an index page with and without a displacement are. -/
theorem opcode_of_indexedForm? {register : IndexRegister} {opcode : UInt8} {form : Form}
    (defined : Table.indexedForm? register opcode = some form) :
    if .indexed register ∈ form.2 then
      opcode = 0x36 ∧ form.size = 2 ∨ opcode ∈ cellOpcodes ∧ form.size = 1
    else opcode ∈ pairOpcodes := by
  have every : Table.opcodes.all fun opcode =>
      (Table.indexedForm? register opcode).all fun form =>
        if .indexed register ∈ form.2 then
          opcode = 0x36 ∧ form.size = 2 ∨ opcode ∈ cellOpcodes ∧ form.size = 1
        else opcode ∈ pairOpcodes := by
    cases register <;> decide +kernel
  have atOpcode := List.all_eq_true.mp every opcode (Table.mem_opcodes opcode)
  rw [defined] at atOpcode
  simpa using atOpcode

/-- An instruction of an index page that acts on pairs is the one of the unprefixed
page with the index register in place of HL. -/
theorem fetchIndexed_of_pairOpcode (register : IndexRegister) {opcode : UInt8}
    (member : opcode ∈ pairOpcodes) :
    fetchIndexed register opcode =
      (fun fetched => fetched.bind (onIndex? register)) <$> fetchAfter opcode := by
  fin_cases member <;> rfl

/-- An instruction of an index page that acts on a cell is the one of the unprefixed
page with the cell near the index register in place of the one at HL. -/
theorem fetchIndexed_of_cellOpcode (register : IndexRegister) {opcode : UInt8}
    (member : opcode ∈ cellOpcodes) :
    ∃ (model : Instruction) (mirror : UInt8 → Instruction),
      fetchAfter opcode = plain model ∧ fetchIndexed register opcode = withByte mirror ∧
        ∀ displacement, model.near? register displacement = some (mirror displacement) := by
  fin_cases member <;> exact ⟨_, _, rfl, rfl, fun _ => rfl⟩

theorem near?_ofBitOpcode (register : IndexRegister) (displacement opcode : UInt8) :
    (ofBitOpcode opcode (.cell .hl)).near? register displacement =
      some (ofBitOpcode opcode (.cell (.indexed register displacement))) := by
  unfold ofBitOpcode
  dsimp only
  split <;> rfl

/-- Behind a byte that selects an index page, the next byte decides. -/
theorem fetch_of_leadByte {memory : Memory} {address : UInt16} {register : IndexRegister}
    (prefixed : memory.read address = register.leadByte) :
    fetch memory address =
      (if memory.read (address + 1) = 0xCB then fetchIndexedBit register
      else fetchIndexed register (memory.read (address + 1))) memory (address + 2) := by
  have second : address + 1 + 1 = address + 2 := UInt16.add_assoc address 1 1
  rw [fetch_eq_fetchAfter, prefixed, ← second]
  cases register <;> rfl

end Instruction

namespace Table

theorem lookup?_of_leadByte {memory : Memory} {address : UInt16} {register : IndexRegister}
    (prefixed : memory.read address = register.leadByte) :
    lookup? memory address =
      if memory.read (address + 1) = 0xCB then
        get? (.indexedBits register) (memory.read (address + 3))
      else get? (.indexed register) (memory.read (address + 1)) := by
  simp only [lookup?, prefixed, register.leadByte_ne, if_false,
    IndexRegister.ofLeadByte?_leadByte]

end Table

namespace Instruction

/-- Where an index page has no displacement, the instruction is the one found
behind the lead byte, with the index register in place of HL. -/
theorem fetch_onIndex {memory : Memory} {address : UInt16} {register : IndexRegister}
    {entry : Entry} (prefixed : memory.read address = register.leadByte)
    (found : Table.lookup? memory address = some entry)
    (undisplaced : .indexed register ∉ entry.operands) :
    fetch memory address =
      ((fetch memory (address + 1)).1.bind (onIndex? register),
        (fetch memory (address + 1)).2) := by
  rw [Table.lookup?_of_leadByte prefixed] at found
  split at found
  · -- every instruction of an indexed bit page has a displacement
    obtain ⟨form, formEq, rfl⟩ := Option.map_eq_some_iff.mp found
    simp only [Table.form?] at formEq
    split at formEq
    · obtain rfl := Option.some.inj formEq
      unfold Table.bitForm at undisplaced
      split at undisplaced <;> simp at undisplaced
    · simp at formEq
  · rename_i unprefixed
    obtain ⟨form, formEq, rfl⟩ := Option.map_eq_some_iff.mp found
    have member := opcode_of_indexedForm? formEq
    rw [if_neg undisplaced] at member
    have second : address + 1 + 1 = address + 2 := UInt16.add_assoc address 1 1
    rw [fetch_of_leadByte prefixed, if_neg unprefixed,
      fetchIndexed_of_pairOpcode register member, fetch_eq_fetchAfter memory (address + 1),
      second]
    rfl

/-- The bytes of an instruction without its lead byte and without its displacement,
which is always the third byte. -/
def withoutIndex (bytes : List UInt8) : List UInt8 :=
  bytes.tail.eraseIdx 1

/-- Where an index page has a displacement, the instruction is the one that its bytes
without the index make up, with the cell near the index register in place of the one
at HL. -/
theorem fetch_near {memory other : Memory} {address start : UInt16}
    {register : IndexRegister} {entry : Entry}
    (prefixed : memory.read address = register.leadByte)
    (found : Table.lookup? memory address = some entry)
    (displaced : .indexed register ∈ entry.operands)
    (stored : other.slice start (entry.length - 2) =
      withoutIndex (memory.slice address entry.length)) :
    ∃ model mirror, model.near? register (memory.read (address + 2)) = some mirror ∧
      (fetch memory address).1 = some mirror ∧ (fetch other start).1 = some model := by
  have third : address + 1 + 1 = address + 2 := UInt16.add_assoc address 1 1
  have fourth : address + 2 + 1 = address + 3 := UInt16.add_assoc address 2 1
  rw [Table.lookup?_of_leadByte prefixed] at found
  rw [fetch_of_leadByte prefixed, fetch_eq_fetchAfter other]
  split at found
  · rename_i bits
    have four : entry.length = 4 := by
      have size := Table.payloadSize_indexedBits found
      rw [Entry.length, size, Table.page_of_get? found]
      rfl
    obtain ⟨form, formEq, rfl⟩ := Option.map_eq_some_iff.mp found
    simp only [four, withoutIndex, Memory.slice, third, fourth, List.tail_cons,
      List.eraseIdx_cons_succ, List.eraseIdx_cons_zero, List.cons.injEq, and_true, bits]
      at stored
    obtain ⟨first, second⟩ := stored
    have last : Fields.last (memory.read (address + 3)) = 6 := by
      by_contra other
      simp [Table.form?, other] at formEq
    refine ⟨_, _, near?_ofBitOpcode register _ (memory.read (address + 3)), ?_, ?_⟩
    · rw [if_pos bits]
      change ((if Fields.last (memory.read (address + 2 + 1)) = 6 then
        plain (ofBitOpcode (memory.read (address + 2 + 1))
          (.cell (.indexed register (memory.read (address + 2))))) else unknown)
        memory (address + 2 + 1 + 1)).1 = _
      rw [fourth, if_pos last]
      rfl
    · rw [first]
      change some (ofBitOpcode (other.read (start + 1))
        (place (Fields.last (other.read (start + 1))))) = _
      rw [second, last]
      rfl
  · rename_i unprefixed
    obtain ⟨form, formEq, rfl⟩ := Option.map_eq_some_iff.mp found
    have member := opcode_of_indexedForm? formEq
    rw [if_pos displaced] at member
    rw [if_neg unprefixed]
    rcases member with ⟨opcode, size⟩ | ⟨member, size⟩
    · have four : Entry.length
          ⟨.indexed register, memory.read (address + 1), form.1, form.2⟩ = 4 :=
        congrArg (1 + 1 + ·) size
      simp only [four, withoutIndex, Memory.slice, third, fourth, List.tail_cons,
        List.eraseIdx_cons_succ, List.eraseIdx_cons_zero, List.cons.injEq, and_true]
        at stored
      obtain ⟨first, second⟩ := stored
      refine ⟨.load (.cell .hl) (.constant (memory.read (address + 3))), _, rfl, ?_, ?_⟩
      · rw [opcode, ← fourth]
        rfl
      · rw [first, opcode, ← second]
        rfl
    · have three : Entry.length
          ⟨.indexed register, memory.read (address + 1), form.1, form.2⟩ = 3 :=
        congrArg (1 + 1 + ·) size
      simp only [three, withoutIndex, Memory.slice, third, List.tail_cons,
        List.eraseIdx_cons_succ, List.eraseIdx_cons_zero, List.cons.injEq, and_true]
        at stored
      obtain ⟨model, mirror, fetched, indexed, mirrored⟩ :=
        fetchIndexed_of_cellOpcode register member
      refine ⟨model, mirror (memory.read (address + 2)), mirrored _, ?_, ?_⟩
      · rw [indexed]
        rfl
      · rw [stored, fetched]
        rfl

end Instruction

namespace Cpu

/-- A step that fetches an instruction executes it. -/
theorem step_of_fetch {cpu : Cpu} {memory : Memory} {instruction : Instruction}
    {next : UInt16} (running : cpu.halted = false)
    (fetched : Instruction.fetch memory cpu.pc = (some instruction, next)) :
    (cpu.step memory).toEffect = (cpu.goto next).execute memory instruction ∧
      ∃ bytes, (cpu.step memory).outcome = .executed bytes := by
  unfold step
  rw [if_neg (by simp [running]), fetched]
  exact ⟨rfl, _, rfl⟩

/-- Where an index page has no displacement, a step does what the instruction behind
the lead byte does with the index register in HL. -/
theorem step_onIndex {cpu : Cpu} {memory : Memory} {register : IndexRegister}
    {entry : Entry} (running : cpu.halted = false)
    (prefixed : memory.read cpu.pc = register.leadByte)
    (found : Table.lookup? memory cpu.pc = some entry)
    (undisplaced : .indexed register ∉ entry.operands) :
    let model := ((cpu.goto (cpu.pc + 1)).indexToHL register).step memory
    (∃ bytes, model.outcome = .executed bytes) ∧
      (cpu.step memory).cpu = model.cpu.hlToIndex register cpu.main.hl ∧
      (cpu.step memory).writes = model.writes := by
  have agrees := Instruction.fetch_agrees memory cpu.pc
  rw [found] at agrees
  obtain ⟨mirror, -, fetched⟩ := agrees
  have indexed := Instruction.fetch_onIndex prefixed found undisplaced
  rw [fetched, Prod.mk.injEq] at indexed
  obtain ⟨bound, next⟩ := indexed
  obtain ⟨model, modelFetched, mirrored⟩ := Option.bind_eq_some_iff.mp bound.symm
  let start := (cpu.goto (cpu.pc + 1)).indexToHL register
  have modelFetch : Instruction.fetch memory start.pc =
      (some model, cpu.pc + UInt16.ofNat entry.length) :=
    Prod.ext modelFetched next.symm
  have running' : start.halted = false := running
  obtain ⟨stepped, -⟩ := step_of_fetch running fetched
  obtain ⟨modelStepped, executed⟩ := step_of_fetch running' modelFetch
  have exchanged : cpu.goto (cpu.pc + UInt16.ofNat entry.length) =
      (start.goto (cpu.pc + UInt16.ofNat entry.length)).hlToIndex register cpu.main.hl := by
    rw [← hlToIndex_indexToHL (cpu.goto _) register]
    cases register <;> rfl
  rw [exchanged, execute_onIndex _ register cpu.main.hl memory mirrored, ← modelStepped]
    at stepped
  refine ⟨executed, ?_, ?_⟩ <;> rw [stepped]

/-- Where an index page has a displacement, a step follows any step that executes the
instruction without the index on the same registers, where the cell at HL holds what
the cell near the index register does. -/
theorem step_near {cpu plain : Cpu} {memory other : Memory} {register : IndexRegister}
    {entry : Entry} (running : cpu.halted = false)
    (prefixed : memory.read cpu.pc = register.leadByte)
    (found : Table.lookup? memory cpu.pc = some entry)
    (displaced : .indexed register ∈ entry.operands) (plainRunning : plain.halted = false)
    (stored : other.slice plain.pc (entry.length - 2) =
      Instruction.withoutIndex (memory.slice cpu.pc entry.length))
    (alike : SeesAlike cpu memory
      (cpu.index register + signExtend (memory.read (cpu.pc + 2))) plain other) :
    (∃ bytes, (plain.step other).outcome = .executed bytes) ∧
      Effect.Follows (cpu.goto (cpu.pc + UInt16.ofNat entry.length))
        (cpu.index register + signExtend (memory.read (cpu.pc + 2)))
        (cpu.step memory).toEffect (plain.step other).toEffect := by
  have agrees := Instruction.fetch_agrees memory cpu.pc
  rw [found] at agrees
  obtain ⟨fetchedMirror, -, fetched⟩ := agrees
  obtain ⟨model, mirror, mirrored, first, modelFirst⟩ :=
    Instruction.fetch_near prefixed found displaced stored
  obtain rfl : fetchedMirror = mirror := by
    rw [fetched] at first
    exact Option.some.inj first
  obtain ⟨stepped, -⟩ := step_of_fetch running fetched
  obtain ⟨modelStepped, executed⟩ := step_of_fetch plainRunning (Prod.ext modelFirst rfl)
  refine ⟨executed, ?_⟩
  rw [stepped, modelStepped]
  have same : SeesAlike (cpu.goto (cpu.pc + UInt16.ofNat entry.length)) memory
      ((cpu.goto (cpu.pc + UInt16.ofNat entry.length)).index register +
        signExtend (memory.read (cpu.pc + 2)))
      (plain.goto (Instruction.fetch other plain.pc).2) other := by
    cases register <;> exact ⟨alike.main, alike.cell⟩
  have follows := execute_near same mirrored
  cases register <;> exact follows

/-- The index pages mirror the instructions on HL.  Without a displacement, a step does
what the instruction behind the lead byte does in the same memory with the index
register in HL, which then goes back to the index register.  With one, a step does to
the registers, the flags and the cell near the index register what the instruction
without the index does to them and to the cell at HL, on any processor with the same
registers whose cell at HL holds the same byte; it goes on behind itself and leaves
everything else alone. -/
theorem index_pages_mirror {cpu : Cpu} {memory : Memory} {register : IndexRegister}
    {entry : Entry} (running : cpu.halted = false)
    (prefixed : memory.read cpu.pc = register.leadByte)
    (found : Table.lookup? memory cpu.pc = some entry) :
    (.indexed register ∉ entry.operands →
      let model := ((cpu.goto (cpu.pc + 1)).indexToHL register).step memory
      (∃ bytes, model.outcome = .executed bytes) ∧
        (cpu.step memory).cpu = model.cpu.hlToIndex register cpu.main.hl ∧
        (cpu.step memory).writes = model.writes) ∧
    (.indexed register ∈ entry.operands →
      let near := cpu.index register + signExtend (memory.read (cpu.pc + 2))
      ∀ (plain : Cpu) (other : Memory), plain.halted = false → plain.main = cpu.main →
        other.slice plain.pc (entry.length - 2) =
          Instruction.withoutIndex (memory.slice cpu.pc entry.length) →
        other.read cpu.main.hl = memory.read near →
        let model := plain.step other
        (∃ bytes, model.outcome = .executed bytes) ∧
          (cpu.step memory).cpu =
            { cpu with main := model.cpu.main, pc := cpu.pc + UInt16.ofNat entry.length } ∧
          (∀ address, (memory.perform (cpu.step memory).writes).read address =
            if address = near then (other.perform model.writes).read cpu.main.hl
            else memory.read address) ∧
          ∀ address, address ≠ cpu.main.hl →
            (other.perform model.writes).read address = other.read address) := by
  refine ⟨step_onIndex running prefixed found, fun displaced => ?_⟩
  intro near plain other plainRunning main stored cell model
  obtain ⟨executed, follows⟩ :=
    step_near running prefixed found displaced plainRunning stored ⟨main, cell⟩
  have inHL (write : Write) (member : write ∈ model.writes) :
      write.address = cpu.main.hl := follows.inHL write member
  refine ⟨executed, follows.registers, fun address => ?_, fun address elsewhere => ?_⟩
  · have writes : (cpu.step memory).writes =
        model.writes.map fun write => { write with address := near } := follows.writes
    rw [writes]
    exact Memory.read_perform_retarget inHL cell address
  · apply Memory.read_perform_of_notMem
    rw [List.mem_map]
    rintro ⟨write, member, rfl⟩
    exact elsewhere (inHL write member)

/-- Adding IX to itself is adding HL to itself where IX is in HL; and storing L below
the address in IX is storing it at HL, where H and L stay what they are. -/
theorem index_pages_mirror_below :
    (let memory := (Memory.zero.write 0x0000 0xDD).write 0x0001 0x29
    let cpu : Cpu := { ix := 0x8001 }
    let model := ((cpu.goto 0x0001).indexToHL .ix).step memory
    cpu.halted = false ∧ (cpu.step memory).cpu = model.cpu.hlToIndex .ix cpu.main.hl) ∧
    let memory := ((Memory.zero.write 0x0000 0xDD).write 0x0001 0x75).write 0x0002 0xFF
    let other := Memory.zero.write 0x1000 0x75
    let cpu : Cpu := { main := { h := 0x12, l := 0x34 } }
    let plain : Cpu := { main := { h := 0x12, l := 0x34 }, pc := 0x1000 }
    let model := plain.step other
    (cpu.step memory).cpu = { cpu with main := model.cpu.main, pc := 0x0003 } ∧
      ∀ address, (memory.perform (cpu.step memory).writes).read address =
        if address = 0xFFFF then (other.perform model.writes).read 0x1234
        else memory.read address := by
  constructor
  · intro memory cpu model
    have stored : memory.slice 0x0000 2 = [0xDD, 0x29] := by
      simp [memory, Memory.slice, Memory.read_write]
    have sized : ([] : List UInt8).length =
        Entry.payloadSize ⟨.indexed .ix, 0x29, .add, [.keyword .ix, .keyword .ix]⟩ := rfl
    have found : Table.lookup? memory cpu.pc =
        some ⟨.indexed .ix, 0x29, .add, [.keyword .ix, .keyword .ix]⟩ :=
      Entry.lookup?_of_slice (Table.mem_entries.mpr (by decide)) sized stored
    have lead : memory.read cpu.pc = IndexRegister.ix.leadByte := (List.cons.inj stored).1
    have running : cpu.halted = false := rfl
    clear_value memory
    obtain ⟨-, mirrored, -⟩ := (index_pages_mirror running lead found).1 (by decide)
    exact ⟨rfl, mirrored⟩
  · intro memory other cpu plain model
    have stored : memory.slice 0x0000 3 = [0xDD, 0x75, 0xFF] := by
      simp [memory, Memory.slice, Memory.read_write]
    have withoutIndex : other.slice 0x1000 1 =
        Instruction.withoutIndex (memory.slice 0x0000 3) := by
      rw [stored]
      simp [other, Memory.slice, Instruction.withoutIndex]
    have cells : other.read 0x1234 = memory.read 0xFFFF := by
      simp [memory, other, Memory.read_write]
    have sized : [(0xFF : UInt8)].length =
        Entry.payloadSize ⟨.indexed .ix, 0x75, .ld, [.indexed .ix, .keyword .l]⟩ := rfl
    have found : Table.lookup? memory cpu.pc =
        some ⟨.indexed .ix, 0x75, .ld, [.indexed .ix, .keyword .l]⟩ :=
      Entry.lookup?_of_slice (Table.mem_entries.mpr (by decide)) sized stored
    obtain ⟨first, rest⟩ := List.cons.inj stored
    have lead : memory.read cpu.pc = IndexRegister.ix.leadByte := first
    have displacement : memory.read (cpu.pc + 2) = 0xFF :=
      (List.cons.inj (List.cons.inj rest).2).1
    have near : cpu.index .ix + signExtend (memory.read (cpu.pc + 2)) = 0xFFFF := by
      rw [displacement]
      decide
    have hl : cpu.main.hl = 0x1234 := by
      change wordOfBytes 0x12 0x34 = 0x1234
      decide
    have running : cpu.halted = false := rfl
    clear_value memory other
    have mirrors := (index_pages_mirror running lead found).2 (by decide)
    dsimp only at mirrors
    rw [near, hl] at mirrors
    obtain ⟨-, registers, writes, -⟩ := mirrors plain other rfl rfl withoutIndex cells
    exact ⟨registers, writes⟩

end Cpu

end Z80
