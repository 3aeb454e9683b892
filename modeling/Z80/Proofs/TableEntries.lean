import Z80.Proofs.MemoryBlocks
import Z80.Opcode.Table

/-!
# Entries of the opcode table

Which entries the table holds, and how they lie in memory.  An entry is found at
an address exactly when the bytes there are its encoding for some filling of its
operands, so looking up and encoding undo each other.
-/

namespace Z80

theorem IndexRegister.leadByte_of_ofLeadByte? {byte : UInt8} {register : IndexRegister}
    (selected : ofLeadByte? byte = some register) : byte = register.leadByte := by
  unfold ofLeadByte? at selected
  split at selected
  · obtain rfl := Option.some.inj selected
    assumption
  · split at selected
    · obtain rfl := Option.some.inj selected
      assumption
    · simp at selected

@[simp] theorem IndexRegister.ofLeadByte?_leadByte (register : IndexRegister) :
    ofLeadByte? register.leadByte = some register := by
  cases register <;> rfl

theorem IndexRegister.leadByte_ne (register : IndexRegister) :
    register.leadByte ≠ 0xCB ∧ register.leadByte ≠ 0xED := by
  cases register <;> decide

namespace Table

theorem mem_opcodes (opcode : UInt8) : opcode ∈ opcodes := by
  apply List.mem_map.mpr
  exact ⟨opcode.toNat, List.mem_range.mpr opcode.toNat_lt, UInt8.ofNat_toNat⟩

theorem page_of_get? {page : Page} {opcode : UInt8} {entry : Entry}
    (found : get? page opcode = some entry) : entry.page = page := by
  obtain ⟨form, _, rfl⟩ := Option.map_eq_some_iff.mp found
  rfl

theorem opcode_of_get? {page : Page} {opcode : UInt8} {entry : Entry}
    (found : get? page opcode = some entry) : entry.opcode = opcode := by
  obtain ⟨form, _, rfl⟩ := Option.map_eq_some_iff.mp found
  rfl

theorem mem_entries_of_get? {page : Page} {opcode : UInt8} {entry : Entry}
    (found : get? page opcode = some entry) : entry ∈ entries := by
  apply List.mem_flatMap.mpr
  refine ⟨page, page.mem_all, ?_⟩
  exact List.mem_filterMap.mpr ⟨opcode, mem_opcodes opcode, found⟩

/-- An entry is the one that the table holds for its page and opcode. -/
theorem mem_entries {entry : Entry} :
    entry ∈ entries ↔ get? entry.page entry.opcode = some entry := by
  constructor
  · intro member
    obtain ⟨page, _, inPage⟩ := List.mem_flatMap.mp member
    obtain ⟨opcode, _, found⟩ := List.mem_filterMap.mp inPage
    rw [page_of_get? found, opcode_of_get? found]
    exact found
  · exact mem_entries_of_get?

theorem mem_withMnemonic {entry : Entry} {mnemonic : Mnemonic} :
    entry ∈ withMnemonic mnemonic ↔ entry ∈ entries ∧ entry.mnemonic = mnemonic := by
  simp [withMnemonic]

/-- A byte that selects a page is no opcode of the base page. -/
theorem base_opcode_ne {opcode : UInt8} {entry : Entry}
    (found : get? .base opcode = some entry) :
    opcode ≠ 0xCB ∧ opcode ≠ 0xED ∧ IndexRegister.ofLeadByte? opcode = none := by
  refine ⟨?_, ?_, ?_⟩
  · rintro rfl
    simp [get?, form?, baseForm?, highForm?, Fields.group, Fields.middle, Fields.last]
      at found
  · rintro rfl
    simp [get?, form?, baseForm?, highForm?, Fields.group, Fields.middle, Fields.last]
      at found
  · have others : opcode ≠ 0xDD ∧ opcode ≠ 0xFD := by
      constructor <;> rintro rfl <;>
        simp [get?, form?, baseForm?, highForm?, Fields.group, Fields.middle, Fields.last]
          at found
    simp [IndexRegister.ofLeadByte?, others]

/-- The byte that selects an indexed bit page is no opcode of an index page. -/
theorem indexed_opcode_ne {register : IndexRegister} {opcode : UInt8} {entry : Entry}
    (found : get? (.indexed register) opcode = some entry) : opcode ≠ 0xCB := by
  rintro rfl
  simp [get?, form?, indexedForm?, Fields.group] at found

/-- An indexed bit page has one operand byte, the displacement. -/
theorem payloadSize_indexedBits {register : IndexRegister} {opcode : UInt8}
    {entry : Entry} (found : get? (.indexedBits register) opcode = some entry) :
    entry.payloadSize = 1 := by
  obtain ⟨form, formEq, rfl⟩ := Option.map_eq_some_iff.mp found
  simp only [form?] at formEq
  split at formEq
  · obtain rfl := Option.some.inj formEq
    unfold bitForm
    split <;> rfl
  · simp at formEq

/-- The number of bytes before the opcode of an entry. -/
def opcodeOffset (entry : Entry) : Nat :=
  if entry.page.displacementFirst then entry.page.leadBytes.length + 1
  else entry.page.leadBytes.length

/-- The bytes at an address select the page and the opcode of an entry. -/
def Selected (memory : Memory) (address : UInt16) (entry : Entry) : Prop :=
  memory.slice address entry.page.leadBytes.length = entry.page.leadBytes ∧
    memory.read (address + UInt16.ofNat (opcodeOffset entry)) = entry.opcode

theorem selected_of_lookup? {memory : Memory} {address : UInt16} {entry : Entry}
    (found : lookup? memory address = some entry) :
    entry ∈ entries ∧ Selected memory address entry := by
  have atPage {page : Page} {opcode : UInt8} (inPage : get? page opcode = some entry)
      (lead : memory.slice address page.leadBytes.length = page.leadBytes)
      (stored : memory.read (address + UInt16.ofNat
        (if page.displacementFirst then page.leadBytes.length + 1
          else page.leadBytes.length)) = opcode) :
      entry ∈ entries ∧ Selected memory address entry := by
    refine ⟨mem_entries_of_get? inPage, ?_⟩
    unfold Selected opcodeOffset
    rw [page_of_get? inPage, opcode_of_get? inPage]
    exact ⟨lead, stored⟩
  simp only [lookup?] at found
  split at found
  · rename_i first
    exact atPage found (by simp [Memory.slice, Page.leadBytes, first]) rfl
  · split at found
    · rename_i first
      exact atPage found (by simp [Memory.slice, Page.leadBytes, first]) rfl
    · split at found
      · rename_i register first
        have lead := IndexRegister.leadByte_of_ofLeadByte? first
        split at found
        · rename_i second
          exact atPage found (by simp [Memory.slice, Page.leadBytes, lead, second]) rfl
        · exact atPage found (by simp [Memory.slice, Page.leadBytes, lead]) rfl
      · exact atPage found (by simp [Memory.slice, Page.leadBytes])
          (congrArg memory.read (UInt16.add_zero address))

theorem mem_entries_of_lookup? {memory : Memory} {address : UInt16} {entry : Entry}
    (found : lookup? memory address = some entry) : entry ∈ entries :=
  (selected_of_lookup? found).1

theorem lookup?_of_selected {memory : Memory} {address : UInt16} {entry : Entry}
    (member : entry ∈ entries) (selected : Selected memory address entry) :
    lookup? memory address = some entry := by
  have found := mem_entries.mp member
  obtain ⟨lead, stored⟩ := selected
  unfold opcodeOffset at stored
  generalize entry.opcode = opcode at found stored
  generalize entry.page = page at found lead stored
  cases page with
  | base =>
      have first : memory.read address = opcode := by
        simpa [Page.displacementFirst, Page.leadBytes] using stored
      obtain ⟨notBits, notExtended, notIndex⟩ := base_opcode_ne found
      simpa [lookup?, first, notBits, notExtended, notIndex] using found
  | bits =>
      have first : memory.read address = 0xCB := by
        simpa [Memory.slice, Page.leadBytes] using lead
      have second : memory.read (address + 1) = opcode := stored
      simpa [lookup?, first, second] using found
  | extended =>
      have first : memory.read address = 0xED := by
        simpa [Memory.slice, Page.leadBytes] using lead
      have second : memory.read (address + 1) = opcode := stored
      simpa [lookup?, first, second] using found
  | indexed register =>
      have first : memory.read address = register.leadByte := by
        simpa [Memory.slice, Page.leadBytes] using lead
      have second : memory.read (address + 1) = opcode := stored
      have notBits := indexed_opcode_ne found
      simpa [lookup?, first, second, notBits, register.leadByte_ne] using found
  | indexedBits register =>
      obtain ⟨first, second⟩ : memory.read address = register.leadByte ∧
          memory.read (address + 1) = 0xCB := by
        simpa [Memory.slice, Page.leadBytes] using lead
      have fourth : memory.read (address + 3) = opcode := stored
      simpa [lookup?, first, second, fourth, register.leadByte_ne] using found

end Table

namespace Entry

/-- The operand bytes of an instruction at an address. -/
def payloadAt (entry : Entry) (memory : Memory) (address : UInt16) : List UInt8 :=
  memory.slice (address + UInt16.ofNat entry.payloadOffset) entry.payloadSize

@[simp] theorem length_payloadAt (entry : Entry) (memory : Memory) (address : UInt16) :
    (entry.payloadAt memory address).length = entry.payloadSize :=
  Memory.length_slice ..

theorem length_encode (entry : Entry) (payload : List UInt8) :
    (entry.encode payload).length = entry.page.leadBytes.length + 1 + payload.length := by
  unfold encode
  split
  · simp only [List.length_append, List.length_singleton]
    omega
  · simp only [List.length_append, List.length_cons]
    omega

theorem length_encode_of_sized {entry : Entry} {payload : List UInt8}
    (sized : payload.length = entry.payloadSize) :
    (entry.encode payload).length = entry.length := by
  rw [length_encode, sized, length]

/-- The operand bytes stand at their offset in the encoding. -/
theorem drop_take_encode (entry : Entry) {payload : List UInt8}
    (sized : payload.length = entry.payloadSize) :
    ((entry.encode payload).drop entry.payloadOffset).take entry.payloadSize = payload := by
  unfold encode payloadOffset
  split
  · rw [List.append_assoc, List.drop_left, ← sized, List.take_left]
  · rw [List.drop_append, List.drop_eq_nil_of_le (by omega)]
    simp [← sized]

theorem payloadOffset_add_payloadSize_le (entry : Entry) :
    entry.payloadOffset + entry.payloadSize ≤ entry.length := by
  unfold payloadOffset length
  split <;> omega

/-- The operand bytes of an instruction within the bytes of the instruction. -/
theorem drop_take_slice (entry : Entry) (memory : Memory) (address : UInt16) :
    ((memory.slice address entry.length).drop entry.payloadOffset).take entry.payloadSize =
      entry.payloadAt memory address := by
  have bound := entry.payloadOffset_add_payloadSize_le
  rw [Memory.drop_slice _ _ (by omega), Memory.take_slice _ _ (by omega)]
  rfl

theorem payloadSize_of_displacementFirst {entry : Entry} (member : entry ∈ Table.entries)
    (first : entry.page.displacementFirst = true) : entry.payloadSize = 1 := by
  have found := Table.mem_entries.mp member
  cases pageEq : entry.page with
  | indexedBits register =>
      rw [pageEq] at found
      exact Table.payloadSize_indexedBits found
  | _ => simp [pageEq, Page.displacementFirst] at first

/-- The bytes at an address where an entry is found are its encoding. -/
theorem slice_eq_encode {memory : Memory} {address : UInt16} {entry : Entry}
    (found : Table.lookup? memory address = some entry) :
    memory.slice address entry.length = entry.encode (entry.payloadAt memory address) := by
  obtain ⟨member, lead, stored⟩ := Table.selected_of_lookup? found
  unfold Table.opcodeOffset at stored
  unfold length encode payloadAt payloadOffset
  split
  · rename_i first
    have size := payloadSize_of_displacementFirst member first
    rw [if_pos first] at stored
    rw [size, Nat.add_assoc, Nat.add_comm 1 1, ← Nat.add_assoc, Memory.slice_append,
      Memory.slice_append, lead]
    congr 1
    simp only [Memory.slice, stored]
  · rename_i later
    rw [if_neg later] at stored
    rw [Nat.add_assoc, Nat.add_comm 1, Memory.slice_append, lead, Memory.slice, stored,
      UInt16.ofNat_add, UInt16.add_assoc]
    rfl

theorem take_encode (entry : Entry) (payload : List UInt8) :
    (entry.encode payload).take entry.page.leadBytes.length = entry.page.leadBytes := by
  unfold encode
  split
  · rw [List.append_assoc, List.take_left]
  · rw [List.take_left]

theorem getElem?_encode_opcodeOffset {entry : Entry} {payload : List UInt8}
    (member : entry ∈ Table.entries) (sized : payload.length = entry.payloadSize) :
    (entry.encode payload)[Table.opcodeOffset entry]? = some entry.opcode := by
  unfold encode Table.opcodeOffset
  split
  · rename_i first
    rw [payloadSize_of_displacementFirst member first] at sized
    rw [List.getElem?_append_right (by simp [sized])]
    simp [sized]
  · rw [List.getElem?_append_right (Nat.le_refl _)]
    simp

theorem opcodeOffset_lt_length {entry : Entry} (member : entry ∈ Table.entries) :
    Table.opcodeOffset entry < entry.length := by
  unfold Table.opcodeOffset length
  split
  · rename_i first
    have size := payloadSize_of_displacementFirst member first
    omega
  · omega

/-- An entry is found where its encoding is stored. -/
theorem lookup?_of_slice {memory : Memory} {address : UInt16} {entry : Entry}
    {payload : List UInt8} (member : entry ∈ Table.entries)
    (sized : payload.length = entry.payloadSize)
    (stored : memory.slice address entry.length = entry.encode payload) :
    Table.lookup? memory address = some entry := by
  apply Table.lookup?_of_selected member
  constructor
  · have bound : entry.page.leadBytes.length ≤ entry.length := by
      unfold length
      omega
    rw [← Memory.take_slice memory address bound, stored, take_encode]
  · have atOpcode := Memory.getElem?_slice memory address (opcodeOffset_lt_length member)
    rw [stored, getElem?_encode_opcodeOffset member sized] at atOpcode
    exact (Option.some.inj atOpcode).symm

end Entry

end Z80
