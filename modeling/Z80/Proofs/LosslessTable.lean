import Z80.Listing
import Z80.Proofs.StepAgreement
import Z80.Proofs.Templates

/-!
# The opcode table as a code

The encodings of the table form a code that loses nothing: from stored bytes the
table finds the entry and the operand bytes they were made of, the listing shows
those bytes and takes the text of every operand from its own part of them, and
no encoding begins another one.
-/

namespace Z80

namespace Operand

theorem totalSize_append (first second : List Operand) :
    totalSize (first ++ second) = totalSize first + totalSize second := by
  induction first with
  | nil => simp [totalSize]
  | cons operand rest ih => simp [totalSize, ih, Nat.add_assoc]

/-- The text of an operand is made of as many bytes as its size says. -/
theorem text_take (next : UInt16) (operand : Operand) (payload : List UInt8) :
    operand.text next (payload.take operand.size) = operand.text next payload := by
  cases operand with
  | byte => cases payload <;> rfl
  | relative => cases payload <;> rfl
  | indexed register => cases payload <;> rfl
  | word => rcases payload with _ | ⟨low, _ | ⟨high, rest⟩⟩ <;> rfl
  | cell => rcases payload with _ | ⟨low, _ | ⟨high, rest⟩⟩ <;> rfl
  | _ => rfl

theorem length_texts (next : UInt16) (operands : List Operand) (payload : List UInt8) :
    (texts next operands payload).length = operands.length := by
  induction operands generalizing payload with
  | nil => rfl
  | cons operand rest ih => simp [texts, ih]

/-- The operand behind given ones is filled in by the bytes behind theirs. -/
theorem getElem?_texts (next : UInt16) (before : List Operand) (operand : Operand)
    (after : List Operand) (payload : List UInt8) :
    (texts next (before ++ operand :: after) payload)[before.length]? =
      some (operand.text next (payload.drop (totalSize before))) := by
  induction before generalizing payload with
  | nil => rfl
  | cons first rest ih =>
      simp only [List.cons_append, texts, List.length_cons, List.getElem?_cons_succ, ih,
        List.drop_drop, totalSize]

end Operand

namespace Entry

/-- The bytes of an instruction that fill in the operand behind given ones. -/
def operandBytes (entry : Entry) (bytes : List UInt8) (before : List Operand)
    (operand : Operand) : List UInt8 :=
  (bytes.drop (entry.payloadOffset + Operand.totalSize before)).take operand.size

/-- The bytes of an operand lie within those of its instruction. -/
theorem operandBytes_inside {entry : Entry} {before after : List Operand} {operand : Operand}
    (operands : entry.operands = before ++ operand :: after) :
    entry.payloadOffset + Operand.totalSize before + operand.size ≤ entry.length := by
  have bound := entry.payloadOffset_add_payloadSize_le
  have total : entry.payloadSize =
      Operand.totalSize before + (operand.size + Operand.totalSize after) := by
    rw [payloadSize, operands, Operand.totalSize_append, Operand.totalSize]
  omega

/-- The operand bytes of an instruction, from an operand on, begin with its own. -/
theorem take_drop_payload {entry : Entry} (bytes : List UInt8) {before after : List Operand}
    {operand : Operand} (operands : entry.operands = before ++ operand :: after) :
    (((bytes.drop entry.payloadOffset).take entry.payloadSize).drop
        (Operand.totalSize before)).take operand.size =
      entry.operandBytes bytes before operand := by
  have total : entry.payloadSize =
      Operand.totalSize before + (operand.size + Operand.totalSize after) := by
    rw [payloadSize, operands, Operand.totalSize_append, Operand.totalSize]
  rw [operandBytes, List.drop_take, List.take_take, List.drop_drop]
  congr 1
  omega

/-- A row shows each operand by the bytes of that operand alone. -/
theorem text_ofEntry (entry : Entry) (address : UInt16) (bytes : List UInt8) :
    ∃ texts, (Row.ofEntry entry address bytes).text = statement entry.mnemonic texts ∧
      texts.length = entry.operands.length ∧
      ∀ before operand after, entry.operands = before ++ operand :: after →
        texts[before.length]? =
          some (operand.text (address + UInt16.ofNat entry.length)
            (entry.operandBytes bytes before operand)) := by
  refine ⟨_, rfl, Operand.length_texts .., ?_⟩
  intro before operand after operands
  rw [operands, Operand.getElem?_texts, ← take_drop_payload bytes operands,
    Operand.text_take]

/-- The encodings of equal length of an entry come from equal operand bytes. -/
theorem encode_injective {entry : Entry} {first second : List UInt8}
    (firstSized : first.length = entry.payloadSize)
    (secondSized : second.length = entry.payloadSize)
    (equal : entry.encode first = entry.encode second) : first = second := by
  rw [← drop_take_encode entry firstSized, equal, drop_take_encode entry secondSized]

/-- The bytes of an encoding are found where it is loaded. -/
theorem slice_load_encode {entry : Entry} (member : entry ∈ Table.entries)
    {payload : List UInt8} (sized : payload.length = entry.payloadSize)
    (memory : Memory) (address : UInt16) :
    (memory.load address (entry.encode payload)).slice address entry.length =
      entry.encode payload := by
  have length := length_encode_of_sized sized
  have few := length_le_four member
  have inside : 0 + entry.length ≤ (entry.encode payload).length := by omega
  have loaded := Memory.slice_load memory address (by omega) inside
  have start : address + UInt16.ofNat 0 = address := UInt16.add_zero address
  rw [start, List.drop_zero, List.take_of_length_le (by omega)] at loaded
  exact loaded

/-- An encoding that begins another one is that one, of the same entry. -/
theorem eq_of_encode_prefix {first second : Entry} (firstMember : first ∈ Table.entries)
    (secondMember : second ∈ Table.entries) {payload other : List UInt8}
    (firstSized : payload.length = first.payloadSize)
    (secondSized : other.length = second.payloadSize)
    (begins : first.encode payload <+: second.encode other) :
    first = second ∧ payload = other := by
  -- both entries are found at the start of a memory that holds the longer encoding
  let memory := Memory.zero.load 0 (second.encode other)
  have stored : memory.slice 0 second.length = second.encode other :=
    slice_load_encode secondMember secondSized Memory.zero 0
  have foundSecond := lookup?_of_slice secondMember secondSized stored
  have firstLength := length_encode_of_sized firstSized
  have within : first.length ≤ second.length := by
    have le := begins.length_le
    rw [firstLength, length_encode_of_sized secondSized] at le
    exact le
  have storedFirst : memory.slice 0 first.length = first.encode payload := by
    rw [← Memory.take_slice memory 0 within, stored, ← firstLength]
    exact (List.prefix_iff_eq_take.mp begins).symm
  have foundFirst := lookup?_of_slice firstMember firstSized storedFirst
  obtain rfl : first = second := Option.some.inj (foundFirst.symm.trans foundSecond)
  refine ⟨rfl, encode_injective firstSized secondSized ?_⟩
  rw [← storedFirst, stored]

end Entry

namespace Table

/-- Encoding and looking up undo each other.  Wherever the bytes of an encoding
stand, across the last address too, the table finds the entry, whose length and
operand offset are those of the encoding, and the listing shows exactly these
bytes, each operand by its own bytes, which lie within them.  Wherever the table
finds an entry, the bytes are the encoding of what stands at its operand offset.
An encoding begins another one only if entry and operand bytes are the same.  An entry
is what its template reads as, of the same length, and no other form has the template. -/
theorem encodings_are_lossless :
    (∀ entry ∈ entries, ∀ payload : List UInt8, payload.length = entry.payloadSize →
      (entry.encode payload).length = entry.length ∧
      ((entry.encode payload).drop entry.payloadOffset).take entry.payloadSize = payload ∧
      ∀ (memory : Memory) (address : UInt16),
        memory.slice address entry.length = entry.encode payload →
          lookup? memory address = some entry ∧
          entry.payloadAt memory address = payload ∧
          let row := Listing.row memory address
          row.address = address ∧ row.bytes = entry.encode payload ∧
          ∃ texts, row.text = Entry.statement entry.mnemonic texts ∧
            texts.length = entry.operands.length ∧
            ∀ before operand after, entry.operands = before ++ operand :: after →
              let start := entry.payloadOffset + Operand.totalSize before
              start + operand.size ≤ row.bytes.length ∧
              texts[before.length]? =
                some (operand.text row.next ((row.bytes.drop start).take operand.size))) ∧
    (∀ (memory : Memory) (address : UInt16) (entry : Entry),
      lookup? memory address = some entry →
        entry ∈ entries ∧ (entry.payloadAt memory address).length = entry.payloadSize ∧
        memory.slice address entry.length =
          entry.encode (entry.payloadAt memory address)) ∧
    (∀ first ∈ entries, ∀ second ∈ entries, ∀ payload other : List UInt8,
      payload.length = first.payloadSize → other.length = second.payloadSize →
        first.encode payload <+: second.encode other →
          first = second ∧ payload = other) ∧
    (∀ entry : Entry,
      Template.read entry.template =
        ⟨entry.mnemonic.text, entry.operands.map Operand.slot⟩ ∧
      (Template.read entry.template).length entry.page = entry.length ∧
      ∀ other : Entry, other.template = entry.template →
        other.mnemonic = entry.mnemonic ∧ other.operands = entry.operands) := by
  refine ⟨?_, ?_, ?_, ?_⟩
  · intro entry member payload sized
    have lengthEq := Entry.length_encode_of_sized sized
    refine ⟨lengthEq, Entry.drop_take_encode entry sized, ?_⟩
    intro memory address stored
    have found := Entry.lookup?_of_slice member sized stored
    have rowEq : Listing.row memory address =
        Row.ofEntry entry address (entry.encode payload) := by
      simp only [Listing.row, found, stored]
    refine ⟨found, ?_, ?_⟩
    · rw [← Entry.drop_take_slice, stored, Entry.drop_take_encode entry sized]
    · rw [rowEq]
      obtain ⟨texts, text, count, each⟩ :=
        Entry.text_ofEntry entry address (entry.encode payload)
      refine ⟨rfl, rfl, texts, text, count, ?_⟩
      intro before operand after operands
      have next : (Row.ofEntry entry address (entry.encode payload)).next =
          address + UInt16.ofNat entry.length := by
        rw [← lengthEq]
        rfl
      rw [next]
      refine ⟨?_, each before operand after operands⟩
      exact (Entry.operandBytes_inside operands).trans (le_of_eq lengthEq.symm)
  · intro memory address entry found
    exact ⟨mem_entries_of_lookup? found, entry.length_payloadAt memory address,
      Entry.slice_eq_encode found⟩
  · intro first firstMember second secondMember payload other firstSized secondSized begins
    exact Entry.eq_of_encode_prefix firstMember secondMember firstSized secondSized begins
  · intro entry
    exact ⟨Template.read_template entry, Template.length_read_template entry,
      fun other same => Template.form_eq_of_template_eq same⟩

/-- An indexed bit operation whose four bytes lie across the last address. -/
theorem encodings_are_lossless_wrapped :
    let entry : Entry := ⟨.indexedBits .ix, 0xFE, .set, [.digit 7, .indexed .ix]⟩
    let memory := Memory.zero.load 0xFFFE [0xDD, 0xCB, 0x80, 0xFE]
    entry ∈ entries ∧ [(0x80 : UInt8)].length = entry.payloadSize ∧
      entry.encode [0x80] = [0xDD, 0xCB, 0x80, 0xFE] ∧
      lookup? memory 0xFFFE = some entry ∧
      (Listing.row memory 0xFFFE).bytes = [0xDD, 0xCB, 0x80, 0xFE] ∧
      memory.slice 0xFFFE entry.length =
        entry.encode (entry.payloadAt memory 0xFFFE) := by
  intro entry memory
  have member : entry ∈ entries := mem_entries.mpr (by decide)
  have encoded : entry.encode [0x80] = [0xDD, 0xCB, 0x80, 0xFE] := rfl
  have stored : memory.slice 0xFFFE entry.length = entry.encode [0x80] := by
    have loaded : (Memory.zero.load 0xFFFE (entry.encode [0x80])).slice 0xFFFE entry.length =
        entry.encode [0x80] := Entry.slice_load_encode member rfl Memory.zero 0xFFFE
    rw [encoded] at loaded ⊢
    exact loaded
  clear_value memory
  obtain ⟨forward, backward, -⟩ := encodings_are_lossless
  obtain ⟨-, -, everywhere⟩ := forward entry member [0x80] rfl
  obtain ⟨found, -, -, bytes, -⟩ := everywhere memory 0xFFFE stored
  exact ⟨member, rfl, encoded, found, bytes, (backward memory 0xFFFE entry found).2.2⟩

end Table

end Z80
