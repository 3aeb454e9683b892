import Z80.Proofs.ListedOperands
import Z80.Proofs.SourceReading

/-!
# Assembling a listing

The rows of a listing, put behind an `ORG` for the address of the first one, make up
a source.  It assembles to the bytes of the rows, unless a row shows the long form
of a load that has a short one.
-/

namespace Z80

namespace Hex

theorem isSolid_digit {value : Nat} (small : value < 16) :
    Text.isSolid (digit value) = true := by
  have every : ∀ value < 16, Text.isSolid (digit value) = true := by decide
  exact every value small

theorem solid_marked {values : List Nat} (small : ∀ digit ∈ values, digit < 16) :
    Text.Solid ('0' :: 'x' :: numeral values) := by
  refine ⟨List.cons_ne_nil _ _, ?_⟩
  refine forall_mem_marked rfl rfl ?_
  intro value member
  exact isSolid_digit (small value member)

theorem solid_word (word : UInt16) : Text.Solid ('0' :: 'x' :: wordDigits word) :=
  solid_marked (wordValues_lt word)

theorem solid_byteText (byte : UInt8) : Text.Solid (Operand.byteText byte) :=
  solid_marked (byteValues_lt byte)

end Hex

namespace Text

theorem Solid.cons {character : Char} (solid : isSolid character = true) {text : Text}
    (rest : ∀ other ∈ text, isSolid other = true) : Solid (character :: text) :=
  ⟨List.cons_ne_nil _ _, List.forall_mem_cons.mpr ⟨solid, rest⟩⟩

theorem Solid.parenthesized {text : Text} (solid : ∀ character ∈ text, isSolid character = true) :
    Solid ('(' :: text ++ [')']) := by
  apply Solid.cons rfl
  intro character member
  rcases List.mem_append.mp member with inside | isClose
  · exact solid character inside
  · rw [List.mem_singleton.mp isClose]
    rfl

end Text

namespace Operand

theorem solid_displacementText (displacement : UInt8) :
    Text.Solid (displacementText displacement) := by
  unfold displacementText
  split
  · exact Text.Solid.cons rfl (Hex.solid_byteText _).all
  · exact Text.Solid.cons rfl (Hex.solid_byteText _).all

theorem solid_text (next : UInt16) {operand : Operand} {payload : List UInt8}
    (sized : operand.size ≤ payload.length) : Text.Solid (operand.text next payload) := by
  cases operand with
  | keyword fixed =>
      have written : fixed.text ≠ [] ∧ fixed.text.all Text.isSolid = true := by
        cases fixed <;> decide
      exact Text.Solid.of_all written.1 written.2
  | digit value =>
      exact Text.Solid.cons (Hex.isSolid_digit (by omega)) (by simp)
  | vector address => exact Hex.solid_byteText address
  | byte =>
      obtain ⟨value, rest, rfl⟩ := List.exists_cons_of_length_pos sized
      exact Hex.solid_byteText value
  | word =>
      obtain ⟨low, high, rest, rfl⟩ := exists_cons_cons_of_length sized
      exact Hex.solid_word _
  | cell =>
      obtain ⟨low, high, rest, rfl⟩ := exists_cons_cons_of_length sized
      exact Text.Solid.parenthesized (Hex.solid_word _).all
  | relative =>
      obtain ⟨displacement, rest, rfl⟩ := List.exists_cons_of_length_pos sized
      exact Hex.solid_word _
  | indexed register =>
      obtain ⟨displacement, rest, rfl⟩ := List.exists_cons_of_length_pos sized
      have inside : ∀ character ∈ register.name.toList ++ displacementText displacement,
          Text.isSolid character = true := by
        intro character member
        rcases List.mem_append.mp member with inName | inText
        · exact List.all_eq_true.mp register.all_isSolid_name character inName
        · exact (solid_displacementText displacement).all character inText
      exact Text.Solid.parenthesized inside

theorem solid_texts (next : UInt16) {operands : List Operand} {payload : List UInt8}
    (sized : totalSize operands ≤ payload.length) :
    ∀ text ∈ texts next operands payload, Text.Solid text := by
  induction operands generalizing payload with
  | nil => simp [texts]
  | cons operand operands ih =>
      obtain ⟨enough, restSized⟩ := sized_of_cons sized
      rw [texts, List.forall_mem_cons]
      exact ⟨solid_text next enough, ih restSized⟩

end Operand

theorem Entry.statement_eq_text (mnemonic : Mnemonic) (operands : List Text) :
    Entry.statement mnemonic operands = Statement.text ⟨mnemonic.text, operands⟩ := by
  cases operands with
  | nil => exact (List.append_nil _).symm
  | cons first rest => rfl

namespace Mnemonic

theorem plain_text (mnemonic : Mnemonic) :
    Text.Solid mnemonic.text ∧ mnemonic.text.all Char.isAlphanum = true ∧
      Text.upper mnemonic.text = mnemonic.text := by
  have nonempty : mnemonic.text ≠ [] := by cases mnemonic <;> decide
  have solid : mnemonic.text.all Text.isSolid = true := by cases mnemonic <;> rfl
  refine ⟨Text.Solid.of_all nonempty solid, ?_, ?_⟩
  · cases mnemonic <;> rfl
  · cases mnemonic <;> rfl

/-- A mnemonic is no directive. -/
theorem directive_text (mnemonic : Mnemonic) (operands : List Text) :
    (Statement.mk mnemonic.text operands).directive = .instruction := by
  cases mnemonic <;> rfl

end Mnemonic

namespace Listing

/-- The statement that the row at an address shows. -/
def statement (memory : Memory) (address : UInt16) : Statement :=
  match Table.lookup? memory address with
  | some entry =>
      ⟨entry.mnemonic.text, Operand.texts (address + UInt16.ofNat entry.length)
        entry.operands (entry.payloadAt memory address)⟩
  | none => ⟨['D', 'B'], [Operand.byteText (memory.read address)]⟩

/-- The bytes to which the row at an address assembles. -/
def assembled (memory : Memory) (address : UInt16) : List UInt8 :=
  match Table.lookup? memory address with
  | some entry => entry.preferred.encode (entry.payloadAt memory address)
  | none => [memory.read address]

/-- A relative jump at an address does not lead across the ends of the memory. -/
def Inside (memory : Memory) (address : UInt16) : Prop :=
  ∀ entry, Table.lookup? memory address = some entry →
    Operand.relative ∈ entry.operands →
    ∀ displacement ∈ entry.payloadAt memory address,
      Scope.Straight address entry.length displacement

variable (memory : Memory) (address : UInt16)

@[simp] theorem address_row : (row memory address).address = address := by
  unfold row
  split <;> rfl

theorem text_row : (row memory address).text = (statement memory address).text := by
  cases found : Table.lookup? memory address with
  | some entry =>
      simp only [row, statement, found, Row.ofEntry, Entry.drop_take_slice,
        Entry.statement_eq_text]
  | none =>
      simp only [row, statement, found]
      rfl

theorem plain_statement : (statement memory address).Plain := by
  cases found : Table.lookup? memory address with
  | some entry =>
      simp only [statement, found]
      obtain ⟨solid, alphanumeric, upper⟩ := entry.mnemonic.plain_text
      exact ⟨solid, alphanumeric, upper,
        Operand.solid_texts _ (by simp [Entry.payloadSize])⟩
  | none =>
      simp only [statement, found]
      refine ⟨Text.Solid.of_all (List.cons_ne_nil _ _) rfl, rfl, rfl, ?_⟩
      simpa using Hex.solid_byteText (memory.read address)

theorem directive_statement : (statement memory address).directive ≠ .origin := by
  cases found : Table.lookup? memory address with
  | some entry => simp [statement, found, entry.mnemonic.directive_text]
  | none => simp [statement, found, Statement.directive]

theorem assembled_ne_nil : assembled memory address ≠ [] := by
  cases found : Table.lookup? memory address with
  | some entry =>
      simp only [assembled, found]
      apply List.ne_nil_of_length_pos
      rw [Entry.length_encode]
      omega
  | none => simp [assembled, found]

variable {memory}

/-- The statement of a row is encoded at its address, whatever the labels are. -/
theorem statement_assembled {scope : Scope} (inside : Inside memory scope.here) :
    scope.statement (statement memory scope.here) = .ok (assembled memory scope.here) := by
  cases found : Table.lookup? memory scope.here with
  | some entry =>
      simp only [statement, assembled, found, Scope.statement,
        entry.mnemonic.directive_text]
      exact Scope.instruction_texts (Table.mem_entries_of_lookup? found)
        (Entry.length_payloadAt ..) (fun relative => ⟨rfl, inside entry found relative⟩)
  | none =>
      have unquoted (byte : UInt8) : Quoted.content? (Operand.byteText byte) = none := rfl
      have directive (operands : List Text) :
          (Statement.mk ['D', 'B'] operands).directive = .bytes := rfl
      simp only [statement, assembled, found, Scope.statement, directive, reduceCtorEq,
        if_false, Scope.dataBytes, Scope.datum, unquoted, Scope.byte_byteText, Except.map]
      rfl

variable {address : UInt16}

/-- A row that does not show the long form of a load assembles to its own bytes. -/
theorem bytes_row (store : (row memory address).bytes.take 2 ≠ [0xED, 0x63])
    (load : (row memory address).bytes.take 2 ≠ [0xED, 0x6B]) :
    (row memory address).bytes = assembled memory address := by
  cases found : Table.lookup? memory address with
  | some entry =>
      simp only [row, found, Row.ofEntry, Entry.slice_eq_encode found] at store load ⊢
      simp only [assembled, found]
      have extended (opcode : UInt8) (shown : entry.page = .extended ∧ entry.opcode = opcode) :
          (entry.encode (entry.payloadAt memory address)).take 2 = [0xED, opcode] := by
        rw [Entry.encode, shown.1, shown.2]
        rfl
      rw [Entry.preferred_eq_self (fun shown => store (extended _ shown))
        (fun shown => load (extended _ shown))]
  | none => simp only [row, found, Row.ofData, assembled]

end Listing

namespace Progress

/-- A line without a label places the bytes of its statement at the next address. -/
theorem advance_statement {progress : Progress} {statement : Statement}
    {bytes : List UInt8} (pass : Pass) (number : Nat) (placed : statement.directive ≠ .origin)
    (nonempty : bytes ≠ [])
    (bytesEq : (Scope.mk pass progress.labels progress.image.here).statement statement =
      .ok bytes)
    (inside : progress.image.address.toNat + bytes.length ≤ 65536) :
    progress.advance pass number ⟨none, some statement⟩ =
      .ok ⟨⟨some progress.image.origin, progress.image.address + UInt32.ofNat bytes.length,
        progress.image.bytes ++ bytes⟩, progress.labels⟩ := by
  have stays : progress.arrive ⟨none, some statement⟩ = .ok progress := by
    apply arrive_of_not_origin
    intro other same
    exact Option.some.inj same ▸ placed
  have appended := Image.append_of_inside nonempty inside
  exact advance_eq_ok.mpr ⟨progress, progress, stays, define_none _ _,
    place_eq_ok.mpr (Or.inr ⟨statement, bytes, _, rfl, bytesEq, appended, rfl⟩)⟩

end Progress

theorem Assembly.readLines_cons {number : Nat} {text : Text} {rest : List Text} {line : Line}
    {lines : List (Nat × Line)} (read : Line.read text = .ok line)
    (restRead : readLines (number + 1) rest = .ok lines) :
    readLines number (text :: rest) = .ok ((number, line) :: lines) := by
  simp only [readLines, read, restRead]
  rfl

namespace Listing

variable {memory : Memory}

/-- Both readings put the bytes of consecutive rows behind those that are there. -/
theorem exists_walk_rows (count : Nat) (address : UInt16) (number : Nat)
    (store : ∀ row ∈ rows memory address count, row.bytes.take 2 ≠ [0xED, 0x63])
    (load : ∀ row ∈ rows memory address count, row.bytes.take 2 ≠ [0xED, 0x6B])
    (inside : ∀ row ∈ rows memory address count, Inside memory row.address) :
    ∃ lines,
      Assembly.readLines number ((rows memory address count).map Row.text) = .ok lines ∧
      ∀ (pass : Pass) (progress : Progress), progress.image.here = address →
        progress.image.address.toNat +
          ((rows memory address count).flatMap Row.bytes).length ≤ 65536 →
        ∃ last, Progress.walk pass progress lines = .ok last ∧
          last.labels = progress.labels ∧ last.image.origin = progress.image.origin ∧
          last.image.bytes.toList =
            progress.image.bytes.toList ++ (rows memory address count).flatMap Row.bytes := by
  -- The lines do not depend on the progress, so they are chosen before it.
  induction count generalizing address number with
  | zero =>
      refine ⟨[], rfl, fun pass progress _ _ => ⟨progress, rfl, rfl, rfl, ?_⟩⟩
      simp [rows]
  | succ count ih =>
      simp only [rows, List.forall_mem_cons, address_row] at store load inside
      obtain ⟨lines, linesEq, walks⟩ :=
        ih (row memory address).next (number + 1) store.2 load.2 inside.2
      have rowBytes := bytes_row store.1 load.1
      have read : Line.read (row memory address).text =
          .ok ⟨none, some (statement memory address)⟩ := by
        rw [text_row]
        exact Line.read_text (plain_statement memory address)
      refine ⟨_, Assembly.readLines_cons read linesEq, ?_⟩
      rintro pass progress rfl bounded
      simp only [rows, List.flatMap_cons, List.length_append] at bounded
      have advanced := Progress.advance_statement pass number
        (directive_statement memory progress.image.here)
        (assembled_ne_nil memory progress.image.here)
        (statement_assembled inside.1) (by rw [← rowBytes]; omega)
      rw [← rowBytes] at advanced
      -- The rows that follow only need to know where the next progress stands.
      generalize nextEq : Progress.mk ⟨some progress.image.origin,
        progress.image.address + UInt32.ofNat (row memory progress.image.here).bytes.length,
        progress.image.bytes ++ (row memory progress.image.here).bytes⟩ progress.labels =
          next at advanced
      have originEq : next.image.origin = progress.image.origin := by
        rw [← nextEq]
        rfl
      have addressEq : next.image.address.toNat =
          progress.image.address.toNat + (row memory progress.image.here).bytes.length := by
        rw [← nextEq]
        exact Image.toNat_address_add (by omega)
      have hereEq : next.image.here = (row memory progress.image.here).next := by
        rw [Image.here_eq_ofNat, addressEq, UInt16.ofNat_add, Row.next, address_row, Row.length]
        rfl
      obtain ⟨last, walked, lastLabels, lastOrigin, lastBytes⟩ :=
        walks pass next hereEq (by omega)
      refine ⟨last, Progress.walk_cons_eq_ok.mpr ⟨next, advanced, walked⟩, ?_, ?_, ?_⟩
      · rw [lastLabels, ← nextEq]
      · rw [lastOrigin, originEq]
      · rw [lastBytes, ← nextEq, Array.toList_appendList, rows, List.flatMap_cons,
          List.append_assoc]

/-- The line that settles the address of a listing. -/
def origin (start : UInt16) : Statement :=
  ⟨['O', 'R', 'G'], [['0', 'x'] ++ Hex.wordDigits start]⟩

theorem plain_origin (start : UInt16) : (origin start).Plain := by
  refine ⟨Text.Solid.of_all (List.cons_ne_nil _ _) rfl, rfl, rfl, ?_⟩
  simpa [origin] using Hex.solid_word start

theorem advance_origin (pass : Pass) (labels : Labels) (number : Nat) (start : UInt16) :
    Progress.advance pass { labels := labels } number ⟨none, some (origin start)⟩ =
      .ok ⟨⟨some start, start.toUInt32, #[]⟩, labels⟩ := by
  have moved : Progress.arrive { labels := labels } ⟨none, some (origin start)⟩ =
      .ok ⟨⟨some start, start.toUInt32, #[]⟩, labels⟩ := by
    rw [Progress.arrive_of_origin rfl rfl]
    exact Progress.moveOrigin_eq_ok.mpr
      ⟨_, start, ⟨some start, start.toUInt32, #[]⟩, rfl, Scope.word_digits start, rfl, rfl⟩
  exact Progress.advance_eq_ok.mpr ⟨_, _, moved, Progress.define_none _ _,
    Progress.place_eq_ok.mpr (Or.inr ⟨origin start, [], _, rfl, rfl, rfl, rfl⟩)⟩

/-- The source that a listing makes up. -/
def source (memory : Memory) (start : UInt16) (count : Nat) : String :=
  String.ofList (Text.join ['\n']
    ((origin start).text :: (rows memory start count).map Row.text))

theorem text_free {statement : Statement} (plain : statement.Plain) :
    statement.text ≠ [] ∧
      ∀ character ∈ statement.text, character ≠ '\n' ∧ character ≠ '\r' := by
  refine ⟨Statement.text_ne_nil plain, fun character member => ⟨?_, ?_⟩⟩
  · rintro rfl
    exact Statement.not_mem_text plain (by decide) (by decide) (by decide) member
  · rintro rfl
    exact Statement.not_mem_text plain (by decide) (by decide) (by decide) member

theorem text_free_rows (memory : Memory) (address : UInt16) (count : Nat) :
    ∀ text ∈ (rows memory address count).map Row.text,
      text ≠ [] ∧ ∀ character ∈ text, character ≠ '\n' ∧ character ≠ '\r' := by
  induction count generalizing address with
  | zero => simp [rows]
  | succ count ih =>
      rw [rows, List.map_cons, List.forall_mem_cons, text_row]
      exact ⟨text_free (plain_statement memory address), ih _⟩

theorem split_source (memory : Memory) (start : UInt16) (count : Nat) :
    Line.split (source memory start count).toList =
      (origin start).text :: (rows memory start count).map Row.text := by
  have free : ∀ text ∈ (origin start).text :: (rows memory start count).map Row.text,
      text ≠ [] ∧ ∀ character ∈ text, character ≠ '\n' ∧ character ≠ '\r' := by
    rw [List.forall_mem_cons]
    exact ⟨text_free (plain_origin start), text_free_rows memory start count⟩
  rw [source, String.toList_ofList]
  exact Line.split_join (fun text member => (free text member).1)
    (fun text member => (free text member).2)

theorem assemble_source {start : UInt16} {count : Nat}
    (bounded : start.toNat + ((rows memory start count).flatMap Row.bytes).length ≤ 65536)
    (store : ∀ row ∈ rows memory start count, row.bytes.take 2 ≠ [0xED, 0x63])
    (load : ∀ row ∈ rows memory start count, row.bytes.take 2 ≠ [0xED, 0x6B])
    (inside : ∀ row ∈ rows memory start count, Inside memory row.address) :
    assemble (source memory start count) =
      .ok ⟨start, (rows memory start count).flatMap Row.bytes, []⟩ := by
  obtain ⟨lines, linesEq, walks⟩ := exists_walk_rows count start 2 store load inside
  have read : Assembly.readLines 1
      ((origin start).text :: (rows memory start count).map Row.text) =
        .ok ((1, ⟨none, some (origin start)⟩) :: lines) :=
    Assembly.readLines_cons (Line.read_text (plain_origin start)) linesEq
  let settled : Progress := ⟨⟨some start, start.toUInt32, #[]⟩, []⟩
  have hereEq : settled.image.here = start := UInt16.toUInt16_toUInt32 start
  have room : settled.image.address.toNat +
      ((rows memory start count).flatMap Row.bytes).length ≤ 65536 := by
    rwa [show settled.image.address.toNat = start.toNat from UInt16.toNat_toUInt32 start]
  have walk (pass : Pass) : ∃ last : Progress,
      Progress.walk pass {} ((1, ⟨none, some (origin start)⟩) :: lines) = .ok last ∧
        last.labels = [] ∧ last.image.origin = start ∧
        last.image.bytes.toList = (rows memory start count).flatMap Row.bytes := by
    obtain ⟨last, walked, labels, originEq, bytes⟩ := walks pass settled hereEq room
    exact ⟨last, Progress.walk_cons_eq_ok.mpr
      ⟨settled, advance_origin pass [] 1 start, walked⟩, labels, originEq, bytes⟩
  obtain ⟨laidOut, laid, laidLabels, _, _⟩ := walk .layout
  obtain ⟨emitted, emittedEq, _, originEq, bytes⟩ := walk .emit
  refine assemble_eq_ok.mpr ⟨_, laidOut, emitted, ?_, laid, ?_, ?_⟩
  · rw [split_source]
    exact read
  · rw [laidLabels]
    exact emittedEq
  · rw [originEq, bytes, laidLabels]

/-- A row with the bytes of an entry shows that entry. -/
theorem lookup?_of_bytes_row {address : UInt16} {entry : Entry} {payload : List UInt8}
    (member : entry ∈ Table.entries) (sized : payload.length = entry.payloadSize)
    (long : entry.length ≠ 1) (shown : (row memory address).bytes = entry.encode payload) :
    Table.lookup? memory address = some entry ∧
      entry.payloadAt memory address = payload := by
  have lengthEq := congrArg List.length shown
  rw [Entry.length_encode_of_sized sized] at lengthEq
  cases found : Table.lookup? memory address with
  | none =>
      simp only [row, found, Row.ofData, List.length_singleton] at lengthEq
      exact absurd lengthEq.symm long
  | some other =>
      simp only [row, found, Row.ofEntry, Memory.length_slice] at lengthEq shown
      rw [lengthEq] at shown
      have foundEntry := Entry.lookup?_of_slice member sized shown
      obtain rfl := Option.some.inj (found.symm.trans foundEntry)
      rw [← Entry.drop_take_slice, shown, Entry.drop_take_encode other sized]
      exact ⟨rfl, rfl⟩

/-- A statement that does not depend on its place assembles by itself. -/
theorem assemble_statement {statement : Statement} {bytes : List UInt8}
    (plain : statement.Plain) (placed : statement.directive ≠ .origin) (nonempty : bytes ≠ [])
    (few : bytes.length ≤ 65536)
    (bytesEq : ∀ pass, (Scope.mk pass [] 0).statement statement = .ok bytes) :
    assemble (String.ofList statement.text) = .ok ⟨0, bytes, []⟩ := by
  have walk (pass : Pass) : Progress.walk pass {} [(1, ⟨none, some statement⟩)] =
      .ok ⟨⟨some 0, 0 + UInt32.ofNat bytes.length, (#[] : Array UInt8) ++ bytes⟩, []⟩ := by
    have bounded : (Image.address {}).toNat + bytes.length ≤ 65536 := by
      change 0 + bytes.length ≤ 65536
      omega
    have advanced : Progress.advance pass {} 1 ⟨none, some statement⟩ =
        .ok ⟨⟨some 0, 0 + UInt32.ofNat bytes.length, (#[] : Array UInt8) ++ bytes⟩, []⟩ :=
      Progress.advance_statement pass 1 placed nonempty (bytesEq pass) bounded
    exact Progress.walk_cons_eq_ok.mpr ⟨_, advanced, rfl⟩
  obtain ⟨textNonempty, free⟩ := text_free plain
  refine assemble_eq_ok.mpr ⟨_, _, _, ?_, walk .layout, walk .emit, ?_⟩
  · rw [String.toList_ofList, Line.split_of_free textNonempty free]
    exact Assembly.readLines_cons (Line.read_text plain) rfl
  · simp [Image.origin]

/-- The text of a row without a relative operand assembles by itself. -/
theorem assemble_row {address : UInt16} {entry : Entry} {payload : List UInt8}
    (member : entry ∈ Table.entries) (sized : payload.length = entry.payloadSize)
    (long : entry.length ≠ 1) (fixed : Operand.relative ∉ entry.operands)
    (few : (entry.preferred.encode payload).length ≤ 65536)
    (shown : (row memory address).bytes = entry.encode payload) :
    assemble (String.ofList (row memory address).text) =
      .ok ⟨0, entry.preferred.encode payload, []⟩ := by
  obtain ⟨found, payloadEq⟩ := lookup?_of_bytes_row member sized long shown
  have assembledEq : assembled memory address = entry.preferred.encode payload := by
    simp only [assembled, found, payloadEq]
  rw [text_row, ← assembledEq]
  rw [← assembledEq] at few
  apply assemble_statement (plain_statement memory address)
    (directive_statement memory address) (assembled_ne_nil memory address) few
  intro pass
  simp only [statement, assembled, found, payloadEq, Scope.statement,
    entry.mnemonic.directive_text]
  exact Scope.instruction_texts member sized (fun relative => absurd relative fixed)

end Listing

/-- A listing behind an `ORG` for its first address assembles to the bytes of its rows,
if these do not run past the last address, if no relative jump leads across the ends
of the memory, and if no row is a load or store of `HL` in its long form.  Such a row
assembles to the short form for the same address. -/
theorem assemble_listing :
    (∀ (memory : Memory) (start : UInt16) (count : Nat),
      let rows := Listing.rows memory start count
      start.toNat + (rows.flatMap Row.bytes).length ≤ 65536 →
      (∀ row ∈ rows, row.bytes.take 2 ≠ [0xED, 0x63] ∧
        row.bytes.take 2 ≠ [0xED, 0x6B]) →
      (∀ row ∈ rows, ∀ entry, Table.lookup? memory row.address = some entry →
        Operand.relative ∈ entry.operands →
        ∀ displacement ∈ entry.payloadAt memory row.address,
          0 ≤ (row.address.toNat + entry.length + signedValue displacement : Int) ∧
          (row.address.toNat + entry.length + signedValue displacement : Int) ≤ 65535) →
      assemble (Listing.source memory start count) =
        .ok ⟨start, rows.flatMap Row.bytes, []⟩) ∧
    (∀ (memory : Memory) (address : UInt16) (low high : UInt8),
      let row := Listing.row memory address
      (row.bytes = [0xED, 0x63, low, high] →
        assemble (String.ofList row.text) = .ok ⟨0, [0x22, low, high], []⟩) ∧
      (row.bytes = [0xED, 0x6B, low, high] →
        assemble (String.ofList row.text) = .ok ⟨0, [0x2A, low, high], []⟩)) := by
  constructor
  · intro memory start count rows bounded long inside
    exact Listing.assemble_source bounded (fun row member => (long row member).1)
      (fun row member => (long row member).2) inside
  · intro memory address low high row
    let store : Entry := ⟨.extended, 0x63, .ld, [.cell, .keyword .hl]⟩
    let load : Entry := ⟨.extended, 0x6B, .ld, [.keyword .hl, .cell]⟩
    have storeMember : store ∈ Table.entries := Table.mem_entries.mpr (by decide)
    have loadMember : load ∈ Table.entries := Table.mem_entries.mpr (by decide)
    constructor
    · intro shown
      have sized : [low, high].length = store.payloadSize := rfl
      have few : (store.preferred.encode [low, high]).length ≤ 65536 := by
        change 3 ≤ 65536
        decide
      exact Listing.assemble_row storeMember sized (by decide) (by decide) few shown
    · intro shown
      have sized : [low, high].length = load.payloadSize := rfl
      have few : (load.preferred.encode [low, high]).length ≤ 65536 := by
        change 3 ≤ 65536
        decide
      exact Listing.assemble_row loadMember sized (by decide) (by decide) few shown

/-- A jump to itself and a byte that begins no instruction; and the long form of a
load. -/
theorem assemble_listing_jump :
    (∃ memory : Memory, memory.slice 0x8000 3 = [0x10, 0xFE, 0xED] ∧
      Listing.source memory 0x8000 2 = "ORG 0x8000\nDJNZ 0x8000\nDB 0xED" ∧
      assemble (Listing.source memory 0x8000 2) =
        .ok ⟨0x8000, [0x10, 0xFE, 0xED], []⟩) ∧
    ∃ memory : Memory, (Listing.row memory 0).bytes = [0xED, 0x6B, 0x34, 0x12] ∧
      assemble (String.ofList (Listing.row memory 0).text) =
        .ok ⟨0, [0x2A, 0x34, 0x12], []⟩ := by
  constructor
  · obtain ⟨memory, block, fourth⟩ : ∃ memory : Memory,
        memory.slice 0x8000 3 = [0x10, 0xFE, 0xED] ∧ memory.read 0x8003 = 0 := by
      refine ⟨((Memory.zero.write 0x8000 0x10).write 0x8001 0xFE).write 0x8002 0xED, ?_, ?_⟩
      · simp [Memory.slice, Memory.read_write]
      · simp [Memory.read_write]
    have stored : memory.slice 0x8000 2 = [0x10, 0xFE] := by
      rw [← Memory.take_slice memory 0x8000 (by decide : 2 ≤ 3), block]
      rfl
    have third : memory.read 0x8002 = 0xED := by
      have last := Memory.getElem?_slice memory 0x8000 (by decide : 2 < 3)
      rw [block] at last
      exact (Option.some.inj last).symm
    have found : Table.lookup? memory 0x8000 = some ⟨.base, 0x10, .djnz, [.relative]⟩ := by
      have sized : [(0xFE : UInt8)].length =
          Entry.payloadSize ⟨.base, 0x10, .djnz, [.relative]⟩ := rfl
      exact Entry.lookup?_of_slice (Table.mem_entries.mpr (by decide)) sized stored
    have missing : Table.lookup? memory 0x8002 = none := by
      rw [Table.lookup?, third]
      change Table.get? .extended (memory.read 0x8003) = none
      rw [fourth]
      rfl
    have first : Listing.row memory 0x8000 =
        ⟨0x8000, [0x10, 0xFE], "DJNZ 0x8000".toList⟩ := by
      have lengthEq : Entry.length ⟨.base, 0x10, .djnz, [.relative]⟩ = 2 := rfl
      simp only [Listing.row, found, Row.ofEntry, lengthEq, stored]
      decide
    have second : Listing.row memory 0x8002 = ⟨0x8002, [0xED], "DB 0xED".toList⟩ := by
      simp only [Listing.row, missing, third]
      decide
    have rowsEq : Listing.rows memory 0x8000 2 =
        [⟨0x8000, [0x10, 0xFE], "DJNZ 0x8000".toList⟩,
          ⟨0x8002, [0xED], "DB 0xED".toList⟩] := by
      rw [Listing.rows, first, Listing.rows]
      change [_, Listing.row memory 0x8002] = _
      rw [second]
    have assembled := assemble_listing.1 memory 0x8000 2
    simp only [rowsEq] at assembled
    refine ⟨memory, block, by rw [Listing.source, rowsEq]; decide,
      assembled (by decide) (by decide) ?_⟩
    intro row member entry entryFound _ displacement inPayload
    simp only [List.mem_cons, List.not_mem_nil, or_false] at member
    rcases member with rfl | rfl
    · obtain rfl := Option.some.inj (found.symm.trans entryFound)
      have payload : Entry.payloadAt ⟨.base, 0x10, .djnz, [.relative]⟩ memory 0x8000 =
          [0xFE] := by
        have lengthEq : Entry.length ⟨.base, 0x10, .djnz, [.relative]⟩ = 2 := rfl
        rw [← Entry.drop_take_slice, lengthEq, stored]
        rfl
      rw [payload, List.mem_singleton] at inPayload
      subst inPayload
      decide
    · rw [missing] at entryFound
      simp at entryFound
  · let load : Entry := ⟨.extended, 0x6B, .ld, [.keyword .hl, .cell]⟩
    obtain ⟨memory, stored⟩ : ∃ memory : Memory,
        memory.slice 0 4 = [0xED, 0x6B, 0x34, 0x12] := by
      refine ⟨Memory.zero.load 0 [0xED, 0x6B, 0x34, 0x12], ?_⟩
      simp [Memory.slice, Memory.load, Memory.read_write]
    have sized : [(0x34 : UInt8), 0x12].length = load.payloadSize := rfl
    have found : Table.lookup? memory 0 = some load :=
      Entry.lookup?_of_slice (Table.mem_entries.mpr (by decide)) sized stored
    have shown : (Listing.row memory 0).bytes = [0xED, 0x6B, 0x34, 0x12] := by
      simp only [Listing.row, found, Row.ofEntry]
      exact stored
    exact ⟨memory, shown, (assemble_listing.2 memory 0 0x34 0x12).2 shown⟩

end Z80
