import Z80.Proofs.StatementLength
import Z80.Proofs.WrittenLines

/-!
# Operands of a listing

The text of an operand has a known shape, stands for the operand bytes it was made
from, and fits the operand itself.  The first entry whose operands may read the
texts of an entry is that entry, except for two long forms of a load that have a
short one.
-/

namespace Z80

namespace Keyword

theorem ofText?_eq_none {text : Text} (zero : '0' ∈ text) : ofText? text = none := by
  apply List.find?_eq_none.mpr
  intro keyword _ same
  have absent : ∀ keyword ∈ all, '0' ∉ keyword.text := by decide
  apply absent keyword keyword.mem_all
  rw [beq_iff_eq.mp same]
  exact List.mem_map.mpr ⟨'0', zero, rfl⟩

end Keyword

theorem IndexRegister.all_isSolid_name (register : IndexRegister) :
    register.name.toList.all Text.isSolid = true := by
  cases register <;> rfl

namespace Argument

theorem ofText_keyword (keyword : Keyword) : ofText keyword.text = .keyword keyword := by
  cases keyword <;> decide

variable {text : Text} {number : Int}

theorem ofText_number (isNumber : Expression.IsNumber text number)
    (unknown : Keyword.ofText? text = none) (plain : text.head? ≠ some '(') :
    ofText text = .value text := by
  have open? : parenthesized? text = none := by
    cases text with
    | nil => rfl
    | cons first rest =>
        have notOpen : first ≠ '(' := by simpa using plain
        unfold parenthesized?
        split
        · rename_i same
          exact absurd (List.cons.inj same).1 notOpen
        · rfl
  simp only [ofText, Text.compact_of_forall isNumber.solid, unknown, open?]

theorem ofText_marked (isNumber : Expression.IsNumber ('0' :: text) number) :
    ofText ('0' :: text) = .value ('0' :: text) :=
  ofText_number isNumber (Keyword.ofText?_eq_none (by simp)) (by simp)

theorem ofText_parenthesized {inner : Text}
    (solid : ∀ character ∈ inner, Text.isBlank character = false) (zero : '0' ∈ inner) :
    ofText ('(' :: inner ++ [')']) = ofInner inner := by
  have compacted : Text.compact ('(' :: inner ++ [')']) = '(' :: inner ++ [')'] := by
    apply Text.compact_of_forall
    intro character member
    simp only [List.cons_append, List.mem_cons, List.mem_append, List.not_mem_nil,
      or_false] at member
    rcases member with rfl | inside | rfl
    · rfl
    · exact solid character inside
    · rfl
  have unknown : Keyword.ofText? ('(' :: inner ++ [')']) = none :=
    Keyword.ofText?_eq_none (by simp [zero])
  have inside : parenthesized? ('(' :: inner ++ [')']) = some inner := by
    simp [parenthesized?]
  simp only [ofText, compacted, unknown, inside]

end Argument

namespace Operand

theorem isNumber_wordText (low high : UInt8) :
    Expression.IsNumber (wordText low high) ((wordOfBytes high low).toNat : Int) :=
  Expression.isNumber_word _

/-- The shape of an operand in a listing. -/
def argument (next : UInt16) (operand : Operand) (payload : List UInt8) : Argument :=
  match operand, payload with
  | .keyword fixed, _ => .keyword fixed
  | .cell, low :: high :: _ => .cell (wordText low high)
  | .indexed register, displacement :: _ =>
      .indexed register (displacementText displacement)
  | operand, payload => .value (operand.text next payload)

/-- The shapes of operands that a payload fills in one after another. -/
def arguments (next : UInt16) : List Operand → List UInt8 → List Argument
  | [], _ => []
  | operand :: rest, payload =>
      operand.argument next payload :: arguments next rest (payload.drop operand.size)

theorem ofText_indexed (register : IndexRegister) (displacement : UInt8) :
    Argument.ofText ('(' :: register.name.toList ++ displacementText displacement ++ [')']) =
      .indexed register (displacementText displacement) := by
  have signed : ∃ sign byte, displacementText displacement = sign :: byteText byte ∧
      (sign = '+' ∨ sign = '-') := by
    unfold displacementText
    split
    · exact ⟨'-', _, rfl, Or.inr rfl⟩
    · exact ⟨'+', _, rfl, Or.inl rfl⟩
  obtain ⟨sign, byte, textEq, isSign⟩ := signed
  have solid : ∀ character ∈ register.name.toList ++ displacementText displacement,
      Text.isBlank character = false := by
    intro character member
    rcases List.mem_append.mp member with inName | inText
    · exact Text.isBlank_of_isSolid
        (List.all_eq_true.mp register.all_isSolid_name character inName)
    · rw [textEq] at inText
      rcases List.mem_cons.mp inText with rfl | inByte
      · rcases isSign with rfl | rfl <;> rfl
      · exact (Expression.isNumber_byteText byte).solid character inByte
  have zero : '0' ∈ register.name.toList ++ displacementText displacement := by
    rw [textEq]
    simp [byteText]
  have inside := Argument.ofText_parenthesized solid zero
  rw [List.cons_append] at inside ⊢
  rw [List.cons_append, inside, textEq]
  rcases isSign with rfl | rfl <;> cases register <;> rfl

theorem exists_cons_cons_of_length {payload : List UInt8} (sized : 2 ≤ payload.length) :
    ∃ low high rest, payload = low :: high :: rest := by
  rcases payload with _ | ⟨low, _ | ⟨high, rest⟩⟩
  · simp at sized
  · simp at sized
  · exact ⟨low, high, rest, rfl⟩

theorem ofText_text (next : UInt16) {operand : Operand} {payload : List UInt8}
    (sized : operand.size ≤ payload.length) :
    Argument.ofText (operand.text next payload) = operand.argument next payload := by
  cases operand with
  | keyword fixed => exact Argument.ofText_keyword fixed
  | digit value =>
      have every : ∀ value : Fin 8, Keyword.ofText? [Hex.digit value] = none ∧
          [Hex.digit value].head? ≠ some '(' := by decide
      exact Argument.ofText_number (Expression.isNumber_digit value) (every value).1
        (every value).2
  | vector address =>
      exact Argument.ofText_marked (Expression.isNumber_byteText address)
  | byte =>
      obtain ⟨value, rest, rfl⟩ := List.exists_cons_of_length_pos sized
      exact Argument.ofText_marked (Expression.isNumber_byteText value)
  | word =>
      obtain ⟨low, high, rest, rfl⟩ := exists_cons_cons_of_length sized
      exact Argument.ofText_marked (isNumber_wordText low high)
  | cell =>
      obtain ⟨low, high, rest, rfl⟩ := exists_cons_cons_of_length sized
      exact Argument.ofText_parenthesized (isNumber_wordText low high).solid
        (by simp [wordText])
  | relative =>
      obtain ⟨displacement, rest, rfl⟩ := List.exists_cons_of_length_pos sized
      exact Argument.ofText_marked (Expression.isNumber_word _)
  | indexed register =>
      obtain ⟨displacement, rest, rfl⟩ := List.exists_cons_of_length_pos sized
      exact ofText_indexed register displacement

theorem sized_of_cons {operand : Operand} {operands : List Operand} {payload : List UInt8}
    (sized : totalSize (operand :: operands) ≤ payload.length) :
    operand.size ≤ payload.length ∧
      totalSize operands ≤ (payload.drop operand.size).length := by
  rw [totalSize] at sized
  rw [List.length_drop]
  omega

theorem map_ofText_texts (next : UInt16) {operands : List Operand} {payload : List UInt8}
    (sized : totalSize operands ≤ payload.length) :
    (texts next operands payload).map Argument.ofText = arguments next operands payload := by
  induction operands generalizing payload with
  | nil => rfl
  | cons operand rest ih =>
      obtain ⟨enough, restSized⟩ := sized_of_cons sized
      rw [texts, List.map_cons, ofText_text next enough, ih restSized, arguments]

/-- Whether an operand is written as an expression. -/
def isValue : Operand → Bool
  | .digit _ | .vector _ | .byte | .word | .relative => true
  | .keyword _ | .cell | .indexed _ => false

/-- Whether an operand may read the text of another one in a listing.  A number
that the opcode fixes may read every filling of an operand. -/
def reads : Operand → Operand → Bool
  | .keyword fixed, written => written == .keyword fixed
  | .indexed register, written =>
      written == .keyword (Keyword.atIndex register) || written == .indexed register
  | .cell, written => written == .cell
  | .byte, written | .word, written | .relative, written => written.isValue
  | .digit number, written =>
      written.isValue && written.value?.elim true (fun value => value == number.val)
  | .vector address, written =>
      written.isValue && written.value?.elim true (fun value => value == address.toNat)

def allRead : List Operand → List Operand → Bool
  | [], [] => true
  | operand :: operands, written :: others =>
      operand.reads written && allRead operands others
  | _, _ => false

end Operand

namespace Scope

variable {scope : Scope}

theorem value_of_isNumber {text : Text} {number : Int}
    (isNumber : Expression.IsNumber text number) : scope.value text = .ok number := by
  simp only [Scope.value, isNumber.evaluate]

theorem valueIn_of_isNumber {text : Text} {number : Int} {range : ValueRange}
    (isNumber : Expression.IsNumber text number)
    (inside : range.contains number = true) : scope.valueIn range text = .ok number := by
  simp only [valueIn, value_of_isNumber isNumber, bind, Except.bind, inside, Bool.not_true,
    Bool.false_eq_true, and_false, if_false]

theorem byte_byteText (byte : UInt8) : scope.byte (Operand.byteText byte) = .ok byte := by
  have bound := byte.toNat_lt
  have inside : ValueRange.byte.contains byte.toNat = true := by
    apply ValueRange.contains_eq_true.mpr
    simp only [ValueRange.byte]
    omega
  rw [Scope.byte, valueIn_of_isNumber (Expression.isNumber_byteText byte) inside, Except.map,
    ofInt_toNat_byte]

theorem word_digits (word : UInt16) :
    scope.word ('0' :: 'x' :: Hex.wordDigits word) = .ok word := by
  have bound := word.toNat_lt
  have inside : ValueRange.word.contains word.toNat = true := by
    apply ValueRange.contains_eq_true.mpr
    simp only [ValueRange.word]
    omega
  rw [Scope.word, valueIn_of_isNumber (Expression.isNumber_word word) inside, Except.map,
    ofInt_toNat_word]

theorem displacement_displacementText (displacement : UInt8) :
    scope.displacement (Operand.displacementText displacement) = .ok displacement := by
  have inside : ValueRange.displacement.contains (signedValue displacement) = true :=
    ValueRange.contains_eq_true.mpr (signedValue_bounds displacement)
  have valued : scope.value (Operand.displacementText displacement) =
      .ok (signedValue displacement) := by
    simp only [Scope.value, Expression.evaluate_displacementText]
  simp only [Scope.displacement, valueIn, valued, bind, Except.bind, inside, Bool.not_true,
    Bool.false_eq_true, and_false, if_false, Except.map, ofInt_signedValue]

/-- The text of a relative operand stands for its displacement, unless its target
lies across the ends of the memory. -/
theorem relative_target {length : Nat} {displacement : UInt8}
    (least : 0 ≤ (scope.here.toNat + length + signedValue displacement : Int))
    (greatest : (scope.here.toNat + length + signedValue displacement : Int) ≤ 65535) :
    scope.relative length ('0' :: 'x' :: Hex.wordDigits
      (scope.here + UInt16.ofNat length + signExtend displacement)) = .ok displacement := by
  have target := toNat_add_signExtend scope.here length displacement least greatest
  have offset : (scope.here.toNat + length + signedValue displacement : Int) -
      (scope.here.toNat + length) = signedValue displacement := by omega
  have bounds := signedValue_bounds displacement
  have wrapped : Number.wrap (signedValue displacement) = signedValue displacement :=
    Number.wrap_eq_self ⟨by omega, by omega⟩
  have inside : ValueRange.displacement.contains (signedValue displacement) = true :=
    ValueRange.contains_eq_true.mpr bounds
  simp only [Scope.relative, value_of_isNumber (Expression.isNumber_word _), bind,
    Except.bind, target, offset, wrapped, inside, Bool.not_true, Bool.false_eq_true, and_false,
    if_false, ofInt_signedValue]

/-- An operand that is an expression has the number that its opcode fixes. -/
theorem exists_value_argument (scope : Scope) (next : UInt16) (operand : Operand)
    (payload : List UInt8) (valued : operand.isValue = true) :
    ∃ text, operand.argument next payload = .value text ∧
      ∀ number, operand.value? = some number → scope.value text = .ok (number : Int) := by
  cases operand with
  | digit value =>
      refine ⟨_, rfl, ?_⟩
      rintro number isValue
      obtain rfl := Option.some.inj isValue
      exact value_of_isNumber (Expression.isNumber_digit value)
  | vector address =>
      refine ⟨_, rfl, ?_⟩
      rintro number isValue
      obtain rfl := Option.some.inj isValue
      exact value_of_isNumber (Expression.isNumber_byteText address)
  | byte => exact ⟨_, rfl, nofun⟩
  | word => exact ⟨_, rfl, nofun⟩
  | relative => exact ⟨_, rfl, nofun⟩
  | _ => simp [Operand.isValue] at valued

private theorem elim_of_toOption {text : Text} {written : Operand} {number : Nat}
    (valued : ∀ other, written.value? = some other → scope.value text = .ok (other : Int))
    (fit : ((scope.value text).toOption == some (number : Int)) = true) :
    written.value?.elim true (fun value => value == number) = true := by
  cases fixed : written.value? with
  | none => rfl
  | some other =>
      rw [valued other fixed] at fit
      simpa [Except.toOption, Int.natCast_inj] using fit

theorem reads_of_fits {next : UInt16} {tried written : Operand} {payload : List UInt8}
    (sized : written.size ≤ payload.length)
    (fit : scope.fits tried (written.argument next payload) = true) :
    tried.reads written = true := by
  -- An expression may fit by its value, every other text fits by its shape.
  cases valued : written.isValue with
  | true =>
      obtain ⟨text, argumentEq, numbered⟩ :=
        exists_value_argument scope next written payload valued
      rw [argumentEq] at fit
      cases tried with
      | digit number => simp [Operand.reads, valued, elim_of_toOption numbered fit]
      | vector address => simp [Operand.reads, valued, elim_of_toOption numbered fit]
      | byte => exact valued
      | word => exact valued
      | relative => exact valued
      | _ => simp [fits] at fit
  | false =>
      cases written with
      | keyword used =>
          cases tried <;> simp_all [fits, Operand.reads, Operand.argument]
      | cell =>
          obtain ⟨low, high, rest, rfl⟩ := Operand.exists_cons_cons_of_length sized
          cases tried <;> simp_all [fits, Operand.reads, Operand.argument]
      | indexed register =>
          obtain ⟨displacement, rest, rfl⟩ := List.exists_cons_of_length_pos sized
          cases tried <;> simp_all [fits, Operand.reads, Operand.argument]
      | _ => simp [Operand.isValue] at valued

/-- An operand fits its own text. -/
theorem fits_argument (next : UInt16) {operand : Operand} {payload : List UInt8}
    (sized : operand.size ≤ payload.length) :
    scope.fits operand (operand.argument next payload) = true := by
  cases operand with
  | keyword fixed => simp [fits, Operand.argument]
  | digit value =>
      obtain ⟨text, argumentEq, numbered⟩ :=
        exists_value_argument scope next (.digit value) payload rfl
      simp [argumentEq, fits, numbered _ rfl, Except.toOption]
  | vector address =>
      obtain ⟨text, argumentEq, numbered⟩ :=
        exists_value_argument scope next (.vector address) payload rfl
      simp [argumentEq, fits, numbered _ rfl, Except.toOption]
  | byte => rfl
  | word => rfl
  | cell =>
      obtain ⟨low, high, rest, rfl⟩ := Operand.exists_cons_cons_of_length sized
      rfl
  | relative => rfl
  | indexed register =>
      obtain ⟨displacement, rest, rfl⟩ := List.exists_cons_of_length_pos sized
      simp [fits, Operand.argument]

theorem allRead_of_allFit {next : UInt16} {tried written : List Operand}
    {payload : List UInt8} (sized : Operand.totalSize written ≤ payload.length)
    (fit : scope.allFit tried (Operand.arguments next written payload) = true) :
    Operand.allRead tried written = true := by
  induction tried generalizing written payload with
  | nil => cases written <;> simp_all [allFit, Operand.arguments, Operand.allRead]
  | cons operand tried ih =>
      cases written with
      | nil => simp [allFit, Operand.arguments] at fit
      | cons first others =>
          obtain ⟨enough, restSized⟩ := Operand.sized_of_cons sized
          simp only [allFit, Operand.arguments, Bool.and_eq_true] at fit
          rw [Operand.allRead, reads_of_fits enough fit.1, ih restSized fit.2]
          rfl

theorem allFit_arguments (next : UInt16) {operands : List Operand} {payload : List UInt8}
    (sized : Operand.totalSize operands ≤ payload.length) :
    scope.allFit operands (Operand.arguments next operands payload) = true := by
  induction operands generalizing payload with
  | nil => rfl
  | cons operand operands ih =>
      obtain ⟨enough, restSized⟩ := Operand.sized_of_cons sized
      rw [Operand.arguments, allFit, fits_argument next enough, ih restSized]
      rfl

/-- A relative displacement of an instruction leads to an address without wrapping. -/
def Straight (here : UInt16) (length : Nat) (displacement : UInt8) : Prop :=
  0 ≤ (here.toNat + length + signedValue displacement : Int) ∧
    (here.toNat + length + signedValue displacement : Int) ≤ 65535

theorem fill_argument {next : UInt16} {length : Nat} {operand : Operand}
    {payload : List UInt8} (sized : operand.size ≤ payload.length)
    (straight : operand = .relative → next = scope.here + UInt16.ofNat length ∧
      ∀ displacement ∈ payload, Straight scope.here length displacement) :
    scope.fill length operand (operand.argument next payload) =
      .ok (payload.take operand.size) := by
  cases operand with
  | byte =>
      obtain ⟨value, rest, rfl⟩ := List.exists_cons_of_length_pos sized
      simp only [fill, Operand.argument, Operand.text, byte_byteText, Except.map]
      rfl
  | word =>
      obtain ⟨low, high, rest, rfl⟩ := Operand.exists_cons_cons_of_length sized
      simp only [fill, Operand.argument, Operand.text, Operand.wordText, word_digits,
        Except.map, lowByte_wordOfBytes, highByte_wordOfBytes]
      rfl
  | cell =>
      obtain ⟨low, high, rest, rfl⟩ := Operand.exists_cons_cons_of_length sized
      simp only [fill, Operand.argument, Operand.wordText, word_digits,
        Except.map, lowByte_wordOfBytes, highByte_wordOfBytes]
      rfl
  | relative =>
      obtain ⟨displacement, rest, rfl⟩ := List.exists_cons_of_length_pos sized
      obtain ⟨rfl, leads⟩ := straight rfl
      obtain ⟨least, greatest⟩ := leads displacement (by simp)
      simp only [fill, Operand.argument, Operand.text, relative_target least greatest,
        Except.map]
      rfl
  | indexed register =>
      obtain ⟨displacement, rest, rfl⟩ := List.exists_cons_of_length_pos sized
      simp only [fill, Operand.argument, displacement_displacementText, Except.map]
      rfl
  | _ => rfl

/-- The texts of operands are filled in with the operand bytes they were made from. -/
theorem payload_arguments {next : UInt16} {length : Nat} {operands : List Operand}
    {payload : List UInt8} (sized : Operand.totalSize operands = payload.length)
    (straight : Operand.relative ∈ operands →
      next = scope.here + UInt16.ofNat length ∧
        ∀ displacement ∈ payload, Straight scope.here length displacement) :
    scope.payload length operands (Operand.arguments next operands payload) =
      .ok payload := by
  induction operands generalizing payload with
  | nil =>
      have empty : payload = [] := List.eq_nil_of_length_eq_zero sized.symm
      rw [empty]
      rfl
  | cons operand operands ih =>
      rw [Operand.totalSize] at sized
      have restSized : Operand.totalSize operands =
          (payload.drop operand.size).length := by
        rw [List.length_drop]
        omega
      have first : scope.fill length operand (operand.argument next payload) =
          .ok (payload.take operand.size) :=
        fill_argument (by omega) (fun isRelative => straight (by simp [isRelative]))
      have rest := ih restSized (fun member => by
        obtain ⟨nextEq, leads⟩ := straight (by simp [member])
        exact ⟨nextEq, fun displacement inRest =>
          leads displacement (List.mem_of_mem_drop inRest)⟩)
      rw [Operand.arguments, Scope.payload, first, rest]
      change Except.ok (payload.take operand.size ++ payload.drop operand.size) = _
      rw [List.take_append_drop]

end Scope

namespace Entry

/-- The entry by which the text of an entry is encoded.  The load of a pair that is
`HL` has a short form. -/
def preferred (entry : Entry) : Entry :=
  if entry.page = .extended ∧ entry.opcode = 0x63 then
    ⟨.base, 0x22, .ld, [.cell, .keyword .hl]⟩
  else if entry.page = .extended ∧ entry.opcode = 0x6B then
    ⟨.base, 0x2A, .ld, [.keyword .hl, .cell]⟩
  else entry

theorem preferred_eq_self {entry : Entry}
    (store : ¬(entry.page = .extended ∧ entry.opcode = 0x63))
    (load : ¬(entry.page = .extended ∧ entry.opcode = 0x6B)) : entry.preferred = entry := by
  rw [preferred, if_neg store, if_neg load]

end Entry

namespace Table

/-- The first entry of a mnemonic whose operands may read those of an entry. -/
theorem find?_allRead {entry : Entry} (member : entry ∈ entries) :
    (withMnemonic entry.mnemonic).find?
        (fun tried => Operand.allRead tried.operands entry.operands) =
      some entry.preferred := by
  have every : ∀ mnemonic ∈ Mnemonic.all, ∀ entry ∈ withMnemonic mnemonic,
      (withMnemonic mnemonic).find?
          (fun tried => Operand.allRead tried.operands entry.operands) =
        some entry.preferred := by decide +kernel
  exact every entry.mnemonic entry.mnemonic.mem_all entry
    (mem_withMnemonic.mpr ⟨member, rfl⟩)

theorem preferred_facts {entry : Entry} (member : entry ∈ entries) :
    entry.preferred.operands = entry.operands ∧
      (Operand.relative ∈ entry.operands → entry.preferred = entry) := by
  have every : ∀ entry ∈ entries, entry.preferred.operands = entry.operands ∧
      (Operand.relative ∈ entry.operands → entry.preferred = entry) := by decide +kernel
  exact every entry member

end Table

theorem find?_eq_some_of_imp {α : Type} {first second : α → Bool} {list : List α}
    {value : α} (found : list.find? second = some value)
    (implied : ∀ other, first other = true → second other = true)
    (holds : first value = true) : list.find? first = some value := by
  obtain ⟨_, front, back, listEq, earlier⟩ := List.find?_eq_some_iff_append.mp found
  refine List.find?_eq_some_iff_append.mpr ⟨holds, front, back, listEq, ?_⟩
  intro other member
  have excluded := earlier other member
  cases read : first other with
  | false => rfl
  | true => simp [implied other read] at excluded

namespace Scope

/-- The texts of an entry select its preferred form. -/
theorem select_arguments {scope : Scope} {next : UInt16} {entry : Entry}
    {payload : List UInt8} (member : entry ∈ Table.entries)
    (sized : payload.length = entry.payloadSize) :
    scope.select entry.mnemonic.text (Operand.arguments next entry.operands payload) =
      .ok entry.preferred := by
  have enough : Operand.totalSize entry.operands ≤ payload.length :=
    Nat.le_of_eq sized.symm
  apply select_eq_ok.mpr
  refine ⟨entry.mnemonic, entry.mnemonic.ofText?_text, ?_⟩
  apply find?_eq_some_of_imp (Table.find?_allRead member)
  · intro tried fit
    exact allRead_of_allFit enough fit
  · rw [(Table.preferred_facts member).1]
    exact allFit_arguments next enough

/-- The text of an entry is encoded by its preferred form with the same operand bytes. -/
theorem instruction_texts {scope : Scope} {next : UInt16} {entry : Entry}
    {payload : List UInt8} (member : entry ∈ Table.entries)
    (sized : payload.length = entry.payloadSize)
    (straight : Operand.relative ∈ entry.operands →
      next = scope.here + UInt16.ofNat entry.length ∧
        ∀ displacement ∈ payload, Straight scope.here entry.length displacement) :
    scope.instruction
        ⟨entry.mnemonic.text, Operand.texts next entry.operands payload⟩ =
      .ok (entry.preferred.encode payload) := by
  obtain ⟨sameOperands, sameRelative⟩ := Table.preferred_facts member
  refine instruction_eq_ok.mpr ⟨entry.preferred, payload, ?_, ?_, rfl⟩
  · rw [Operand.map_ofText_texts _ (Nat.le_of_eq sized.symm)]
    exact select_arguments member sized
  · rw [Operand.map_ofText_texts _ (Nat.le_of_eq sized.symm), sameOperands]
    apply payload_arguments sized.symm
    intro relative
    rw [sameRelative relative]
    exact straight relative

end Scope

end Z80
