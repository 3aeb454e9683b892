import Mathlib.Data.List.Basic
import Mathlib.Data.List.TakeWhile
import Z80.Opcode.Template
import Z80.Proofs.WrittenNumbers

/-!
# Reading templates

The template of an entry reads as the mnemonic and the operands of the entry, and gives it
the same length.  This file first says which characters occur in the written operands, so
that the blank and the commas of a template are those that its parts were joined by.
-/

namespace Z80

namespace Text

/-- Dividing at a separator parts what it stands between. -/
theorem splitAt_append {separator : Char} {front : Text} (absent : separator ∉ front)
    (back : Text) : splitAt separator (front ++ separator :: back) =
      front :: splitAt separator back := by
  induction front with
  | nil => simp [splitAt]
  | cons first rest ih =>
      rw [List.mem_cons, not_or] at absent
      rw [List.cons_append, splitAt, if_neg (Ne.symm absent.1), ih absent.2]

theorem splitAt_of_not_mem {separator : Char} {text : Text} (absent : separator ∉ text) :
    splitAt separator text = [text] := by
  induction text with
  | nil => rfl
  | cons first rest ih =>
      rw [List.mem_cons, not_or] at absent
      rw [splitAt, if_neg (Ne.symm absent.1), ih absent.2]

/-- Texts without a separator are divided where they were joined. -/
theorem splitAt_join {separator : Char} {texts : List Text} (nonempty : texts ≠ [])
    (absent : ∀ text ∈ texts, separator ∉ text) :
    splitAt separator (join [separator] texts) = texts := by
  induction texts with
  | nil => exact absurd rfl nonempty
  | cons first rest ih =>
      rw [List.forall_mem_cons] at absent
      cases rest with
      | nil => exact splitAt_of_not_mem absent.1
      | cons second others =>
          rw [join, List.append_assoc, List.singleton_append, splitAt_append absent.1,
            ih (List.cons_ne_nil _ _) absent.2]

/-- Whether a character is a digit or an upper-case letter. -/
def isCapital (character : Char) : Bool :=
  character.isDigit || character.isUpper

theorem not_mem_of_capital {text : Text} {mark : Char}
    (capital : ∀ character ∈ text, isCapital character = true)
    (other : isCapital mark = false) : mark ∉ text := by
  intro member
  rw [capital mark member] at other
  cases other

end Text

namespace Hex

theorem isCapital_of_mem_numeral {values : List Nat} (small : ∀ value ∈ values, value < 16) :
    ∀ character ∈ numeral values, Text.isCapital character = true := by
  have every : ∀ value < 16, Text.isCapital (digit value) = true := by decide
  intro character member
  obtain ⟨value, valueMember, rfl⟩ := List.mem_map.mp member
  exact every value (small value valueMember)

theorem not_mem_byteDigits (byte : UInt8) {mark : Char} (other : Text.isCapital mark = false) :
    mark ∉ byteDigits byte :=
  Text.not_mem_of_capital (isCapital_of_mem_numeral (byteValues_lt byte)) other

/-- Bytes with the same digits are equal. -/
theorem byteDigits_injective : Function.Injective byteDigits := by
  have digits : ∀ first < 16, ∀ second < 16, digit first = digit second → first = second := by
    decide
  intro first second equal
  have firstBound := first.toNat_lt
  have secondBound := second.toNat_lt
  obtain ⟨high, low⟩ : digit (first.toNat / 16) = digit (second.toNat / 16) ∧
      digit (first.toNat % 16) = digit (second.toNat % 16) := by
    simpa [byteDigits] using equal
  have highEq := digits _ (by omega) _ (by omega) high
  have lowEq := digits _ (by omega) _ (by omega) low
  exact UInt8.toNat_inj.mp (by omega)

end Hex

namespace Keyword

theorem text_injective : Function.Injective text := by
  have every : ∀ first ∈ all, ∀ second ∈ all, first.text = second.text → first = second := by
    decide
  exact fun first second equal => every first first.mem_all second second.mem_all equal

end Keyword

namespace Mnemonic

theorem not_mem_text (mnemonic : Mnemonic) : ' ' ∉ mnemonic.text := by
  cases mnemonic <;> decide

theorem text_injective : Function.Injective text := by
  intro first second equal
  have read := congrArg ofText? equal
  rw [ofText?_text, ofText?_text] at read
  exact Option.some.inj read

end Mnemonic

namespace Operand

/-- Whether a template may have a character: a digit, a capital or one of a few others. -/
def isTemplateCharacter (character : Char) : Bool :=
  Text.isCapital character || ['n', 'e', 'd', 'x', '+', '(', ')', '\''].contains character

theorem all_template (operand : Operand) : operand.template.all isTemplateCharacter = true := by
  cases operand with
  | keyword fixed => cases fixed <;> rfl
  | digit value =>
      revert value
      decide
  | vector address =>
      have digits : (Hex.byteDigits address).all isTemplateCharacter = true := by
        rw [List.all_eq_true]
        intro character member
        rw [isTemplateCharacter,
          Hex.isCapital_of_mem_numeral (Hex.byteValues_lt address) character member,
          Bool.true_or]
      exact digits
  | indexed register => cases register <;> rfl
  | _ => rfl

theorem not_mem_template (operand : Operand) {mark : Char}
    (other : isTemplateCharacter mark = false) : mark ∉ operand.template := by
  intro member
  rw [List.all_eq_true.mp operand.all_template mark member] at other
  cases other

theorem template_ne_nil (operand : Operand) : operand.template ≠ [] := by
  cases operand with
  | keyword fixed => cases fixed <;> decide
  | _ => exact List.cons_ne_nil _ _

theorem read_template (operand : Operand) : Slot.read operand.template = operand.slot := by
  cases operand with
  | keyword fixed => cases fixed <;> rfl
  | digit value =>
      revert value
      decide
  | vector address => rfl
  | indexed register => cases register <;> rfl
  | _ => rfl

theorem size_slot (operand : Operand) : operand.slot.size = operand.size := by
  cases operand <;> rfl

/-- A keyword does not begin with a digit, as numbers do. -/
theorem template_keyword_ne_number (fixed : Keyword) :
    (∀ value, (keyword fixed).template ≠ (digit value).template) ∧
      ∀ address, (keyword fixed).template ≠ (vector address).template := by
  constructor
  · cases fixed <;> decide
  · cases fixed <;> exact fun _ => nofun

theorem slot_injective : Function.Injective slot := by
  have digits : ∀ first second, (digit first).template = (digit second).template →
      first = second := by decide
  intro first second equal
  cases first <;> cases second <;> try (cases equal <;> rfl)
  case keyword.keyword fixed other =>
    exact congrArg keyword (Keyword.text_injective (Slot.fixed.inj equal))
  case keyword.digit fixed value =>
    exact absurd (Slot.fixed.inj equal) ((template_keyword_ne_number fixed).1 value)
  case keyword.vector fixed address =>
    exact absurd (Slot.fixed.inj equal) ((template_keyword_ne_number fixed).2 address)
  case digit.keyword value fixed =>
    exact absurd (Slot.fixed.inj equal).symm ((template_keyword_ne_number fixed).1 value)
  case digit.digit first second =>
    exact congrArg digit (digits first second (Slot.fixed.inj equal))
  case vector.keyword address fixed =>
    exact absurd (Slot.fixed.inj equal).symm ((template_keyword_ne_number fixed).2 address)
  case digit.vector value address =>
    exact nomatch congrArg List.length (Slot.fixed.inj equal)
  case vector.digit address value =>
    exact nomatch congrArg List.length (Slot.fixed.inj equal)
  case vector.vector first second =>
    have same : '0' :: 'x' :: Hex.byteDigits first = '0' :: 'x' :: Hex.byteDigits second :=
      Slot.fixed.inj equal
    exact congrArg vector (Hex.byteDigits_injective (by simpa using same))

end Operand

/-! ## The template of an entry -/

namespace Template

theorem bne_blank {text : Text} (solid : ' ' ∉ text) :
    ∀ character ∈ text, (character != ' ') = true := by
  intro character member
  rw [bne_iff_ne]
  rintro rfl
  exact solid member

theorem read_of_not_mem {mnemonic : Text} (solid : ' ' ∉ mnemonic) :
    read mnemonic = ⟨mnemonic, []⟩ := by
  rw [read, List.takeWhile_eq_self_iff.mpr (bne_blank solid),
    List.dropWhile_eq_nil_iff.mpr (bne_blank solid)]
  rfl

theorem read_append {mnemonic operands : Text} (solid : ' ' ∉ mnemonic) (more : operands ≠ []) :
    read (mnemonic ++ ' ' :: operands) =
      ⟨mnemonic, (Text.splitAt ',' operands).map Slot.read⟩ := by
  have front : (mnemonic ++ ' ' :: operands).takeWhile (· != ' ') = mnemonic := by
    rw [List.takeWhile_append_of_pos (bne_blank solid)]
    exact List.append_nil mnemonic
  have back : (mnemonic ++ ' ' :: operands).dropWhile (· != ' ') = ' ' :: operands := by
    rw [List.dropWhile_append_of_pos (bne_blank solid)]
    rfl
  rw [read, front, back, List.tail_cons, if_neg more]

theorem read_statement (mnemonic : Mnemonic) (operands : List Operand) :
    read (Entry.statement mnemonic (operands.map Operand.template)) =
      ⟨mnemonic.text, operands.map Operand.slot⟩ := by
  cases operands with
  | nil => exact read_of_not_mem mnemonic.not_mem_text
  | cons first rest =>
      have free : ∀ text ∈ (first :: rest).map Operand.template, ',' ∉ text := by
        intro text member
        obtain ⟨operand, _, rfl⟩ := List.mem_map.mp member
        exact operand.not_mem_template rfl
      have divided : Text.splitAt ',' (Text.join [','] ((first :: rest).map Operand.template)) =
          (first :: rest).map Operand.template :=
        Text.splitAt_join (List.cons_ne_nil _ _) free
      have more : Text.join [','] ((first :: rest).map Operand.template) ≠ [] := by
        intro empty
        rw [empty] at divided
        exact first.template_ne_nil (List.cons.inj divided).1.symm
      have written := read_append mnemonic.not_mem_text more
      rw [divided, List.map_map] at written
      refine written.trans (congrArg (mk mnemonic.text) ?_)
      exact List.map_congr_left fun operand _ => operand.read_template

theorem read_template (entry : Entry) :
    read entry.template = ⟨entry.mnemonic.text, entry.operands.map Operand.slot⟩ :=
  read_statement entry.mnemonic entry.operands

theorem totalSize_slots (operands : List Operand) :
    Slot.totalSize (operands.map Operand.slot) = Operand.totalSize operands := by
  induction operands with
  | nil => rfl
  | cons operand rest ih =>
      rw [List.map_cons, Slot.totalSize, ih, operand.size_slot, Operand.totalSize]

theorem length_read_template (entry : Entry) :
    (read entry.template).length entry.page = entry.length := by
  rw [read_template, length, totalSize_slots, Entry.length, Entry.payloadSize]

/-- Entries with the same template have the same mnemonic and operands. -/
theorem form_eq_of_template_eq {first second : Entry}
    (equal : first.template = second.template) :
    first.mnemonic = second.mnemonic ∧ first.operands = second.operands := by
  have read := congrArg read equal
  rw [read_template, read_template, mk.injEq] at read
  exact ⟨Mnemonic.text_injective read.1,
    List.map_injective_iff.mpr Operand.slot_injective read.2⟩

end Template

end Z80
