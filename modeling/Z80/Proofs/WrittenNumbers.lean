import Z80.Assembler.Scope
import Z80.Listing
import Z80.Proofs.WordValues

/-!
# Written numbers

Listings write numbers as hexadecimal digits behind a mark.  This file shows that
an expression of this form, with or without a sign, has the written value, and that
no identifier is a number.
-/

namespace Z80

namespace Text

theorem trim_eq_self {text : Text}
    (front : ∀ character ∈ text.head?, isBlank character = false)
    (back : ∀ character ∈ text.getLast?, isBlank character = false) :
    trim text = text := by
  have start {line : Text} (solid : ∀ character ∈ line.head?, isBlank character = false) :
      trimStart line = line := by
    cases line with
    | nil => rfl
    | cons first rest =>
        rw [trimStart, List.dropWhile_cons_of_neg]
        simpa using solid first
  rw [trim, start front, trimEnd, start, List.reverse_reverse]
  rw [List.head?_reverse]
  exact back

theorem trim_of_forall {text : Text}
    (solid : ∀ character ∈ text, isBlank character = false) : trim text = text :=
  trim_eq_self (fun character first => solid character (List.mem_of_mem_head? first))
    (fun character last => solid character (List.mem_of_mem_getLast? last))

theorem compact_of_forall {text : Text}
    (solid : ∀ character ∈ text, isBlank character = false) : compact text = text := by
  apply List.filter_eq_self.mpr
  intro character member
  simp [solid character member]

end Text

namespace Hex

/-- The digits of a numeral with given digit values. -/
def numeral (values : List Nat) : Text :=
  values.map digit

/-- The digit values of a byte. -/
def byteValues (byte : UInt8) : List Nat :=
  [byte.toNat / 16, byte.toNat % 16]

/-- The digit values of a word. -/
def wordValues (word : UInt16) : List Nat :=
  [word.toNat / 4096, word.toNat / 256 % 16, word.toNat / 16 % 16, word.toNat % 16]

theorem byteValues_lt (byte : UInt8) : ∀ digit ∈ byteValues byte, digit < 16 := by
  have bound := byte.toNat_lt
  simp only [byteValues, List.forall_mem_cons, List.not_mem_nil, false_implies,
    implies_true, and_true]
  omega

theorem wordValues_lt (word : UInt16) : ∀ digit ∈ wordValues word, digit < 16 := by
  have bound := word.toNat_lt
  simp only [wordValues, List.forall_mem_cons, List.not_mem_nil, false_implies,
    implies_true, and_true]
  omega

/-- The value of a numeral behind a given value. -/
def extended (value : Nat) (values : List Nat) : Nat :=
  values.foldl (fun value digit => value * 16 + digit) value

/-- A digit is no white space, sign or mark, and reads back as its value. -/
theorem digit_facts {value : Nat} (small : value < 16) :
    Text.isBlank (digit value) = false ∧
      Expression.isSign (digit value) = false ∧
      (digit value).toLower ∉ ['h', '+', '-'] ∧
      Numeral.digitValue? 16 (digit value).toLower = some value := by
  have every : ∀ value < 16,
      Text.isBlank (digit value) = false ∧
        Expression.isSign (digit value) = false ∧
        (digit value).toLower ∉ ['h', '+', '-'] ∧
        Numeral.digitValue? 16 (digit value).toLower = some value := by decide
  exact every value small

theorem le_extended (value : Nat) (values : List Nat) : value ≤ extended value values := by
  induction values generalizing value with
  | nil => exact Nat.le_refl value
  | cons digit values ih =>
      have further := ih (value * 16 + digit)
      simp only [extended, List.foldl_cons] at further ⊢
      omega

theorem extend_numeral {limit value : Nat} {values : List Nat}
    (small : ∀ digit ∈ values, digit < 16) (bounded : extended value values ≤ limit) :
    Numeral.extend 16 limit value (Text.lower (numeral values)) =
      .ok (extended value values) := by
  induction values generalizing value with
  | nil => rfl
  | cons first rest ih =>
      obtain ⟨_, _, _, reads⟩ := digit_facts (small first (by simp))
      have within : value * 16 + first ≤ limit :=
        Nat.le_trans (le_extended _ rest) bounded
      simp only [numeral, Text.lower, List.map_cons, Numeral.extend, reads,
        if_pos within]
      exact ih (fun digit member => small digit (by simp [member])) bounded

theorem integer_numeral {values : List Nat} (nonempty : values ≠ [])
    (small : ∀ digit ∈ values, digit < 16) (bounded : extended 0 values ≤ Number.largest) :
    Numeral.integer 16 Number.largest (Text.lower (numeral values)) =
      .ok (extended 0 values : Int) := by
  have read := extend_numeral small bounded
  cases values with
  | nil => exact absurd rfl nonempty
  | cons first rest =>
      obtain ⟨_, _, unmarked, _⟩ := digit_facts (small first (by simp))
      simp only [numeral, Text.lower, List.map_cons] at read ⊢
      generalize (digit first).toLower = leading at read unmarked
      simp only [List.mem_cons, List.not_mem_nil, or_false, not_or] at unmarked
      unfold Numeral.integer Numeral.natural
      split
      · rename_i same
        exact absurd (List.cons.inj same).1 unmarked.2.2
      · split
        · rename_i absent
          simp at absent
        · rename_i same
          exact absurd (List.cons.inj same).1 unmarked.2.1
        · rw [Numeral.digits, if_neg (by simp), read]
          rfl

theorem forall_mem_marked {property : Char → Prop} {values : List Nat}
    (zero : property '0') (mark : property 'x')
    (digits : ∀ value ∈ values, property (digit value)) :
    ∀ character ∈ '0' :: 'x' :: numeral values, property character := by
  rw [List.forall_mem_cons, List.forall_mem_cons]
  exact ⟨zero, mark, List.forall_mem_map.mpr digits⟩

theorem isBlank_of_mem_marked {values : List Nat} (small : ∀ digit ∈ values, digit < 16) :
    ∀ character ∈ '0' :: 'x' :: numeral values, Text.isBlank character = false := by
  refine forall_mem_marked rfl rfl ?_
  intro value member
  exact (digit_facts (small value member)).1

theorem isSign_of_mem_marked {values : List Nat} (small : ∀ digit ∈ values, digit < 16) :
    ∀ character ∈ '0' :: 'x' :: numeral values, Expression.isSign character = false := by
  refine forall_mem_marked rfl rfl ?_
  intro value member
  exact (digit_facts (small value member)).2.1

theorem read?_marked {values : List Nat} (nonempty : values ≠ [])
    (small : ∀ digit ∈ values, digit < 16) (bounded : extended 0 values ≤ Number.largest) :
    Number.read? ('0' :: 'x' :: numeral values) = some (extended 0 values : Int) := by
  have unmarked : ('0' :: 'x' :: Text.lower (numeral values)).getLast? ≠ some 'h' := by
    intro last
    have member := List.mem_of_getLast? last
    simp only [Text.lower, numeral, List.map_map, List.mem_cons, List.mem_map,
      Char.reduceEq, false_or] at member
    obtain ⟨value, valueMember, isMark⟩ := member
    have facts := (digit_facts (small value valueMember)).2.2.1
    rw [Function.comp_apply] at isMark
    simp [isMark] at facts
  have lowered : Text.lower ('0' :: 'x' :: numeral values) =
      '0' :: 'x' :: Text.lower (numeral values) := rfl
  have marked : Number.marked? ('0' :: 'x' :: Text.lower (numeral values)) =
      some (16, Text.lower (numeral values)) := by
    rw [Number.marked?, if_neg]
    simp only [unmarked, decide_false, Bool.and_false, Bool.false_eq_true, not_false_iff]
  rw [Number.read?, Text.trim_of_forall (isBlank_of_mem_marked small), lowered, marked]
  simp only [Option.bind_eq_bind, Option.bind_some, integer_numeral nonempty small bounded]
  rfl

end Hex

namespace Expression

/-- A run of other characters becomes a term of its own, as the next term has a sign. -/
theorem foldr_extend_text {text : Text} (nonempty : text ≠ [])
    (unsigned : ∀ character ∈ text, isSign character = false) {rest : List Term}
    (signed : ∀ next ∈ rest.head?, next.signs ≠ []) :
    text.foldr extend rest = ⟨[], text⟩ :: rest := by
  induction text with
  | nil => exact absurd rfl nonempty
  | cons first others ih =>
      have notFirst := unsigned first (by simp)
      cases others with
      | nil =>
          cases rest with
          | nil => simp [extend, notFirst]
          | cons next later => simp [extend, notFirst, signed next rfl]
      | cons second more =>
          have later := ih (by simp) fun character member => unsigned character (by simp [member])
          rw [List.foldr_cons, later]
          simp [extend, notFirst]

theorem terms_of_forall {text : Text} (nonempty : text ≠ [])
    (unsigned : ∀ character ∈ text, isSign character = false) :
    terms text = [⟨[], text⟩] :=
  foldr_extend_text nonempty unsigned (by simp)

theorem terms_signed {sign : Char} (signed : isSign sign = true) {text : Text}
    (nonempty : text ≠ []) (unsigned : ∀ character ∈ text, isSign character = false) :
    terms (sign :: text) = [⟨[sign], text⟩] := by
  rw [terms, List.foldr_cons, ← terms, terms_of_forall nonempty unsigned]
  simp [extend, signed]

/-- A text is a number without a sign and without white space. -/
structure IsNumber (text : Text) (number : Int) : Prop where
  nonempty : text ≠ []
  solid : ∀ character ∈ text, Text.isBlank character = false
  unsigned : ∀ character ∈ text, isSign character = false
  notHere : text ≠ ['$']
  read : Number.read? text = some number
  fits : Number.Fits number

variable {text : Text} {number : Int}

theorem IsNumber.termValue (isNumber : IsNumber text number) (here : UInt16)
    (lookup : Text → Option UInt16) : termValue here lookup text = .ok number := by
  simp only [Expression.termValue, if_neg isNumber.nonempty, if_neg isNumber.notHere,
    isNumber.read]

theorem IsNumber.evaluate (isNumber : IsNumber text number) (here : UInt16)
    (labels : Labels) : evaluate here labels text = .ok number := by
  have compacted := Text.compact_of_forall isNumber.solid
  simp only [Expression.evaluate, evaluateWith, compacted, if_neg isNumber.nonempty,
    terms_of_forall isNumber.nonempty isNumber.unsigned, sumFrom, isNumber.termValue]
  change Except.ok (Number.wrap (0 + 1 * number)) = Except.ok number
  rw [Int.one_mul, Int.zero_add, Number.wrap_eq_self isNumber.fits]

theorem IsNumber.evaluate_signed (isNumber : IsNumber text number) {sign : Char}
    (signed : isSign sign = true) (solid : Text.isBlank sign = false) (here : UInt16)
    (labels : Labels) :
    Expression.evaluate here labels (sign :: text) =
      .ok (Number.wrap (factor [sign] * number)) := by
  have compacted : Text.compact (sign :: text) = sign :: text := by
    apply Text.compact_of_forall
    intro character member
    rcases List.mem_cons.mp member with rfl | member
    · exact solid
    · exact isNumber.solid character member
  simp only [Expression.evaluate, evaluateWith, compacted,
    if_neg (List.cons_ne_nil sign text),
    terms_signed signed isNumber.nonempty isNumber.unsigned, sumFrom, isNumber.termValue]
  change Except.ok (Number.wrap (0 + factor [sign] * number)) = _
  rw [Int.zero_add]

theorem isNumber_marked {values : List Nat} {number : Nat} (nonempty : values ≠ [])
    (small : ∀ digit ∈ values, digit < 16) (valueEq : Hex.extended 0 values = number)
    (bounded : number ≤ 65535) :
    IsNumber ('0' :: 'x' :: Hex.numeral values) (number : Int) := by
  have inRange : Hex.extended 0 values ≤ Number.largest := by
    rw [valueEq, Number.largest]
    omega
  rw [← valueEq]
  exact ⟨List.cons_ne_nil _ _, Hex.isBlank_of_mem_marked small,
    Hex.isSign_of_mem_marked small, by simp, Hex.read?_marked nonempty small inRange,
    Number.fits_natCast inRange⟩

theorem isNumber_word (word : UInt16) :
    IsNumber ('0' :: 'x' :: Hex.wordDigits word) (word.toNat : Int) := by
  have bound := word.toNat_lt
  refine isNumber_marked (List.cons_ne_nil _ _) (Hex.wordValues_lt word) ?_ (by omega)
  simp only [Hex.extended, List.foldl_cons, List.foldl_nil]
  omega

theorem isNumber_byteText (byte : UInt8) :
    IsNumber (Operand.byteText byte) (byte.toNat : Int) := by
  have bound := byte.toNat_lt
  refine isNumber_marked (List.cons_ne_nil _ _) (Hex.byteValues_lt byte) ?_ (by omega)
  simp only [Hex.extended, List.foldl_cons, List.foldl_nil]
  omega

theorem isNumber_digit (digit : Fin 8) : IsNumber [Hex.digit digit] (digit.val : Int) := by
  have small : digit.val < 16 := by omega
  obtain ⟨solid, unsigned, _⟩ := Hex.digit_facts small
  have every : ∀ digit : Fin 8, [Hex.digit digit] ≠ ['$'] ∧
      Number.read? [Hex.digit digit] = some (digit.val : Int) := by decide
  obtain ⟨notHere, read⟩ := every digit
  have inRange : digit.val ≤ Number.largest := by
    rw [Number.largest]
    omega
  exact ⟨by simp, by simpa using solid, by simpa using unsigned, notHere, read,
    Number.fits_natCast inRange⟩

end Expression

theorem Expression.evaluate_displacementText (here : UInt16) (labels : Labels)
    (displacement : UInt8) :
    Expression.evaluate here labels (Operand.displacementText displacement) =
      .ok (signedValue displacement) := by
  unfold Operand.displacementText signedValue
  have bound := displacement.toNat_lt
  split
  · rename_i negative
    have least := le_of_isNegative negative
    rw [(isNumber_byteText _).evaluate_signed rfl rfl, UInt8.toNat_sub]
    change Except.ok (Number.wrap (-1 * _)) = _
    simp only [UInt8.toNat_zero]
    rw [Number.wrap_eq_self (by constructor <;> omega)]
    congr 1
    omega
  · rw [(isNumber_byteText _).evaluate_signed rfl rfl]
    change Except.ok (Number.wrap (1 * _)) = _
    rw [Int.one_mul, Number.wrap_eq_self (by constructor <;> omega)]

/-! ## Identifiers -/

theorem toNat_lt_of_isAlphanum {character : Char} (isAlphanum : character.isAlphanum = true) :
    character.toNat < 128 := by
  have within {greatest : Char} (small : greatest.toNat < 128)
      (below : character.val ≤ greatest.val) : character.toNat < 128 :=
    Nat.lt_of_le_of_lt (UInt32.le_iff_toNat_le.mp below) small
  rcases Bool.or_eq_true_iff.mp isAlphanum with isAlpha | isDigit
  · rcases Bool.or_eq_true_iff.mp isAlpha with isUpper | isLower
    · exact within (by decide : 'Z'.toNat < 128) (of_decide_eq_true isUpper).2
    · exact within (by decide : 'z'.toNat < 128)
        (of_decide_eq_true (Bool.and_eq_true_iff.mp isLower).2)
  · exact within (by decide : '9'.toNat < 128)
      (of_decide_eq_true (Bool.and_eq_true_iff.mp isDigit).2)

theorem toNat_lt_of_isIdentifierStart {character : Char}
    (starts : isIdentifierStart character = true) : character.toNat < 128 := by
  simp only [isIdentifierStart, Bool.or_eq_true, beq_iff_eq] at starts
  rcases starts with (alphabetic | rfl) | rfl
  · exact toNat_lt_of_isAlphanum (by rw [Char.isAlphanum, alphabetic, Bool.true_or])
  · decide
  · decide

/-- A property of small characters is decided on their codes. -/
theorem of_codes {property : Char → Prop} {bound : Nat} (character : Char)
    (small : character.toNat < bound)
    (every : ∀ code < bound, property (Char.ofNat code)) : property character := by
  rw [← Char.ofNat_toNat character]
  exact every _ small

theorem isBlank_of_isAlphanum {character : Char} (isAlphanum : character.isAlphanum = true) :
    Text.isBlank character = false := by
  have small := toNat_lt_of_isAlphanum isAlphanum
  revert isAlphanum
  apply of_codes character small
  decide

/-- The first character of an identifier is no white space and begins no number. -/
theorem identifierStart_facts {character : Char} (starts : isIdentifierStart character = true) :
    Text.isBlank character = false ∧ character.toLower.isDigit = false ∧
      character.toLower ∉ ['0', '$', '%'] := by
  have small := toNat_lt_of_isIdentifierStart starts
  revert starts
  apply of_codes character small
  decide

theorem of_mem_identifier {name : Text} (identifier : isIdentifier name = true)
    {character : Char} (member : character ∈ name) :
    isIdentifierStart character = true ∨ character.isDigit = true := by
  cases name with
  | nil => simp at member
  | cons first rest =>
      simp only [isIdentifier, Bool.and_eq_true, List.all_eq_true, Bool.or_eq_true] at identifier
      rcases List.mem_cons.mp member with rfl | inRest
      · exact Or.inl identifier.1
      · exact identifier.2 character inRest

theorem isBlank_of_mem_identifier {name : Text} (identifier : isIdentifier name = true)
    {character : Char} (member : character ∈ name) : Text.isBlank character = false := by
  rcases of_mem_identifier identifier member with starts | isDigit
  · exact (identifierStart_facts starts).1
  · exact isBlank_of_isAlphanum (by rw [Char.isAlphanum, isDigit, Bool.or_true])

theorem ne_nil_of_isIdentifier {name : Text} (identifier : isIdentifier name = true) :
    name ≠ [] := by
  rintro rfl
  cases identifier

/-- An identifier is no number. -/
theorem Number.read?_identifier {name : Text} (identifier : isIdentifier name = true) :
    read? name = none := by
  have solid : ∀ character ∈ name, Text.isBlank character = false :=
    fun _ member => isBlank_of_mem_identifier identifier member
  cases name with
  | nil => simp [isIdentifier] at identifier
  | cons first rest =>
      simp only [isIdentifier, Bool.and_eq_true] at identifier
      obtain ⟨-, notDigit, unmarked⟩ := identifierStart_facts identifier.1
      simp only [List.mem_cons, List.not_mem_nil, or_false, not_or] at unmarked
      obtain ⟨notZero, notDollar, notPercent⟩ := unmarked
      have marked : marked? (Text.lower (first :: rest)) = none := by
        simp only [Text.lower, List.map_cons]
        generalize first.toLower = leading at notDigit notZero notDollar notPercent
        unfold marked?
        rw [if_neg (by simp [notDigit])]
        split
        · rename_i same
          exact absurd (List.cons.inj same).1 notZero
        · rename_i same
          exact absurd (List.cons.inj same).1 notZero
        · rename_i same
          exact absurd (List.cons.inj same).1 notDollar
        · rename_i same
          exact absurd (List.cons.inj same).1 notPercent
        · exact if_neg (by simp [notDigit])
      rw [read?, Text.trim_of_forall solid, marked]
      rfl

end Z80
