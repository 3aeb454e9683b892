import Z80.Proofs.ExpressionValues
import Z80.Proofs.PlacedBytes
import Z80.Proofs.StepAgreement
import Z80.Proofs.WordValues

/-!
# Assembled instructions mean what is written

The table finds an assembled instruction again at its address.  Its mnemonic and
its fixed operands are the written ones, and the other operands are filled in by
the values of the written expressions, which lie in their ranges.
-/

namespace Z80

theorem Keyword.text_of_ofText? {text : Text} {keyword : Keyword}
    (known : ofText? text = some keyword) : Text.upper text = keyword.text := by
  have equal := List.find?_some known
  exact (beq_iff_eq.mp equal).symm

namespace Argument

theorem eq_of_parenthesized? {text inner : Text}
    (inside : parenthesized? text = some inner) : text = '(' :: inner ++ [')'] := by
  unfold parenthesized? at inside
  split at inside
  · rename_i rest
    split at inside
    · rename_i closed
      obtain ⟨front, rfl⟩ := List.getLast?_eq_some_iff.mp closed
      obtain rfl : front = inner := by simpa using inside
      rfl
    · simp at inside
  · simp at inside

theorem upper_of_indexRegister? {text : Text} {register : IndexRegister}
    (named : indexRegister? text = some register) :
    Text.upper text = register.name.toList := by
  unfold indexRegister? at named
  split at named
  · rename_i isIX
    obtain rfl := Option.some.inj named
    rw [isIX]
    rfl
  · split at named
    · rename_i isIY
      obtain rfl := Option.some.inj named
      rw [isIY]
      rfl
    · simp at named

/-- A text between parentheses is the cell at an address or near an index register. -/
theorem ofInner_cases (text : Text) :
    ofInner text = .cell text ∨
    ∃ register name displacement,
      ofInner text = .indexed register displacement ∧
      text = name ++ displacement ∧
      Text.upper name = register.name.toList ∧
      (displacement.head? = some '+' ∨ displacement.head? = some '-') := by
  unfold ofInner
  split
  · rename_i register rest named signed
    refine Or.inr ⟨register, text.take 2, '+' :: rest, rfl, ?_,
      upper_of_indexRegister? named, Or.inl rfl⟩
    rw [← signed, List.take_append_drop]
  · rename_i register rest named signed
    refine Or.inr ⟨register, text.take 2, '-' :: rest, rfl, ?_,
      upper_of_indexRegister? named, Or.inr rfl⟩
    rw [← signed, List.take_append_drop]
  · exact Or.inl rfl

/-- What the shape of a written operand says about its text. -/
theorem compact_of_ofText (text : Text) :
    match ofText text with
    | .keyword word => Text.upper (Text.compact text) = word.text
    | .value expression => expression = Text.compact text
    | .cell inner => Text.compact text = '(' :: inner ++ [')']
    | .indexed register displacement =>
        ∃ name, Text.compact text = '(' :: name ++ displacement ++ [')'] ∧
          Text.upper name = register.name.toList ∧
          (displacement.head? = some '+' ∨ displacement.head? = some '-') := by
  unfold ofText
  dsimp only
  cases known : Keyword.ofText? (Text.compact text) with
  | some word => exact Keyword.text_of_ofText? known
  | none =>
      cases enclosed : parenthesized? (Text.compact text) with
      | none => rfl
      | some inner =>
          have textEq := eq_of_parenthesized? enclosed
          rcases ofInner_cases inner with
            isCell | ⟨register, name, displacement, isIndexed, rfl, named, signed⟩
          · simp only [isCell]
            exact textEq
          · simp only [isIndexed]
            refine ⟨name, ?_, named, signed⟩
            rw [textEq, List.cons_append, List.cons_append, List.cons_append]

end Argument

namespace Operand

/-- The numbers that fill in an operand of an instruction at an address and of a
given length. -/
def Takes (here : UInt16) (length : Nat) : Operand → Int → Prop
  | .byte, value => -128 ≤ value ∧ value ≤ 255
  | .word, value | .cell, value => -32768 ≤ value ∧ value ≤ 65535
  | .indexed _, value => -128 ≤ value ∧ value ≤ 127
  | .relative, target =>
      -128 ≤ target - (here.toNat + length) ∧ target - (here.toNat + length) ≤ 127
  | _, _ => True

/-- The operand bytes that stand for a number. -/
def Stores (here : UInt16) (length : Nat) :
    Operand → Int → List UInt8 → Prop
  | .byte, value, field | .indexed _, value, field =>
      ∃ stored : UInt8, field = [stored] ∧ (stored.toNat : Int) = value % 256
  | .word, value, field | .cell, value, field =>
      ∃ low high : UInt8, field = [low, high] ∧
        (low.toNat + 256 * high.toNat : Int) = value % 65536
  | .relative, target, field =>
      ∃ stored : UInt8, field = [stored] ∧
        (stored.toNat : Int) = (target - (here.toNat + length)) % 256
  | _, _, field => field = []

/-- An operand with its operand bytes means what is written. -/
def Holds (here : UInt16) (labels : Labels) (length : Nat) (operand : Operand)
    (written : Text) (field : List UInt8) : Prop :=
  match operand with
  | .keyword fixed => Text.upper (Text.compact written) = fixed.text ∧ field = []
  | .digit number =>
      Expression.evaluate here labels written = .ok (number.val : Int) ∧ field = []
  | .vector address =>
      Expression.evaluate here labels written = .ok (address.toNat : Int) ∧ field = []
  | .byte | .word | .relative =>
      ∃ value, Expression.evaluate here labels written = .ok value ∧
        operand.Takes here length value ∧ operand.Stores here length value field
  | .cell =>
      ∃ inner value, Text.compact written = '(' :: inner ++ [')'] ∧
        Expression.evaluate here labels inner = .ok value ∧
        operand.Takes here length value ∧ operand.Stores here length value field
  | .indexed register =>
      (Text.upper (Text.compact written) = '(' :: register.name.toList ++ [')'] ∧
        field = [0]) ∨
      ∃ name displacement value,
        Text.compact written = '(' :: name ++ displacement ++ [')'] ∧
        Text.upper name = register.name.toList ∧
        (displacement.head? = some '+' ∨ displacement.head? = some '-') ∧
        Expression.evaluate here labels displacement = .ok value ∧
        operand.Takes here length value ∧ operand.Stores here length value field

/-- Operands with their operand bytes, one after another, mean what is written. -/
def AllHold (here : UInt16) (labels : Labels) (length : Nat) :
    List Operand → List Text → List UInt8 → Prop
  | [], [], payload => payload = []
  | operand :: operands, written :: others, payload =>
      operand.Holds here labels length written (payload.take operand.size) ∧
        AllHold here labels length operands others (payload.drop operand.size)
  | _, _, _ => False

/-- The expression by which a written operand fills in an operand. -/
def expression? : Operand → Argument → Option Text
  | .byte, .value expression | .word, .value expression => some expression
  | .relative, .value expression | .cell, .cell expression => some expression
  | .indexed _, .indexed _ displacement => some displacement
  | _, _ => none

end Operand

namespace Scope

variable {scope : Scope}

theorem value_eq_ok (emits : scope.pass = .emit) {expression : Text} {value : Int} :
    scope.value expression = .ok value ↔
      Expression.evaluate scope.here scope.labels expression = .ok value := by
  unfold Scope.value
  rw [emits]
  split <;> simp_all

theorem valueIn_eq_ok (emits : scope.pass = .emit) {range : ValueRange} {expression : Text}
    {value : Int} :
    scope.valueIn range expression = .ok value ↔
      Expression.evaluate scope.here scope.labels expression = .ok value ∧
        range.least ≤ value ∧ value ≤ range.greatest := by
  simp only [valueIn, bind_eq_ok, value_eq_ok emits, emits, true_and]
  constructor
  · rintro ⟨other, evaluated, checked⟩
    split at checked
    · simp at checked
    · rename_i inside
      obtain rfl := Except.ok.inj checked
      exact ⟨evaluated, ValueRange.contains_eq_true.mp (by simpa using inside)⟩
  · rintro ⟨evaluated, least, greatest⟩
    refine ⟨value, evaluated, ?_⟩
    rw [if_neg (by simp [ValueRange.contains_eq_true.mpr ⟨least, greatest⟩])]

theorem word_eq_ok (emits : scope.pass = .emit) {expression : Text} {filling : UInt16}
    (valued : scope.word expression = .ok filling) :
    ∃ value, Expression.evaluate scope.here scope.labels expression = .ok value ∧
      (-32768 ≤ value ∧ value ≤ 65535) ∧
      ((lowByte filling).toNat + 256 * (highByte filling).toNat : Int) = value % 65536 := by
  obtain ⟨value, valueEq, rfl⟩ := map_eq_ok.mp valued
  obtain ⟨evaluated, range⟩ := (valueIn_eq_ok emits).mp valueEq
  have joined := toNat_lowByte_add_highByte (UInt16.ofInt value)
  have modular := toNat_word_ofInt value
  exact ⟨value, evaluated, range, by omega⟩

/-- The distance to a target is seen to be in reach or not, even if it is no number of 64
bits: then it wraps around to the far end of these. -/
theorem contains_wrap_sub {target : Int} (fits : Number.Fits target) {behind : Int}
    (least : 0 ≤ behind) (greatest : behind < 2 ^ 32) :
    ValueRange.displacement.contains (Number.wrap (target - behind)) =
      ValueRange.displacement.contains (target - behind) := by
  by_cases distance : Number.Fits (target - behind)
  · rw [Number.wrap_eq_self distance]
  · obtain ⟨leTarget, targetLt⟩ := fits
    have below : target - behind < -2 ^ 63 := by
      simp only [Number.Fits] at distance
      omega
    have around : Number.wrap (target - behind) = target - behind + 2 ^ 64 := by
      have same : Number.wrap (target - behind) = Number.wrap (target - behind + 2 ^ 64) := by
        rw [Number.wrap_eq_bmod, Number.wrap_eq_bmod]
        exact (Int.add_bmod_right _ _).symm
      rw [same, Number.wrap_eq_self ⟨by omega, by omega⟩]
    have outside (value : Int) (far : value < -128 ∨ 127 < value) :
        ValueRange.displacement.contains value = false := by
      rw [Bool.eq_false_iff, ne_eq, ValueRange.contains_eq_true]
      rintro ⟨atLeast, atMost⟩
      simp only [ValueRange.displacement] at atLeast atMost
      omega
    rw [around, outside _ (Or.inr (by omega)), outside _ (Or.inl (by omega))]

theorem relative_eq_ok (emits : scope.pass = .emit) {length : Nat} (short : length ≤ 4)
    {expression : Text} {stored : UInt8} :
    scope.relative length expression = .ok stored ↔
      ∃ target, Expression.evaluate scope.here scope.labels expression = .ok target ∧
        Operand.relative.Takes scope.here length target ∧
        UInt8.ofInt (target - (scope.here.toNat + length)) = stored := by
  have hereLt := scope.here.toNat_lt
  have wrapped {target : Int}
      (inside : ValueRange.displacement.contains (target - (scope.here.toNat + length)) = true) :
      Number.wrap (target - (scope.here.toNat + length)) =
        target - (scope.here.toNat + length) := by
    obtain ⟨atLeast, atMost⟩ := ValueRange.contains_eq_true.mp inside
    simp only [ValueRange.displacement] at atLeast atMost
    exact Number.wrap_eq_self ⟨by omega, by omega⟩
  have seen {target : Int}
      (evaluated : Expression.evaluate scope.here scope.labels expression = .ok target) :=
    contains_wrap_sub (Expression.fits_of_evaluate evaluated)
      (show (0 : Int) ≤ scope.here.toNat + length by omega) (by omega)
  simp only [relative, bind_eq_ok, value_eq_ok emits, emits, true_and, Operand.Takes]
  constructor
  · rintro ⟨target, evaluated, checked⟩
    rw [seen evaluated] at checked
    split at checked
    · simp at checked
    · rename_i inside
      have contained : ValueRange.displacement.contains
          (target - (scope.here.toNat + length)) = true := by simpa using inside
      rw [wrapped contained] at checked
      exact ⟨target, evaluated, ValueRange.contains_eq_true.mp contained,
        Except.ok.inj checked⟩
  · rintro ⟨target, evaluated, inside, storedEq⟩
    have contained : ValueRange.displacement.contains
        (target - (scope.here.toNat + length)) = true :=
      ValueRange.contains_eq_true.mpr inside
    refine ⟨target, evaluated, ?_⟩
    rw [seen evaluated, wrapped contained, if_neg (by simp [contained]), storedEq]

/-- Filling in an operand succeeds exactly for the numbers that it takes. -/
theorem fill_isOk_iff (emits : scope.pass = .emit) {length : Nat} (short : length ≤ 4)
    (operand : Operand) (argument : Argument) :
    (∃ bytes, scope.fill length operand argument = .ok bytes) ↔
      ∀ expression, operand.expression? argument = some expression →
        ∃ value, Expression.evaluate scope.here scope.labels expression = .ok value ∧
          operand.Takes scope.here length value := by
  cases operand <;> cases argument <;>
    simp [fill, Operand.expression?, map_eq_ok, byte, word, displacement,
      valueIn_eq_ok emits, relative_eq_ok emits short, Operand.Takes, ValueRange.byte,
      ValueRange.word, ValueRange.displacement]

theorem payload_isOk_iff (emits : scope.pass = .emit) {length : Nat} (short : length ≤ 4)
    (operands : List Operand) (arguments : List Argument) :
    (∃ bytes, scope.payload length operands arguments = .ok bytes) ↔
      ∀ pair ∈ operands.zip arguments, ∀ expression,
        pair.1.expression? pair.2 = some expression →
          ∃ value, Expression.evaluate scope.here scope.labels expression = .ok value ∧
            pair.1.Takes scope.here length value := by
  induction operands generalizing arguments with
  | nil => simp [payload]
  | cons operand operands ih =>
      cases arguments with
      | nil => simp [payload]
      | cons argument arguments =>
          rw [List.zip_cons_cons, List.forall_mem_cons, ← ih,
            ← fill_isOk_iff emits short operand argument]
          simp only [payload, bind_eq_ok]
          constructor
          · rintro ⟨_, front, frontEq, back, backEq, _⟩
            exact ⟨⟨front, frontEq⟩, ⟨back, backEq⟩⟩
          · rintro ⟨⟨front, frontEq⟩, ⟨back, backEq⟩⟩
            exact ⟨front ++ back, front, frontEq, back, backEq, rfl⟩

theorem value_of_literal (emits : scope.pass = .emit) {expression : Text} {number : Int}
    (fit : ((scope.value expression).toOption == some number) = true) :
    Expression.evaluate scope.here scope.labels expression = .ok number := by
  rw [← value_eq_ok emits]
  cases valued : scope.value expression with
  | error problem => simp [valued, Except.toOption] at fit
  | ok value =>
      simp only [valued, Except.toOption, beq_iff_eq, Option.some.injEq] at fit
      rw [fit]

theorem holds_of_fill_value (emits : scope.pass = .emit) {length : Nat} (short : length ≤ 4)
    {operand : Operand} {written expression : Text} {field : List UInt8}
    (compacted : expression = Text.compact written)
    (fit : scope.fits operand (.value expression) = true)
    (filled : scope.fill length operand (.value expression) = .ok field) :
    operand.Holds scope.here scope.labels length written field := by
  subst compacted
  cases operand with
  | digit number =>
      have evaluated := value_of_literal emits fit
      rw [Expression.evaluate_compact] at evaluated
      exact ⟨evaluated, (Except.ok.inj filled).symm⟩
  | vector address =>
      have evaluated := value_of_literal emits fit
      rw [Expression.evaluate_compact] at evaluated
      exact ⟨evaluated, (Except.ok.inj filled).symm⟩
  | byte =>
      simp only [fill, byte, map_eq_ok, valueIn_eq_ok emits,
        Expression.evaluate_compact] at filled
      obtain ⟨_, ⟨value, ⟨evaluated, range⟩, rfl⟩, rfl⟩ := filled
      exact ⟨value, evaluated, range, _, rfl, toNat_byte_ofInt value⟩
  | word =>
      obtain ⟨filling, fillingEq, rfl⟩ := map_eq_ok.mp filled
      obtain ⟨value, evaluated, range, stored⟩ := word_eq_ok emits fillingEq
      rw [Expression.evaluate_compact] at evaluated
      exact ⟨value, evaluated, range, _, _, rfl, stored⟩
  | relative =>
      simp only [fill, map_eq_ok, relative_eq_ok emits short,
        Expression.evaluate_compact] at filled
      obtain ⟨_, ⟨target, evaluated, range, rfl⟩, rfl⟩ := filled
      exact ⟨target, evaluated, range, _, rfl, toNat_byte_ofInt _⟩
  | _ => simp [fits] at fit

/-- What an operand is filled in with means what is written. -/
theorem holds_of_fill (emits : scope.pass = .emit) {length : Nat} (short : length ≤ 4)
    {operand : Operand} {written : Text} {field : List UInt8}
    (fit : scope.fits operand (Argument.ofText written) = true)
    (filled : scope.fill length operand (Argument.ofText written) = .ok field) :
    operand.Holds scope.here scope.labels length written field := by
  have compacted := Argument.compact_of_ofText written
  generalize Argument.ofText written = argument at fit filled compacted
  cases argument with
  | value expression => exact holds_of_fill_value emits short compacted fit filled
  | keyword word =>
      cases operand with
      | keyword fixed =>
          obtain rfl : fixed = word := by simpa [fits] using fit
          exact ⟨compacted, (Except.ok.inj filled).symm⟩
      | indexed register =>
          obtain rfl : word = Keyword.atIndex register := by simpa [fits] using fit
          refine Or.inl ⟨?_, (Except.ok.inj filled).symm⟩
          cases register <;> exact compacted
      | _ => simp [fits] at fit
  | cell inner =>
      cases operand with
      | cell =>
          obtain ⟨filling, fillingEq, rfl⟩ := map_eq_ok.mp filled
          obtain ⟨value, evaluated, range, stored⟩ := word_eq_ok emits fillingEq
          exact ⟨inner, value, compacted, evaluated, range, _, _, rfl, stored⟩
      | _ => simp [fits] at fit
  | indexed used displacement =>
      cases operand with
      | indexed register =>
          obtain rfl : register = used := by simpa [fits] using fit
          simp only [fill, Scope.displacement, map_eq_ok, valueIn_eq_ok emits] at filled
          obtain ⟨_, ⟨value, ⟨evaluated, range⟩, rfl⟩, rfl⟩ := filled
          obtain ⟨name, textEq, named, signed⟩ := compacted
          exact Or.inr ⟨name, displacement, value, textEq, named, signed, evaluated, range,
            _, rfl, toNat_byte_ofInt value⟩
      | _ => simp [fits] at fit

theorem allHold_of_payload (emits : scope.pass = .emit) {length : Nat} (short : length ≤ 4)
    {operands : List Operand} {written : List Text} {payload : List UInt8}
    (fit : scope.allFit operands (written.map Argument.ofText) = true)
    (filled : scope.payload length operands (written.map Argument.ofText) = .ok payload) :
    operands.length = written.length ∧
      Operand.AllHold scope.here scope.labels length operands written payload := by
  induction operands generalizing written payload with
  | nil =>
      cases written with
      | nil => exact ⟨rfl, (Except.ok.inj filled).symm⟩
      | cons => simp [allFit] at fit
  | cons operand operands ih =>
      cases written with
      | nil => simp [allFit] at fit
      | cons first others =>
          simp only [List.map_cons, allFit, Bool.and_eq_true] at fit
          simp only [List.map_cons, Scope.payload, bind_eq_ok] at filled
          obtain ⟨front, frontEq, back, backEq, joined⟩ := filled
          obtain rfl := Except.ok.inj joined
          obtain ⟨lengthEq, othersHold⟩ := ih fit.2 backEq
          refine ⟨by simp [lengthEq], ?_⟩
          rw [Operand.AllHold, ← length_fill fit.1 frontEq, List.take_left, List.drop_left]
          exact ⟨holds_of_fill emits short fit.1 frontEq, othersHold⟩

/-- A selected entry whose operands have values encodes them exactly if it takes them. -/
theorem instruction_isOk_iff (emits : scope.pass = .emit) {statement : Statement}
    {entry : Entry}
    (chosen : scope.select statement.mnemonic (statement.operands.map Argument.ofText) =
      .ok entry)
    (evaluate : ∀ pair ∈ entry.operands.zip (statement.operands.map Argument.ofText),
      ∀ expression, pair.1.expression? pair.2 = some expression →
        ∃ value, Expression.evaluate scope.here scope.labels expression = .ok value) :
    (∃ bytes, scope.instruction statement = .ok bytes) ↔
      ∀ pair ∈ entry.operands.zip (statement.operands.map Argument.ofText),
        ∀ expression value, pair.1.expression? pair.2 = some expression →
          Expression.evaluate scope.here scope.labels expression = .ok value →
            pair.1.Takes scope.here entry.length value := by
  have encodes : (∃ bytes, scope.instruction statement = .ok bytes) ↔
      ∃ payload, scope.payload entry.length entry.operands
        (statement.operands.map Argument.ofText) = .ok payload := by
    constructor
    · rintro ⟨_, bytesEq⟩
      obtain ⟨other, payload, otherChosen, filled, _⟩ := instruction_eq_ok.mp bytesEq
      obtain rfl := Except.ok.inj (chosen.symm.trans otherChosen)
      exact ⟨payload, filled⟩
    · rintro ⟨payload, filled⟩
      exact ⟨_, instruction_eq_ok.mpr ⟨entry, payload, chosen, filled, rfl⟩⟩
  rw [encodes, payload_isOk_iff emits (Entry.length_le_four (selected chosen).1)]
  constructor
  · intro taken pair member expression value expressionEq evaluated
    obtain ⟨other, otherEvaluated, takes⟩ := taken pair member expression expressionEq
    obtain rfl := Except.ok.inj (evaluated.symm.trans otherEvaluated)
    exact takes
  · intro takes pair member expression expressionEq
    obtain ⟨value, evaluated⟩ := evaluate pair member expression expressionEq
    exact ⟨value, evaluated, takes pair member expression value expressionEq evaluated⟩

end Scope

end Z80
