import Z80.Proofs.TableEntries
import Z80.Assembler.Encoding

/-!
# The length of a statement

A statement has the same length on every line and in both readings, whatever
its expressions stand for.  Values only decide between entries of a mnemonic
whose operands are bit numbers, interrupt modes or restart addresses, and those
entries differ in length only if their other operands differ in shape.
-/

namespace Z80

theorem bind_eq_ok {ε α β : Type} {result : Except ε α} {next : α → Except ε β} {last : β} :
    (result >>= next) = .ok last ↔ ∃ first, result = .ok first ∧ next first = .ok last := by
  cases result <;> simp [bind, Except.bind]

theorem map_eq_ok {ε α β : Type} {result : Except ε α} {change : α → β} {last : β} :
    result.map change = .ok last ↔ ∃ first, result = .ok first ∧ change first = last := by
  cases result <;> simp [Except.map]

theorem bind_eq_error {ε α β : Type} {result : Except ε α} {next : α → Except ε β}
    {failure : ε} :
    (result >>= next) = .error failure ↔
      result = .error failure ∨ ∃ first, result = .ok first ∧ next first = .error failure := by
  cases result <;> simp [bind, Except.bind]

theorem map_eq_error {ε α β : Type} {result : Except ε α} {change : α → β} {failure : ε} :
    result.map change = .error failure ↔ result = .error failure := by
  cases result <;> simp [Except.map]

theorem toOption_eq_some {ε α : Type} {result : Except ε α} {value : α} :
    result.toOption = some value ↔ result = .ok value := by
  cases result <;> simp [Except.toOption]

theorem toOption_bind {ε α β : Type} (result : Except ε α) (next : α → Except ε β) :
    (result >>= next).toOption = result.toOption.bind fun value => (next value).toOption := by
  cases result <;> rfl

theorem toOption_map {ε α β : Type} (result : Except ε α) (change : α → β) :
    (result.map change).toOption = result.toOption.map change := by
  cases result <;> rfl

theorem toOption_mapError {ε α β : Type} (result : Except ε α) (change : ε → β) :
    (result.mapError change).toOption = result.toOption := by
  cases result <;> rfl

namespace Mnemonic

theorem text_of_ofText? {text : Text} {mnemonic : Mnemonic}
    (known : ofText? text = some mnemonic) : mnemonic.text = text := by
  simpa using List.find?_some known

/-- Whether some operands of a mnemonic are numbers that the opcode fixes. -/
def takesLiteral : Mnemonic → Bool
  | .bit | .res | .set | .im | .rst => true
  | _ => false

/-- The length of an instruction with such operands, by whether it also has an
operand near an index register. -/
def literalLength (mnemonic : Mnemonic) (near : Bool) : Nat :=
  if mnemonic = .rst then 1 else if near then 4 else 2

end Mnemonic

namespace Operand

/-- Whether an operand is a number that the opcode fixes. -/
def isLiteral : Operand → Bool
  | .digit _ | .vector _ => true
  | _ => false

def isIndexed : Operand → Bool
  | .indexed _ => true
  | _ => false

end Operand

/-- Whether a written operand can stand for the cell near an index register. -/
def Argument.isIndexed : Argument → Bool
  | .indexed _ _ => true
  | .keyword word => word == .atIX || word == .atIY
  | _ => false

namespace Scope

theorem isIndexed_of_fits {scope : Scope} {operand : Operand} {argument : Argument}
    (notIX : operand ≠ .keyword .atIX) (notIY : operand ≠ .keyword .atIY)
    (fit : scope.fits operand argument = true) :
    operand.isIndexed = argument.isIndexed := by
  cases operand with
  | indexed register =>
      cases argument with
      | keyword word =>
          obtain rfl : word = Keyword.atIndex register := by simpa [fits] using fit
          cases register <;> rfl
      | indexed used displacement => rfl
      | _ => simp [fits] at fit
  | _ =>
      cases argument <;> simp_all [fits, Operand.isIndexed, Argument.isIndexed]

theorem any_isIndexed_of_allFit {scope : Scope} {operands : List Operand}
    {arguments : List Argument}
    (notAt : ∀ operand ∈ operands, operand ≠ .keyword .atIX ∧ operand ≠ .keyword .atIY)
    (fit : scope.allFit operands arguments = true) :
    operands.any Operand.isIndexed = arguments.any Argument.isIndexed := by
  induction operands generalizing arguments with
  | nil => cases arguments <;> simp_all [allFit]
  | cons operand operands ih =>
      cases arguments with
      | nil => simp [allFit] at fit
      | cons argument arguments =>
          simp only [allFit, Bool.and_eq_true] at fit
          obtain ⟨notIX, notIY⟩ := notAt operand (by simp)
          rw [List.any_cons, List.any_cons, isIndexed_of_fits notIX notIY fit.1,
            ih (fun other member => notAt other (by simp [member])) fit.2]

theorem fits_congr (scope other : Scope) {operand : Operand}
    (plain : operand.isLiteral = false) (argument : Argument) :
    scope.fits operand argument = other.fits operand argument := by
  cases operand <;> cases argument <;> simp_all [fits, Operand.isLiteral]

theorem allFit_congr (scope other : Scope) {operands : List Operand}
    (plain : ∀ operand ∈ operands, operand.isLiteral = false) (arguments : List Argument) :
    scope.allFit operands arguments = other.allFit operands arguments := by
  induction operands generalizing arguments with
  | nil => cases arguments <;> rfl
  | cons operand operands ih =>
      cases arguments with
      | nil => rfl
      | cons argument arguments =>
          simp only [allFit]
          rw [fits_congr scope other (plain operand (by simp)),
            ih (fun other member => plain other (by simp [member]))]

theorem select_eq_ok {scope : Scope} {mnemonic : Text} {arguments : List Argument}
    {entry : Entry} :
    scope.select mnemonic arguments = .ok entry ↔
      ∃ known, Mnemonic.ofText? mnemonic = some known ∧
        (Table.withMnemonic known).find?
          (fun entry => scope.allFit entry.operands arguments) = some entry := by
  unfold select
  cases Mnemonic.ofText? mnemonic with
  | none => simp
  | some known =>
      cases found : (Table.withMnemonic known).find?
        (fun entry => scope.allFit entry.operands arguments) <;> simp [found]

/-- A selected entry is in the table, has the mnemonic that is written, and fits
the written operands. -/
theorem selected {scope : Scope} {mnemonic : Text} {arguments : List Argument}
    {entry : Entry} (selected : scope.select mnemonic arguments = .ok entry) :
    entry ∈ Table.entries ∧ entry.mnemonic.text = mnemonic ∧
      scope.allFit entry.operands arguments = true := by
  obtain ⟨known, knownEq, found⟩ := select_eq_ok.mp selected
  obtain ⟨member, rfl⟩ := Table.mem_withMnemonic.mp (List.mem_of_find?_eq_some found)
  have fit := List.find?_some found
  exact ⟨member, Mnemonic.text_of_ofText? knownEq, by simpa using fit⟩

end Scope

namespace Table

/-- The mnemonic of an entry decides whether its operands are literals, and then
how long the entry is. -/
theorem literal_facts {entry : Entry} (member : entry ∈ entries) :
    (entry.mnemonic.takesLiteral = false →
      ∀ operand ∈ entry.operands, operand.isLiteral = false) ∧
    (entry.mnemonic.takesLiteral = true →
      entry.length =
          entry.mnemonic.literalLength (entry.operands.any Operand.isIndexed) ∧
        ∀ operand ∈ entry.operands,
          operand ≠ .keyword .atIX ∧ operand ≠ .keyword .atIY) := by
  have every : ∀ entry ∈ entries,
      (entry.mnemonic.takesLiteral = false →
        ∀ operand ∈ entry.operands, operand.isLiteral = false) ∧
      (entry.mnemonic.takesLiteral = true →
        entry.length =
            entry.mnemonic.literalLength (entry.operands.any Operand.isIndexed) ∧
          ∀ operand ∈ entry.operands,
            operand ≠ .keyword .atIX ∧ operand ≠ .keyword .atIY) := by decide +kernel
  exact every entry member

theorem isLiteral_eq_false {entry : Entry} (member : entry ∈ entries)
    (plain : entry.mnemonic.takesLiteral = false) :
    ∀ operand ∈ entry.operands, operand.isLiteral = false :=
  (literal_facts member).1 plain

theorem length_of_takesLiteral {entry : Entry} (member : entry ∈ entries)
    (literal : entry.mnemonic.takesLiteral = true) :
    entry.length =
        entry.mnemonic.literalLength (entry.operands.any Operand.isIndexed) ∧
      ∀ operand ∈ entry.operands,
        operand ≠ .keyword .atIX ∧ operand ≠ .keyword .atIY :=
  (literal_facts member).2 literal

end Table

namespace Scope

/-- Where no operand is a number that the opcode fixes, values do not decide which entry
is selected. -/
theorem select_congr (scope other : Scope) {known : Mnemonic} {mnemonic : Text}
    (knownEq : Mnemonic.ofText? mnemonic = some known) (plain : known.takesLiteral = false)
    (arguments : List Argument) :
    scope.select mnemonic arguments = other.select mnemonic arguments := by
  have sameFound : (Table.withMnemonic known).find?
        (fun entry => scope.allFit entry.operands arguments) =
      (Table.withMnemonic known).find?
        (fun entry => other.allFit entry.operands arguments) := by
    rw [← List.head?_filter, ← List.head?_filter]
    congr 1
    apply List.filter_congr
    intro entry member
    obtain ⟨tabled, entryKnown⟩ := Table.mem_withMnemonic.mp member
    exact allFit_congr scope other
      (Table.isLiteral_eq_false tabled (entryKnown ▸ plain)) arguments
  simp only [select, knownEq, sameFound]

theorem length_of_select {scope other : Scope} {mnemonic : Text}
    {arguments : List Argument} {first second : Entry}
    (firstSelected : scope.select mnemonic arguments = .ok first)
    (secondSelected : other.select mnemonic arguments = .ok second) :
    first.length = second.length := by
  obtain ⟨known, knownEq, firstFound⟩ := select_eq_ok.mp firstSelected
  obtain ⟨_, sameKnown, secondFound⟩ := select_eq_ok.mp secondSelected
  obtain rfl := Option.some.inj (knownEq.symm.trans sameKnown)
  obtain ⟨firstMember, firstKnown⟩ :=
    Table.mem_withMnemonic.mp (List.mem_of_find?_eq_some firstFound)
  obtain ⟨secondMember, secondKnown⟩ :=
    Table.mem_withMnemonic.mp (List.mem_of_find?_eq_some secondFound)
  cases literal : known.takesLiteral with
  | false =>
      -- No value decides, so both scopes select the same entry.
      rw [select_congr scope other knownEq literal, secondSelected] at firstSelected
      rw [Except.ok.inj firstSelected]
  | true =>
      -- The entries may differ, but the shapes of the operands settle their length.
      obtain ⟨_, _, firstFit⟩ := selected firstSelected
      obtain ⟨_, _, secondFit⟩ := selected secondSelected
      obtain ⟨firstLength, firstAt⟩ :=
        Table.length_of_takesLiteral firstMember (firstKnown ▸ literal)
      obtain ⟨secondLength, secondAt⟩ :=
        Table.length_of_takesLiteral secondMember (secondKnown ▸ literal)
      rw [firstLength, secondLength, firstKnown, secondKnown,
        any_isIndexed_of_allFit firstAt firstFit,
        any_isIndexed_of_allFit secondAt secondFit]

theorem length_fill {scope : Scope} {length : Nat} {operand : Operand}
    {argument : Argument} {bytes : List UInt8}
    (fit : scope.fits operand argument = true)
    (filled : scope.fill length operand argument = .ok bytes) :
    bytes.length = operand.size := by
  cases operand <;> cases argument <;> simp only [fits, Bool.false_eq_true] at fit <;>
    simp only [fill, map_eq_ok, Except.ok.injEq] at filled
  all_goals first
    | exact (congrArg List.length filled).symm
    | obtain ⟨_, _, rfl⟩ := filled; rfl

theorem length_payload {scope : Scope} {length : Nat} {operands : List Operand}
    {arguments : List Argument} {bytes : List UInt8}
    (fit : scope.allFit operands arguments = true)
    (filled : scope.payload length operands arguments = .ok bytes) :
    bytes.length = Operand.totalSize operands := by
  induction operands generalizing arguments bytes with
  | nil =>
      simp only [payload, Except.ok.injEq] at filled
      simp [← filled, Operand.totalSize]
  | cons operand operands ih =>
      cases arguments with
      | nil => simp [allFit] at fit
      | cons argument arguments =>
          simp only [allFit, Bool.and_eq_true] at fit
          simp only [payload, bind_eq_ok] at filled
          obtain ⟨front, frontFilled, back, backFilled, joined⟩ := filled
          obtain rfl := Except.ok.inj joined
          rw [List.length_append, length_fill fit.1 frontFilled, ih fit.2 backFilled,
            Operand.totalSize]

theorem instruction_eq_ok {scope : Scope} {statement : Statement} {bytes : List UInt8} :
    scope.instruction statement = .ok bytes ↔
      ∃ entry payload,
        scope.select statement.mnemonic (statement.operands.map Argument.ofText) =
          .ok entry ∧
        scope.payload entry.length entry.operands
          (statement.operands.map Argument.ofText) = .ok payload ∧
        entry.encode payload = bytes := by
  simp only [instruction, bind_eq_ok]
  constructor
  · rintro ⟨entry, chosen, payload, filled, encoded⟩
    exact ⟨entry, payload, chosen, filled, Except.ok.inj encoded⟩
  · rintro ⟨entry, payload, chosen, filled, rfl⟩
    exact ⟨entry, chosen, payload, filled, rfl⟩

theorem length_of_instruction {scope other : Scope} {statement : Statement}
    {first second : List UInt8} (firstBytes : scope.instruction statement = .ok first)
    (secondBytes : other.instruction statement = .ok second) :
    first.length = second.length := by
  obtain ⟨entry, payload, chosen, filled, rfl⟩ := instruction_eq_ok.mp firstBytes
  obtain ⟨otherEntry, otherPayload, otherChosen, otherFilled, rfl⟩ :=
    instruction_eq_ok.mp secondBytes
  rw [Entry.length_encode_of_sized (length_payload (selected chosen).2.2 filled),
    Entry.length_encode_of_sized (length_payload (selected otherChosen).2.2 otherFilled),
    length_of_select chosen otherChosen]

theorem length_of_datum {scope other : Scope} {operand : Text} {first second : List UInt8}
    (firstBytes : scope.datum operand = .ok first)
    (secondBytes : other.datum operand = .ok second) : first.length = second.length := by
  unfold datum at firstBytes secondBytes
  split at firstBytes
  · rename_i content quoted
    simp only [quoted] at secondBytes
    rw [firstBytes] at secondBytes
    rw [Except.ok.inj secondBytes]
  · rename_i unquoted
    simp only [unquoted, map_eq_ok] at firstBytes secondBytes
    obtain ⟨_, _, rfl⟩ := firstBytes
    obtain ⟨_, _, rfl⟩ := secondBytes
    rfl

theorem length_of_dataBytes {scope other : Scope} {operands : List Text}
    {first second : List UInt8} (firstBytes : scope.dataBytes operands = .ok first)
    (secondBytes : other.dataBytes operands = .ok second) :
    first.length = second.length := by
  induction operands generalizing first second with
  | nil =>
      rw [← Except.ok.inj firstBytes, ← Except.ok.inj secondBytes]
  | cons operand operands ih =>
      simp only [dataBytes, bind_eq_ok] at firstBytes secondBytes
      obtain ⟨front, frontEq, back, backEq, joined⟩ := firstBytes
      obtain ⟨otherFront, otherFrontEq, otherBack, otherBackEq, otherJoined⟩ := secondBytes
      obtain rfl := Except.ok.inj joined
      obtain rfl := Except.ok.inj otherJoined
      rw [List.length_append, List.length_append, length_of_datum frontEq otherFrontEq,
        ih backEq otherBackEq]

theorem length_dataWords {scope : Scope} {operands : List Text} {bytes : List UInt8}
    (placed : scope.dataWords operands = .ok bytes) :
    bytes.length = 2 * operands.length := by
  induction operands generalizing bytes with
  | nil => simp [← Except.ok.inj placed]
  | cons operand operands ih =>
      simp only [dataWords, bind_eq_ok] at placed
      obtain ⟨word, _, back, backEq, joined⟩ := placed
      obtain rfl := Except.ok.inj joined
      have backLength := ih backEq
      simp only [List.length_cons]
      omega

/-- A statement that has bytes in two scopes has equally many in both. -/
theorem length_of_statement {scope other : Scope} {statement : Statement}
    {first second : List UInt8} (firstBytes : scope.statement statement = .ok first)
    (secondBytes : other.statement statement = .ok second) :
    first.length = second.length := by
  unfold Scope.statement at firstBytes secondBytes
  cases directive : statement.directive with
  | origin =>
      simp only [directive] at firstBytes secondBytes
      rw [← Except.ok.inj firstBytes, ← Except.ok.inj secondBytes]
  | bytes =>
      simp only [directive] at firstBytes secondBytes
      split at firstBytes
      · simp at firstBytes
      · rename_i operands
        rw [if_neg operands] at secondBytes
        exact length_of_dataBytes firstBytes secondBytes
  | words =>
      simp only [directive] at firstBytes secondBytes
      split at firstBytes
      · simp at firstBytes
      · rename_i operands
        rw [if_neg operands] at secondBytes
        rw [length_dataWords firstBytes, length_dataWords secondBytes]
  | instruction =>
      simp only [directive] at firstBytes secondBytes
      exact length_of_instruction firstBytes secondBytes

end Scope

end Z80
