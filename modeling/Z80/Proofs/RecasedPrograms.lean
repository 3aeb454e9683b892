import Z80.Proofs.AssembledMeaning
import Z80.Proofs.RecasedStatements

/-!
# Programs in either letter case

A source without strings that assembles can be written in one letter case throughout.  The
two readings of the recased source go along with those of the source itself: every image
is the same, and the labels have the recased names.  What carries the argument is that the
second reading only succeeds if every name stands for a label of the finished program, so
that no name is mistaken for another label as long as those differ by more than the case of
their letters.
-/

namespace Z80

/-! ## Characters of a line -/

theorem Quoted.flatten_splitFrom_sublist (separator : Char) (inside : Bool) (text : Text) :
    (splitFrom separator inside text).flatten.Sublist text := by
  induction text generalizing inside with
  | nil => exact List.Sublist.refl _
  | cons first rest ih =>
      rw [splitFrom]
      split
      · exact (ih inside).cons _
      · have later := ih (after inside first)
        split
        · exact List.singleton_sublist.mpr List.mem_cons_self
        · rename_i part parts divided
          rw [divided] at later
          exact later.cons_cons first

namespace Line

theorem mem_of_splitOperands {text operand : Text} {operands : List Text} {character : Char}
    (divided : splitOperands text = .ok operands) (isOperand : operand ∈ operands)
    (member : character ∈ operand) : character ∈ text := by
  unfold splitOperands at divided
  split at divided
  · obtain rfl := Except.ok.inj divided
    cases isOperand
  · dsimp only at divided
    split at divided
    · cases divided
    · obtain rfl := Except.ok.inj divided
      obtain ⟨part, isPart, rfl⟩ := List.mem_map.mp isOperand
      exact (Quoted.flatten_splitFrom_sublist ',' false text).mem
        (List.mem_flatten.mpr ⟨part, isPart, (Text.trim_sublist part).mem member⟩)

theorem mem_of_readStatement {text operand : Text} {statement : Statement} {character : Char}
    (read : readStatement text = .ok (some statement)) (isOperand : operand ∈ statement.operands)
    (member : character ∈ operand) : character ∈ text := by
  unfold readStatement at read
  split at read
  · cases read
  · dsimp only at read
    split at read
    · obtain ⟨operands, divided, same⟩ := map_eq_ok.mp read
      obtain rfl := Option.some.inj same
      exact (List.dropWhile_sublist _).mem
        ((Text.trim_sublist _).mem (mem_of_splitOperands divided isOperand member))
    · cases read

/-- The characters of an operand stand in its line. -/
theorem mem_of_read {text operand : Text} {line : Line} {statement : Statement}
    {character : Char} (isRead : read text = .ok line) (written : line.statement = some statement)
    (isOperand : operand ∈ statement.operands) (member : character ∈ operand) :
    character ∈ text := by
  obtain ⟨part, within, statementRead⟩ := exists_sublist_of_read isRead written
  exact within.mem (mem_of_readStatement statementRead isOperand member)

/-- The characters of the lines stand in the source. -/
theorem flatten_split_sublist (text : Text) : (split text).flatten.Sublist text := by
  induction text using split.induct with
  | case1 => exact List.Sublist.refl _
  | case2 rest ih =>
      rw [split]
      exact ih.cons _
  | case3 rest ih =>
      rw [split]
      exact (ih.cons _).cons _
  | case4 character rest notFeed notReturn empty ih =>
      rw [split.eq_4 character rest notFeed notReturn, empty]
      exact List.singleton_sublist.mpr List.mem_cons_self
  | case5 character rest notFeed notReturn first others divided ih =>
      rw [split.eq_4 character rest notFeed notReturn, divided]
      rw [divided] at ih
      exact ih.cons_cons character

end Line

/-! ## Statements that assemble name known labels -/

/-- Every name in a written operand stands for a label. -/
def Argument.Resolves (labels : Labels) (argument : Argument) : Prop :=
  ∀ expression, argument.expression? = some expression → Expression.Resolves labels expression

/-- Every name in the expressions of a statement stands for a label. -/
def Statement.Resolves (labels : Labels) (statement : Statement) : Prop :=
  ∀ expression ∈ statement.expressions, Expression.Resolves labels expression

theorem Statement.Resolves.keeps {fold : Char → Char} (recasing : IsRecasing fold)
    {labels all : Labels} {statement : Statement} (resolves : statement.Resolves all)
    (within : Labels.Within labels all)
    (distinct : (all.map fun label => Text.upper label.1).Nodup) :
    statement.Keeps fold labels :=
  fun expression member => (resolves expression member).keeps recasing within distinct

namespace Scope

variable {scope : Scope}

theorem resolves_of_word (emits : scope.pass = .emit) {expression : Text} {word : UInt16}
    (valued : scope.word expression = .ok word) :
    Expression.Resolves scope.labels expression := by
  obtain ⟨value, evaluated, _⟩ := word_eq_ok emits valued
  exact Expression.resolves_of_evaluate evaluated

theorem resolves_of_byte (emits : scope.pass = .emit) {expression : Text} {byte : UInt8}
    (valued : scope.byte expression = .ok byte) :
    Expression.Resolves scope.labels expression := by
  obtain ⟨value, inRange, _⟩ := map_eq_ok.mp valued
  exact Expression.resolves_of_evaluate ((valueIn_eq_ok emits).mp inRange).1

/-- An operand that fits is either compared with the opcode or filled in, and evaluated for
that. -/
theorem resolves_of_fill (emits : scope.pass = .emit) {length : Nat} (short : length ≤ 4)
    {operand : Operand} {argument : Argument} {bytes : List UInt8} (fit : scope.fits operand argument = true)
    (filled : scope.fill length operand argument = .ok bytes) :
    argument.Resolves scope.labels := by
  intro expression isExpression
  cases literal : operand.isLiteral with
  | true =>
      cases argument with
      | value written =>
          obtain rfl : written = expression := Option.some.inj isExpression
          cases operand with
          | digit number => exact Expression.resolves_of_evaluate (value_of_literal emits fit)
          | vector address => exact Expression.resolves_of_evaluate (value_of_literal emits fit)
          | _ => cases literal
      | _ => cases operand <;> simp_all [fits, Operand.isLiteral]
  | false =>
      have takes : operand.expression? argument = some expression := by
        cases operand <;> cases argument <;>
          simp_all [fits, Operand.isLiteral, Operand.expression?, Argument.expression?]
      obtain ⟨value, evaluated, _⟩ :=
        (fill_isOk_iff emits short operand argument).mp ⟨bytes, filled⟩ expression takes
      exact Expression.resolves_of_evaluate evaluated

theorem resolves_of_payload (emits : scope.pass = .emit) {length : Nat} (short : length ≤ 4)
    {operands : List Operand} {arguments : List Argument} {bytes : List UInt8}
    (fit : scope.allFit operands arguments = true)
    (filled : scope.payload length operands arguments = .ok bytes) :
    ∀ argument ∈ arguments, argument.Resolves scope.labels := by
  induction arguments generalizing operands bytes with
  | nil => simp
  | cons argument arguments ih =>
      cases operands with
      | nil => cases fit
      | cons operand operands =>
          simp only [allFit, Bool.and_eq_true] at fit
          simp only [payload, bind_eq_ok] at filled
          obtain ⟨front, frontFilled, back, backFilled, _⟩ := filled
          exact List.forall_mem_cons.mpr
            ⟨resolves_of_fill emits short fit.1 frontFilled, ih fit.2 backFilled⟩

theorem resolves_of_dataBytes (emits : scope.pass = .emit) {operands : List Text}
    {bytes : List UInt8} (unquoted : ∀ operand ∈ operands, Quoted.quote ∉ operand)
    (placed : scope.dataBytes operands = .ok bytes) :
    ∀ operand ∈ operands, Expression.Resolves scope.labels operand := by
  induction operands generalizing bytes with
  | nil => simp
  | cons operand operands ih =>
      obtain ⟨first, later⟩ := List.forall_mem_cons.mp unquoted
      simp only [dataBytes, datum, Quoted.content?_eq_none first, bind_eq_ok, map_eq_ok] at placed
      obtain ⟨_, ⟨byte, valued, _⟩, others, othersPlaced, _⟩ := placed
      exact List.forall_mem_cons.mpr ⟨resolves_of_byte emits valued, ih later othersPlaced⟩

theorem resolves_of_dataWords (emits : scope.pass = .emit) {operands : List Text}
    {bytes : List UInt8} (placed : scope.dataWords operands = .ok bytes) :
    ∀ operand ∈ operands, Expression.Resolves scope.labels operand := by
  induction operands generalizing bytes with
  | nil => simp
  | cons operand operands ih =>
      simp only [dataWords, bind_eq_ok] at placed
      obtain ⟨word, valued, others, othersPlaced, _⟩ := placed
      exact List.forall_mem_cons.mpr ⟨resolves_of_word emits valued, ih othersPlaced⟩

theorem resolves_of_statement (emits : scope.pass = .emit) {statement : Statement}
    {bytes : List UInt8} (notOrigin : statement.directive ≠ .origin)
    (unquoted : statement.Unquoted) (placed : scope.statement statement = .ok bytes) :
    statement.Resolves scope.labels := by
  unfold Statement.Resolves Statement.expressions
  unfold Scope.statement at placed
  cases isDirective : statement.directive with
  | origin => exact absurd isDirective notOrigin
  | bytes =>
      simp only [isDirective] at placed ⊢
      split at placed
      · cases placed
      · exact resolves_of_dataBytes emits unquoted placed
  | words =>
      simp only [isDirective] at placed ⊢
      split at placed
      · cases placed
      · exact resolves_of_dataWords emits placed
  | instruction =>
      simp only [isDirective] at placed ⊢
      obtain ⟨entry, payload, chosen, filled, _⟩ := instruction_eq_ok.mp placed
      intro expression member
      obtain ⟨operand, isOperand, isExpression⟩ := List.mem_filterMap.mp member
      obtain ⟨isEntry, _, fit⟩ := selected chosen
      exact resolves_of_payload emits (Entry.length_le_four isEntry) fit filled _
        (List.mem_map_of_mem isOperand) expression isExpression

end Scope

/-! ## Lines and readings -/

namespace Progress

theorem within_of_reading {pass : Pass} {progress last : Progress} {lines : List (Nat × Line)}
    (walked : walk pass progress lines = .ok last) :
    Labels.Within progress.labels last.labels := by
  cases pass with
  | layout => exact within_of_walk walked
  | emit =>
      rw [labels_of_walk_emit walked]
      exact Labels.Within.refl _

theorem resolves_of_advance {progress next : Progress} {number : Nat} {line : Line}
    {statement : Statement} (advanced : progress.advance .emit number line = .ok next)
    (written : line.statement = some statement) (unquoted : statement.Unquoted) :
    statement.Resolves progress.labels := by
  obtain ⟨arrived, defined, arrivedEq, definedEq, placedEq⟩ := advance_eq_ok.mp advanced
  by_cases origin : statement.directive = .origin
  · rw [arrive_of_origin written origin] at arrivedEq
    obtain ⟨operand, target, _, operandsEq, valued, _⟩ := moveOrigin_eq_ok.mp arrivedEq
    simp only [Statement.Resolves, Statement.expressions, origin, operandsEq,
      List.forall_mem_singleton]
    exact Scope.resolves_of_word rfl valued
  · obtain rfl := Except.ok.inj ((define_emit arrived _).symm.trans definedEq)
    rcases place_eq_ok.mp placedEq with
      ⟨blank, _⟩ | ⟨other, bytes, image, same, bytesEq, _⟩
    · cases written.symm.trans blank
    · obtain rfl := Option.some.inj (written.symm.trans same)
      rw [← labels_of_arrive arrivedEq]
      exact Scope.resolves_of_statement rfl origin unquoted bytesEq

/-- The second reading only succeeds if every name stands for a label. -/
theorem resolves_of_walk {progress last : Progress} {lines : List (Nat × Line)}
    (walked : walk .emit progress lines = .ok last) {number : Nat} {line : Line}
    (member : (number, line) ∈ lines) {statement : Statement}
    (written : line.statement = some statement) (unquoted : statement.Unquoted) :
    statement.Resolves progress.labels := by
  obtain ⟨front, back, rfl⟩ := List.append_of_mem member
  obtain ⟨middle, walkedFront, walkedBack⟩ := walk_append_eq_ok.mp walked
  obtain ⟨next, advanced, _⟩ := walk_cons_eq_ok.mp walkedBack
  rw [← labels_of_walk_emit walkedFront]
  exact resolves_of_advance advanced written unquoted

variable {fold : Char → Char}

/-- How far a reading has come, with the names of its labels recased. -/
def recase (fold : Char → Char) (progress : Progress) : Progress :=
  { progress with labels := progress.labels.recase fold }

theorem arrive_map (recasing : IsRecasing fold) {progress next : Progress} {line : Line}
    (keeps : ∀ statement, line.statement = some statement → statement.Keeps fold progress.labels)
    (arrived : progress.arrive line = .ok next) :
    (progress.recase fold).arrive (line.recase fold) = .ok (next.recase fold) := by
  by_cases moves : ∃ statement, line.statement = some statement ∧ statement.directive = .origin
  · obtain ⟨statement, written, origin⟩ := moves
    have recasedWritten : (line.recase fold).statement = some (statement.recase fold) := by
      rw [Line.recase, written]
      rfl
    have operandsKeep := keeps statement written
    rw [arrive_of_origin written origin] at arrived
    obtain ⟨operand, target, image, operandsEq, valued, moved, rfl⟩ :=
      moveOrigin_eq_ok.mp arrived
    simp only [Statement.Keeps, Statement.expressions, origin, operandsEq,
      List.forall_mem_singleton] at operandsKeep
    rw [arrive_of_origin recasedWritten origin]
    refine moveOrigin_eq_ok.mpr ⟨operand.map fold, target, image, ?_, ?_, moved, rfl⟩
    · rw [Statement.recase, operandsEq]
      rfl
    · rw [← toOption_eq_some] at valued ⊢
      exact (Scope.word_map recasing operandsKeep).trans valued
  · have stays : ∀ statement, line.statement = some statement → statement.directive ≠ .origin :=
      fun statement written origin => moves ⟨statement, written, origin⟩
    rw [arrive_of_not_origin stays] at arrived
    obtain rfl := Except.ok.inj arrived
    refine arrive_of_not_origin (fun statement written => ?_) _
    obtain ⟨other, otherWritten, rfl⟩ := Option.map_eq_some_iff.mp written
    exact stays other otherWritten

theorem define_map {progress next : Progress} {pass : Pass} {label : Option Text}
    (keeps : pass = .layout → ∀ name, label = some name → progress.labels.Keeps fold name)
    (defined : progress.define pass label = .ok next) :
    (progress.recase fold).define pass (label.map (List.map fold)) = .ok (next.recase fold) := by
  cases pass with
  | emit =>
      rw [define_emit] at defined ⊢
      rw [Except.ok.inj defined]
  | layout =>
      rcases define_layout_eq_ok.mp defined with ⟨rfl, rfl⟩ | ⟨name, rfl, fresh, rfl⟩
      · rfl
      · refine define_layout_eq_ok.mpr (Or.inr ⟨name.map fold, rfl, ?_, rfl⟩)
        exact (keeps rfl name rfl).trans fresh

theorem place_map (recasing : IsRecasing fold) {progress next : Progress} {pass : Pass}
    {here : UInt16} {line : Line}
    (unquoted : ∀ statement, line.statement = some statement → statement.Unquoted)
    (keeps : ∀ statement, line.statement = some statement → statement.Keeps fold progress.labels)
    (placed : progress.place pass here line = .ok next) :
    (progress.recase fold).place pass here (line.recase fold) = .ok (next.recase fold) := by
  rcases place_eq_ok.mp placed with
    ⟨blank, rfl⟩ | ⟨statement, bytes, image, written, bytesEq, appended, rfl⟩
  · refine place_eq_ok.mpr (Or.inl ⟨?_, rfl⟩)
    rw [Line.recase, blank]
    rfl
  · refine place_eq_ok.mpr (Or.inr ⟨statement.recase fold, bytes, image, ?_, ?_, appended, rfl⟩)
    · rw [Line.recase, written]
      rfl
    · rw [← toOption_eq_some] at bytesEq ⊢
      exact (Scope.statement_map recasing (unquoted statement written)
        (keeps statement written)).trans bytesEq

/-- One line: a recased reading goes along with the reading itself. -/
theorem advance_map (recasing : IsRecasing fold) {all : Labels}
    (distinct : (all.map fun label => Text.upper label.1).Nodup) {pass : Pass}
    {progress next : Progress} {number : Nat} {line : Line}
    (known : ∀ statement, line.statement = some statement →
      statement.Unquoted ∧ statement.Resolves all)
    (advanced : progress.advance pass number line = .ok next)
    (within : Labels.Within next.labels all) :
    (progress.recase fold).advance pass number (line.recase fold) = .ok (next.recase fold) := by
  have single : walk pass progress [(number, line)] = .ok next :=
    walk_cons_eq_ok.mpr ⟨next, advanced, rfl⟩
  have onwards := (within_of_reading single).trans within
  obtain ⟨arrived, defined, arrivedEq, definedEq, placedEq⟩ := advance_eq_ok.mp advanced
  have definedWithin : Labels.Within defined.labels all := labels_of_place placedEq ▸ within
  refine advance_eq_ok.mpr ⟨arrived.recase fold, defined.recase fold, ?_, ?_, ?_⟩
  · exact arrive_map recasing (fun statement written =>
      (known statement written).2.keeps recasing onwards distinct) arrivedEq
  · refine define_map ?_ definedEq
    rintro rfl name labelled
    rw [labels_of_arrive arrivedEq]
    exact Labels.keeps_of_within recasing onwards distinct
      (within _ _ (lookup_of_advance labelled arrivedEq advanced))
  · exact place_map recasing (fun statement written => (known statement written).1)
      (fun statement written =>
        (known statement written).2.keeps recasing definedWithin distinct) placedEq

/-- A numbered line with its parts recased. -/
def recaseLine (fold : Char → Char) (line : Nat × Line) : Nat × Line :=
  (line.1, line.2.recase fold)

/-- All lines: a recased reading goes along with the reading itself. -/
theorem walk_map (recasing : IsRecasing fold) {all : Labels}
    (distinct : (all.map fun label => Text.upper label.1).Nodup) {pass : Pass}
    {progress last : Progress} {lines : List (Nat × Line)}
    (known : ∀ line ∈ lines, ∀ statement, line.2.statement = some statement →
      statement.Unquoted ∧ statement.Resolves all)
    (walked : walk pass progress lines = .ok last) (within : Labels.Within last.labels all) :
    walk pass (progress.recase fold) (lines.map (recaseLine fold)) = .ok (last.recase fold) := by
  induction lines generalizing progress with
  | nil => rw [Except.ok.inj walked, List.map_nil, walk]
  | cons first rest ih =>
      obtain ⟨number, line⟩ := first
      obtain ⟨firstKnown, restKnown⟩ := List.forall_mem_cons.mp known
      obtain ⟨next, advanced, finished⟩ := walk_cons_eq_ok.mp walked
      have nextWithin := (within_of_reading finished).trans within
      exact walk_cons_eq_ok.mpr ⟨next.recase fold,
        advance_map recasing distinct firstKnown advanced nextWithin, ih restKnown finished⟩

end Progress

namespace Assembly

variable {fold : Char → Char}

/-- An assembled program with the names of its labels recased. -/
def recase (fold : Char → Char) (assembly : Assembly) : Assembly :=
  { assembly with labels := assembly.labels.recase fold }

theorem readLines_map (recasing : IsRecasing fold) {number : Nat} {texts : List Text}
    {lines : List (Nat × Line)} (read : readLines number texts = .ok lines) :
    readLines number (texts.map (List.map fold)) =
      .ok (lines.map (Progress.recaseLine fold)) := by
  induction texts generalizing number lines with
  | nil =>
      obtain rfl := Except.ok.inj read
      rfl
  | cons text texts ih =>
      simp only [readLines, bind_eq_ok, Progress.locate_eq_ok] at read
      obtain ⟨line, lineRead, rest, restRead, joined⟩ := read
      obtain rfl := Except.ok.inj joined
      rw [List.map_cons, readLines, Line.read_map recasing (read_of_mapError lineRead), ih restRead]
      rfl

/-- A source without strings assembles in any letter case to the same program. -/
theorem ofText_map (recasing : IsRecasing fold) {source : Text} {assembly : Assembly}
    (unquoted : Quoted.quote ∉ source) (assembled : ofText source = .ok assembly)
    (distinct : (assembly.labels.map fun label => Text.upper label.1).Nodup) :
    ofText (source.map fold) = .ok (assembly.recase fold) := by
  simp only [ofText, ofLines, bind_eq_ok] at assembled ⊢
  obtain ⟨lines, read, laidOut, laid, emitted, walked, last⟩ := assembled
  obtain rfl := Except.ok.inj last
  have known : ∀ line ∈ lines, ∀ statement, line.2.statement = some statement →
      statement.Unquoted ∧ statement.Resolves laidOut.labels := by
    intro line member statement written
    obtain ⟨text, isText, textRead⟩ := exists_text_of_readLines read member
    have free : statement.Unquoted := by
      intro operand isOperand quoted
      exact unquoted ((Line.flatten_split_sublist source).mem (List.mem_flatten.mpr
        ⟨text, isText, Line.mem_of_read textRead written isOperand quoted⟩))
    exact ⟨free, Progress.resolves_of_walk walked member written free⟩
  have emittedLabels := Progress.labels_of_walk_emit walked
  refine ⟨_, Line.split_map recasing source ▸ readLines_map recasing read, laidOut.recase fold,
    Progress.walk_map recasing distinct known laid (Labels.Within.refl _), emitted.recase fold,
    Progress.walk_map recasing distinct known walked ?_, rfl⟩
  rw [emittedLabels]
  exact Labels.Within.refl _

end Assembly

/-- Letter case does not matter in a source without strings whose labels differ by more than
the case of letters: in upper case throughout, and in lower case throughout, it assembles to
the same bytes at the same origin, and its labels keep their addresses. -/
theorem assemble_in_either_case {source : String} {assembly : Assembly}
    (unquoted : '"' ∉ source.toList) (assembled : assemble source = .ok assembly)
    (distinct : (assembly.labels.map fun label => Text.upper label.1).Nodup) :
    assemble source.toUpper = .ok { assembly with
      labels := assembly.labels.map fun label => (Text.upper label.1, label.2) } ∧
    assemble source.toLower = .ok { assembly with
      labels := assembly.labels.map fun label => (Text.lower label.1, label.2) } := by
  have upper : source.toUpper.toList = source.toList.map Char.toUpper := String.toList_map
  have lower : source.toLower.toList = source.toList.map Char.toLower := String.toList_map
  constructor
  · rw [assemble, upper]
    exact Assembly.ofText_map isRecasing_toUpper unquoted assembled distinct
  · rw [assemble, lower]
    exact Assembly.ofText_map isRecasing_toLower unquoted assembled distinct

/-- The name of a label is written in the same case wherever it stands. -/
theorem assemble_in_either_case_loop :
    let source := "Loop: inc a\n dJNZ Loop\n DW Loop+0Ah"
    let assembly : Assembly :=
      ⟨0, [0x3C, 0x10, 0xFD, 0x0A, 0x00], [(['L', 'o', 'o', 'p'], 0)]⟩
    '"' ∉ source.toList ∧ assemble source = .ok assembly ∧
      (assembly.labels.map fun label => Text.upper label.1).Nodup ∧
      assemble source.toUpper = .ok { assembly with labels := [(['L', 'O', 'O', 'P'], 0)] } ∧
      assemble source.toLower = .ok { assembly with labels := [(['l', 'o', 'o', 'p'], 0)] } := by
  intro source assembly
  have unquoted : '"' ∉ source.toList := by decide
  have assembled : assemble source = .ok assembly := by decide
  have distinct : (assembly.labels.map fun label => Text.upper label.1).Nodup := by decide
  exact ⟨unquoted, assembled, distinct, assemble_in_either_case unquoted assembled distinct⟩

end Z80
