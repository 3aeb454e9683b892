import Mathlib.Data.List.Forall2
import Z80.Assembler.Line
import Z80.Proofs.QuotedText

/-!
# The syntax of source lines

A line is written as an optional label with a colon, an optional statement and an optional
comment, with white space around every part.  Reading a line returns the parts it was
written from, whatever their strings and the comment contain.
-/

namespace Z80

/-! ## Reserved names -/

theorem toUpper_eq_or (character : Char) :
    character.toUpper = character ∨ character.toNat < 128 := by
  unfold Char.toUpper
  split
  · rename_i lower
    have bound := UInt32.le_iff_toNat_le.mp lower.2
    right
    change character.val.toNat < 128
    change character.val.toNat ≤ 122 at bound
    omega
  · exact Or.inl rfl

/-- Upper case changes no class of characters. -/
theorem toUpper_facts (character : Char) :
    Text.isBlank character.toUpper = Text.isBlank character ∧
      character.toUpper.isAlpha = character.isAlpha ∧
      character.toUpper.isAlphanum = character.isAlphanum := by
  rcases toUpper_eq_or character with same | small
  · simp only [same, and_self]
  · apply of_codes character small
    decide

namespace Keyword

theorem ofText?_eq_none_iff {name : Text} :
    ofText? name = none ↔ ∀ keyword : Keyword, Text.upper name ≠ keyword.text := by
  rw [ofText?, ofUpper?, List.find?_eq_none]
  constructor
  · intro none keyword same
    exact none keyword (mem_all keyword) (beq_iff_eq.mpr same.symm)
  · intro other keyword _ same
    exact other keyword (beq_iff_eq.mp same).symm

/-- A keyword has no white space or divider in it, and it is written in letters or has a
character that no mnemonic has. -/
theorem text_facts (keyword : Keyword) :
    keyword.text ≠ [] ∧
      (∀ character ∈ keyword.text, Text.isBlank character = false ∧
        character ∉ [';', ':', '"']) ∧
      ((∀ character ∈ keyword.text, character.isAlpha = true) ∨
        ∃ character ∈ keyword.text, character.isAlphanum = false) := by
  have checked : keyword.text ≠ [] ∧
      (keyword.text.all fun character => !Text.isBlank character &&
        decide (character ∉ [';', ':', '"'])) = true ∧
      (keyword.text.all Char.isAlpha = true ∨
        (keyword.text.any fun character => !character.isAlphanum) = true) := by
    cases keyword <;> decide
  simpa only [List.all_eq_true, List.any_eq_true, Bool.and_eq_true, Bool.not_eq_true',
    decide_eq_true_eq] using checked

end Keyword

namespace Line

/-! ## Written lines -/

/-- The marks that divide a line; behind a label a colon is none of them. -/
def marks (label : Option Text) : List Char :=
  if label.isSome then [',', ';'] else [',', ';', ':']

/-- What may stand between the commas of an operand list. -/
structure IsOperand (marks : List Char) (operand : Text) : Prop where
  trimmed : Text.IsTrimmed operand
  balanced : Even (operand.count Quoted.quote)
  sheltered : ∀ mark ∈ marks, Quoted.Sheltered mark operand

/-- The parts of a line can be told apart in writing; an operand may be missing. -/
structure IsWritable (line : Line) : Prop where
  identifier : ∀ name ∈ line.label, isIdentifier name = true
  unreserved : ∀ name ∈ line.label, ∀ keyword : Keyword, Text.upper name ≠ keyword.text
  named : ∀ statement ∈ line.statement, statement.mnemonic ≠ []
  alphanumeric : ∀ statement ∈ line.statement, ∀ character ∈ statement.mnemonic,
    character.isAlphanum = true
  operands : ∀ statement ∈ line.statement, ∀ operand ∈ statement.operands,
    IsOperand (marks line.label) operand

instance (marks : List Char) (operand : Text) : Decidable (IsOperand marks operand) :=
  decidable_of_iff (Text.IsTrimmed operand ∧ Quoted.isClosed operand = true ∧
      (marks.all fun mark => decide (Quoted.Sheltered mark operand)) = true) <| by
    simp only [Quoted.isClosed_iff, List.all_eq_true, decide_eq_true_eq]
    exact ⟨fun ⟨trimmed, balanced, sheltered⟩ => ⟨trimmed, balanced, sheltered⟩,
      fun ⟨trimmed, balanced, sheltered⟩ => ⟨trimmed, balanced, sheltered⟩⟩

instance (line : Line) : Decidable line.IsWritable :=
  decidable_of_iff
    ((line.label.all fun name => isIdentifier name && decide (Keyword.ofText? name = none)) = true ∧
      (line.statement.all fun statement => decide (statement.mnemonic ≠ []) &&
        statement.mnemonic.all Char.isAlphanum &&
        statement.operands.all fun operand => decide (IsOperand (marks line.label) operand)) =
          true) <| by
    simp only [Option.all_eq_true, List.all_eq_true, Bool.and_eq_true, decide_eq_true_eq,
      Keyword.ofText?_eq_none_iff]
    constructor
    · rintro ⟨labelled, stated⟩
      exact ⟨fun name isName => (labelled name isName).1,
        fun name isName => (labelled name isName).2,
        fun statement present => (stated statement present).1.1,
        fun statement present => (stated statement present).1.2,
        fun statement present => (stated statement present).2⟩
    · rintro ⟨identifier, unreserved, named, alphanumeric, operands⟩
      exact ⟨fun name isName => ⟨identifier name isName, unreserved name isName⟩,
        fun statement present => ⟨⟨named statement present, alphanumeric statement present⟩,
          operands statement present⟩⟩

/-- A label is written with a colon. -/
inductive WritesLabel : Option Text → Text → Prop
  | absent : WritesLabel none []
  | marked {name text : Text} (padded : Text.IsPadded name text) :
      WritesLabel (some name) (text ++ [':'])

/-- Operands are written behind white space and with commas between them. -/
inductive WritesOperands : List Text → Text → Prop
  | absent {text : Text} (blank : Text.Blank text) : WritesOperands [] text
  | listed {operands fields : List Text} {gap : Text} (nonempty : operands ≠ [])
      (blank : Text.Blank gap) (apart : gap ≠ [])
      (padded : List.Forall₂ Text.IsPadded operands fields) :
      WritesOperands operands (gap ++ Text.join [','] fields)

/-- A statement is written as its mnemonic and its operands. -/
inductive WritesStatement : Option Statement → Text → Prop
  | absent {text : Text} (blank : Text.Blank text) : WritesStatement none text
  | present (mnemonic : Text) {left tail : Text} {operands : List Text}
      (blank : Text.Blank left) (writes : WritesOperands operands tail) :
      WritesStatement (some ⟨mnemonic, operands⟩) (left ++ mnemonic ++ tail)

/-- A comment is anything behind a semicolon. -/
inductive IsComment : Text → Prop
  | absent : IsComment []
  | marked (text : Text) : IsComment (';' :: text)

/-- A line is written as its label, its statement and a comment. -/
inductive Writes (line : Line) : Text → Prop
  | parts {label statement comment : Text} (labelled : WritesLabel line.label label)
      (stated : WritesStatement line.statement statement) (commented : IsComment comment) :
      Writes line (label ++ statement ++ comment)

/-- A line with its mnemonic in upper case. -/
def upper (line : Line) : Line :=
  ⟨line.label, line.statement.map fun statement =>
    ⟨Text.upper statement.mnemonic, statement.operands⟩⟩

/-! ## Reading operands -/

theorem mem_marks (label : Option Text) {mark : Char} (divides : mark ∈ [',', ';']) :
    mark ∈ marks label := by
  unfold marks
  split
  · exact divides
  · exact List.mem_append_left [':'] divides

theorem IsOperand.encloses {marks : List Char} {operand : Text}
    (isOperand : IsOperand marks operand) {mark : Char} (member : mark ∈ marks) :
    Quoted.Encloses mark operand :=
  ⟨Quoted.foldl_after_of_even isOperand.balanced,
    Quoted.sheltered_iff.mp (isOperand.sheltered mark member)⟩

theorem encloses_fields {mark : Char} (solid : Text.isBlank mark = false)
    {operands fields : List Text} (padded : List.Forall₂ Text.IsPadded operands fields)
    (all : ∀ operand ∈ operands, Quoted.Encloses mark operand) :
    ∀ field ∈ fields, Quoted.Encloses mark field := by
  induction padded with
  | nil => simp
  | cons first rest ih =>
      rw [List.forall_mem_cons] at all ⊢
      exact ⟨(Quoted.encloses_iff_of_isPadded solid first).mpr all.1, ih all.2⟩

theorem map_trim_fields {operands fields : List Text}
    (padded : List.Forall₂ Text.IsPadded operands fields)
    (trimmed : ∀ operand ∈ operands, Text.IsTrimmed operand) :
    fields.map Text.trim = operands := by
  induction padded with
  | nil => rfl
  | cons first rest ih =>
      rw [List.forall_mem_cons] at trimmed
      rw [List.map_cons, first.trim_eq, trimmed.1.trim, ih trimmed.2]

/-- An operand list is divided at the commas between operands, unless one is missing. -/
theorem splitOperands_of_writes {operands : List Text} {text : Text}
    (writes : WritesOperands operands text)
    (trimmed : ∀ operand ∈ operands, Text.IsTrimmed operand)
    (encloses : ∀ operand ∈ operands, Quoted.Encloses ',' operand)
    (several : [] ∈ operands → 2 ≤ operands.length) :
    splitOperands (Text.trim text) =
      if [] ∈ operands then .error .emptyOperand else .ok operands := by
  cases writes with
  | absent blank =>
      rw [(Text.IsPadded.of_blank blank).trim_eq]
      rfl
  | listed nonempty blank apart padded =>
      rename_i fields gap
      have divided : (Quoted.split ',' (Text.trim (gap ++ Text.join [','] fields))).map
          Text.trim = operands := by
        have fieldsNonempty : fields ≠ [] := by
          rintro rfl
          cases padded
          exact nonempty rfl
        have gapped : Text.IsPadded (Text.join [','] fields) (gap ++ Text.join [','] fields) :=
          ⟨gap, [], blank, Text.Blank.nil, by simp⟩
        rw [← Quoted.map_trim_split rfl (Text.isPadded_trim _), Quoted.map_trim_split rfl gapped,
          Quoted.split_join fieldsNonempty (encloses_fields rfl padded encloses),
          map_trim_fields padded trimmed]
      generalize Text.trim (gap ++ Text.join [','] fields) = list at divided ⊢
      have present : list ≠ [] := by
        rintro rfl
        subst divided
        exact absurd (several (by decide)) (by decide)
      rw [splitOperands, if_neg present]
      simp only [divided, List.any_eq_true, List.isEmpty_iff, exists_eq_right]

theorem isBlank_head_of_writes {operands : List Text} {text : Text}
    (writes : WritesOperands operands text) :
    ∀ character ∈ text.head?, Text.isBlank character = true := by
  intro character isFirst
  cases writes with
  | absent blank => exact blank character (List.mem_of_mem_head? isFirst)
  | listed nonempty blank apart padded =>
      obtain ⟨first, rest, rfl⟩ := List.exists_cons_of_ne_nil apart
      obtain rfl : first = character := by simpa using isFirst
      exact blank first (by simp)

/-! ## Reading statements -/

/-- The mnemonic is what comes before the first white space. -/
theorem readStatement_append {mnemonic : Text} (nonempty : mnemonic ≠ [])
    (solid : ∀ character ∈ mnemonic, Text.isBlank character = false) {tail : Text}
    (apart : ∀ character ∈ tail.head?, Text.isBlank character = true) :
    readStatement (mnemonic ++ tail) =
      if mnemonic.all Char.isAlphanum then
        (splitOperands (Text.trim tail)).map fun operands => some ⟨Text.upper mnemonic, operands⟩
      else .error (.malformed (mnemonic ++ tail)) := by
  have all : ∀ character ∈ mnemonic, (!Text.isBlank character) = true :=
    fun character member => by rw [solid character member]; rfl
  have stop : tail.takeWhile (fun character => !Text.isBlank character) = [] ∧
      tail.dropWhile (fun character => !Text.isBlank character) = tail := by
    cases tail with
    | nil => exact ⟨rfl, rfl⟩
    | cons first rest =>
        have blank := apart first rfl
        simp [blank]
  unfold readStatement
  rw [if_neg (List.append_ne_nil_of_left_ne_nil nonempty tail),
    List.takeWhile_append_of_pos all, List.dropWhile_append_of_pos all, stop.1, stop.2,
    List.append_nil]

theorem readStatement_malformed {front : Text}
    (solid : ∀ character ∈ front, Text.isBlank character = false)
    (foreign : ∃ character ∈ front, character.isAlphanum = false) (tail : Text) :
    readStatement (front ++ tail) = .error (.malformed (front ++ tail)) := by
  have all : ∀ character ∈ front, (!Text.isBlank character) = true :=
    fun character member => by rw [solid character member]; rfl
  obtain ⟨character, member, notAlphanum⟩ := foreign
  unfold readStatement
  rw [if_neg (List.append_ne_nil_of_left_ne_nil (List.ne_nil_of_mem member) tail),
    List.takeWhile_append_of_pos all]
  refine if_neg fun alphanumeric => ?_
  rw [List.all_append, Bool.and_eq_true, List.all_eq_true] at alphanumeric
  rw [alphanumeric.1 character member] at notAlphanum
  cases notAlphanum

theorem readStatement_blank {text : Text} (writes : WritesStatement none text) :
    readStatement (Text.trim text) = .ok none := by
  cases writes with
  | absent blank =>
      rw [(Text.IsPadded.of_blank blank).trim_eq]
      rfl

theorem readStatement_of_writes {statement : Statement} {text : Text}
    (writes : WritesStatement (some statement) text) (named : statement.mnemonic ≠ [])
    (alphanumeric : ∀ character ∈ statement.mnemonic, character.isAlphanum = true)
    (trimmed : ∀ operand ∈ statement.operands, Text.IsTrimmed operand)
    (encloses : ∀ operand ∈ statement.operands, Quoted.Encloses ',' operand)
    (several : [] ∈ statement.operands → 2 ≤ statement.operands.length) :
    readStatement (Text.trim text) =
      if [] ∈ statement.operands then .error .emptyOperand
      else .ok (some ⟨Text.upper statement.mnemonic, statement.operands⟩) := by
  cases writes with
  | present mnemonic blank writes =>
      rename_i left tail operands
      have solid : ∀ character ∈ mnemonic, Text.isBlank character = false :=
        fun character member => isBlank_of_isAlphanum (alphanumeric character member)
      have apart : ∀ character ∈ (Text.trimEnd tail).head?, Text.isBlank character = true := by
        obtain ⟨right, -, same⟩ := Text.exists_trimEnd tail
        intro character isFirst
        refine isBlank_head_of_writes writes character ?_
        rw [same, List.head?_append, isFirst]
        rfl
      rw [Text.trim_append blank named (.of_forall solid), readStatement_append named solid apart,
        if_pos (List.all_eq_true.mpr alphanumeric), ← (Text.isPadded_trimEnd tail).trim_eq,
        splitOperands_of_writes writes trimmed encloses several]
      split <;> rfl

theorem encloses_statement {mark : Char} (solid : Text.isBlank mark = false)
    (foreign : mark.isAlphanum = false) (notComma : mark ≠ ',') {statement : Option Statement}
    {text : Text} (writes : WritesStatement statement text)
    (alphanumeric : ∀ present ∈ statement, ∀ character ∈ present.mnemonic,
      character.isAlphanum = true)
    (encloses : ∀ present ∈ statement, ∀ operand ∈ present.operands,
      Quoted.Encloses mark operand) :
    Quoted.Encloses mark text := by
  cases writes with
  | absent blank => exact .of_blank solid blank
  | present mnemonic blank writes =>
      rename_i left tail operands
      have notIn {other : Char} (notAlphanum : other.isAlphanum = false) : other ∉ mnemonic := by
        intro member
        rw [alphanumeric _ rfl other member] at notAlphanum
        cases notAlphanum
      have named : Quoted.Encloses mark mnemonic :=
        .of_not_mem (notIn foreign) (notIn (by decide))
      refine ((Quoted.Encloses.of_blank solid blank).append named).append ?_
      cases writes with
      | absent blank => exact .of_blank solid blank
      | listed nonempty blank apart padded =>
          have comma : Quoted.Encloses mark [','] :=
            .of_not_mem (by simpa using notComma) (by decide)
          exact (Quoted.Encloses.of_blank solid blank).append
            (comma.join (encloses_fields solid padded (encloses _ rfl)))

/-! ## Reading labels -/

/-- A name has something in it, but no white space and nothing that divides a line. -/
structure IsName (name : Text) : Prop where
  nonempty : name ≠ []
  solid : ∀ character ∈ name, Text.isBlank character = false
  free : ∀ character ∈ name, character ∉ [';', ':', '"']

theorem IsName.of_identifier {name : Text} (identifier : isIdentifier name = true) :
    IsName name := by
  refine ⟨ne_nil_of_isIdentifier identifier,
    fun _ member => isBlank_of_mem_identifier identifier member, ?_⟩
  intro character member divides
  have every : ([';', ':', '"'].all fun mark => !(isIdentifierStart mark || mark.isDigit)) =
      true := rfl
  have neither := List.all_eq_true.mp every character divides
  simp only [Bool.not_eq_true', Bool.or_eq_false_iff] at neither
  rcases of_mem_identifier identifier member with starts | isDigit
  · exact Bool.false_ne_true (neither.1.symm.trans starts)
  · exact Bool.false_ne_true (neither.2.symm.trans isDigit)

theorem toUpper_mem {name : Text} {keyword : Keyword} (reserved : Text.upper name = keyword.text)
    {character : Char} (member : character ∈ name) : character.toUpper ∈ keyword.text := by
  rw [← reserved]
  exact List.mem_map_of_mem member

theorem IsName.of_keyword {name : Text} {keyword : Keyword}
    (reserved : Text.upper name = keyword.text) : IsName name := by
  obtain ⟨nonempty, solid, -⟩ := keyword.text_facts
  constructor
  · rintro rfl
    exact nonempty reserved.symm
  · intro character member
    rw [← (toUpper_facts character).1]
    exact (solid _ (toUpper_mem reserved member)).1
  · intro character member divides
    have every : ([';', ':', '"'].all fun mark => mark.toUpper == mark) = true := rfl
    have unchanged := (solid _ (toUpper_mem reserved member)).2
    rw [beq_iff_eq.mp (List.all_eq_true.mp every character divides)] at unchanged
    exact unchanged divides

/-- A keyword is an identifier or has a character that no mnemonic has. -/
theorem isIdentifier_or_foreign {name : Text} {keyword : Keyword}
    (reserved : Text.upper name = keyword.text) :
    isIdentifier name = true ∨ ∃ character ∈ name, character.isAlphanum = false := by
  rcases keyword.text_facts.2.2 with letters | ⟨character, member, foreign⟩
  · left
    have starts : ∀ character ∈ name, isIdentifierStart character = true := by
      intro character member
      have alphabetic := letters _ (toUpper_mem reserved member)
      rw [(toUpper_facts character).2.1] at alphabetic
      rw [isIdentifierStart, alphabetic]
      rfl
    obtain ⟨first, rest, rfl⟩ :=
      List.exists_cons_of_ne_nil (IsName.of_keyword reserved).nonempty
    rw [List.forall_mem_cons] at starts
    rw [isIdentifier, starts.1, Bool.true_and, List.all_eq_true]
    intro character member
    rw [starts.2 character member, Bool.true_or]
  · right
    rw [← reserved] at member
    obtain ⟨lower, lowerMem, rfl⟩ := List.mem_map.mp member
    rw [(toUpper_facts lower).2.2] at foreign
    exact ⟨lower, lowerMem, foreign⟩

variable {name left right : Text}

theorem IsName.encloses (isName : IsName name) {mark : Char} (divides : mark ∈ [';', ':']) :
    Quoted.Encloses mark name := by
  have all : mark ∈ [';', ':', '"'] := List.mem_append_left ['"'] divides
  exact .of_not_mem (fun member => isName.free mark member all)
    (fun member => isName.free _ member (by decide))

theorem encloses_label (isName : IsName name) {text : Text} (padded : Text.IsPadded name text) :
    Quoted.Encloses ';' (text ++ [':']) :=
  ((Quoted.encloses_iff_of_isPadded rfl padded).mpr (isName.encloses (by decide))).append
    (.of_not_mem (by decide) (by decide))

theorem trim_label (isName : IsName name) (blankLeft : Text.Blank left) (rest : Text) :
    Text.trim (left ++ name ++ right ++ [':'] ++ rest) =
      name ++ right ++ ':' :: Text.trimEnd rest := by
  have trimmed : Text.IsTrimmed (name ++ right ++ [':']) := by
    constructor
    · obtain ⟨first, others, same⟩ := List.exists_cons_of_ne_nil isName.nonempty
      have solid := isName.solid first (by simp [same])
      simpa [same] using solid
    · rw [List.getLast?_append]
      simp
      decide
  have grouped : left ++ name ++ right ++ [':'] ++ rest =
      left ++ (name ++ right ++ [':']) ++ rest := by
    simp
  rw [grouped, Text.trim_append blankLeft (by simp) trimmed, List.append_assoc _ [':']]
  rfl

/-- A name with a colon is a label if it is an identifier and no keyword. -/
theorem splitLabel_append (isName : IsName name) (blankLeft : Text.Blank left)
    (blankRight : Text.Blank right) (rest : Text) :
    splitLabel (Text.trim (left ++ name ++ right ++ [':'] ++ rest)) =
      if isIdentifier name then
        if (Keyword.ofText? name).isSome then .error (.reservedLabel name)
        else .ok (some name, Text.trim rest)
      else .ok (none, name ++ right ++ ':' :: Text.trimEnd rest) := by
  have padded : Text.IsPadded name (name ++ right) :=
    ⟨[], right, Text.Blank.nil, blankRight, rfl⟩
  have encloses : Quoted.Encloses ':' (name ++ right) :=
    (Quoted.encloses_iff_of_isPadded rfl padded).mpr (isName.encloses (by decide))
  rw [trim_label isName blankLeft, splitLabel, Quoted.cut?_append encloses,
    Quoted.cut?_separator]
  simp only [Option.map_some, List.append_nil, padded.trim_eq,
    (Text.IsTrimmed.of_forall isName.solid).trim, ← (Text.isPadded_trimEnd rest).trim_eq]

theorem splitLabel_absent {text : Text} (encloses : Quoted.Encloses ':' text) :
    splitLabel (Text.trim text) = .ok (none, Text.trim text) := by
  have trimmed := (Quoted.encloses_iff_of_isPadded rfl (Text.isPadded_trim text)).mp encloses
  rw [splitLabel, Quoted.cut?_eq_none (Quoted.sheltered_iff.mpr trimmed.sheltered)]

/-! ## Reading lines -/

/-- How a line is read that has a code before its comment. -/
theorem read_of_before {text code : Text} (isCode : Quoted.before ';' text = code) :
    read text =
      if Quoted.isClosed code then
        (splitLabel (Text.trim code)).bind fun parts =>
          (readStatement parts.2).map fun statement => ⟨parts.1, statement⟩
      else .error .unterminatedString := by
  subst isCode
  simp only [read]
  split
  · cases splitLabel (Text.trim (Quoted.before ';' text)) with
    | error flaw => rfl
    | ok parts => cases result : readStatement parts.2 <;> simp [bind, Except.bind, result] <;> rfl
  · rfl

theorem before_comment {code comment : Text} (encloses : Quoted.Encloses ';' code)
    (isComment : IsComment comment) : Quoted.before ';' (code ++ comment) = code := by
  rw [Quoted.before_append encloses]
  cases isComment with
  | absent => exact List.append_nil code
  | marked text =>
      rw [Quoted.before, Quoted.cut?_separator]
      exact List.append_nil code

/-- The label of a written line is found, and its statement is left over. -/
theorem splitLabel_of_writes {label : Option Text} {labelText statement : Text}
    (writes : WritesLabel label labelText)
    (identifier : ∀ name ∈ label, isIdentifier name = true)
    (unreserved : ∀ name ∈ label, ∀ keyword : Keyword, Text.upper name ≠ keyword.text)
    (unlabelled : label = none → Quoted.Encloses ':' statement) :
    Quoted.Encloses ';' labelText ∧
      splitLabel (Text.trim (labelText ++ statement)) = .ok (label, Text.trim statement) := by
  cases writes with
  | absent => exact ⟨.of_not_mem (by simp) (by simp), splitLabel_absent (unlabelled rfl)⟩
  | marked padded =>
      rename_i name text
      have isName := IsName.of_identifier (identifier name rfl)
      refine ⟨encloses_label isName padded, ?_⟩
      obtain ⟨left, right, blankLeft, blankRight, rfl⟩ := padded
      rw [splitLabel_append isName blankLeft blankRight, if_pos (identifier name rfl),
        Keyword.ofText?_eq_none_iff.mpr (unreserved name rfl)]
      rfl

/-- A written line is read by reading its statement. -/
theorem read_eq_of_writes {line : Line} (writable : line.IsWritable) {text : Text}
    (writes : line.Writes text) :
    ∃ statement, WritesStatement line.statement statement ∧
      read text = (readStatement (Text.trim statement)).map fun read => ⟨line.label, read⟩ := by
  cases writes with
  | parts labelled stated commented =>
      rename_i label statement comment
      have encloses {mark : Char} (divides : mark ∈ marks line.label)
          (solid : Text.isBlank mark = false) (foreign : mark.isAlphanum = false)
          (notComma : mark ≠ ',') : Quoted.Encloses mark statement :=
        encloses_statement solid foreign notComma stated writable.alphanumeric
          fun present isPresent operand member =>
            (writable.operands present isPresent operand member).encloses divides
      have enclosesStatement : Quoted.Encloses ';' statement :=
        encloses (mem_marks line.label (by decide)) rfl rfl (by decide)
      obtain ⟨enclosesLabel, split⟩ := splitLabel_of_writes labelled writable.identifier
        writable.unreserved fun absent => encloses (by rw [absent]; decide) rfl rfl (by decide)
      have enclosesCode := enclosesLabel.append enclosesStatement
      refine ⟨statement, stated, ?_⟩
      rw [read_of_before (before_comment enclosesCode commented), if_pos enclosesCode.isClosed,
        split]
      rfl

/-- A written line is read back unless an operand is missing. -/
theorem read_of_writes {line : Line} (writable : line.IsWritable) {text : Text}
    (writes : line.Writes text)
    (several : ∀ statement ∈ line.statement,
      [] ∈ statement.operands → 2 ≤ statement.operands.length) :
    read text =
      if ∃ statement ∈ line.statement, [] ∈ statement.operands then .error .emptyOperand
      else .ok line.upper := by
  obtain ⟨statementText, stated, readEq⟩ := read_eq_of_writes writable writes
  obtain ⟨label, statement⟩ := line
  rw [readEq]
  cases statement with
  | none =>
      rw [readStatement_blank stated]
      simp [Except.map, upper]
  | some statement =>
      have comma : ',' ∈ marks label := mem_marks label (by decide)
      have operands := writable.operands statement rfl
      rw [readStatement_of_writes stated (writable.named statement rfl)
        (writable.alphanumeric statement rfl)
        (fun operand member => (operands operand member).trimmed)
        (fun operand member => (operands operand member).encloses comma) (several statement rfl)]
      by_cases missing : [] ∈ statement.operands
      · simp [missing, Except.map]
      · simp [missing, Except.map, upper]

/-- A keyword with a colon begins no line. -/
theorem read_reserved {name : Text} {keyword : Keyword}
    (reserved : Text.upper name = keyword.text) {left right : Text}
    (blankLeft : Text.Blank left) (blankRight : Text.Blank right) (rest : Text) :
    ∃ flaw, read (left ++ name ++ right ++ [':'] ++ rest) = .error flaw := by
  have isName := IsName.of_keyword reserved
  have padded : Text.IsPadded name (left ++ name ++ right) :=
    ⟨left, right, blankLeft, blankRight, rfl⟩
  rw [read_of_before (Quoted.before_append (encloses_label isName padded) rest)]
  split
  · rw [splitLabel_append isName blankLeft blankRight]
    by_cases identifier : isIdentifier name = true
    · have known : (Keyword.ofText? name).isSome = true := by
        rw [Option.isSome_iff_ne_none, ne_eq, Keyword.ofText?_eq_none_iff]
        exact fun other => other keyword reserved
      rw [if_pos identifier, if_pos known]
      exact ⟨_, rfl⟩
    · have foreign := (isIdentifier_or_foreign reserved).resolve_left identifier
      rw [if_neg identifier, List.append_assoc]
      simp only [Except.bind, readStatement_malformed isName.solid foreign]
      exact ⟨_, rfl⟩
  · exact ⟨_, rfl⟩

theorem read_unterminated {text code : Text} (isCode : Quoted.IsBefore ';' text code)
    (unbalanced : Odd (code.count Quoted.quote)) : read text = .error .unterminatedString := by
  rw [read_of_before (Quoted.isBefore_iff.mp isCode).symm]
  refine if_neg fun closed => ?_
  exact Nat.not_even_iff_odd.mpr unbalanced (Quoted.isClosed_iff.mp closed)

/-- Reading inverts writing.  It fails if the label is a keyword, if one of several operands is
missing, and if there is an odd number of quotes before the comment. -/
theorem reading_inverts_writing :
    (∀ (line : Line) (text : Text), line.IsWritable →
      (∀ statement ∈ line.statement, [] ∉ statement.operands) → line.Writes text →
      read text = .ok line.upper) ∧
    (∀ (keyword : Keyword) (name left right rest : Text), Text.upper name = keyword.text →
      Text.Blank left → Text.Blank right →
      ∃ flaw, read (left ++ name ++ right ++ [':'] ++ rest) = .error flaw) ∧
    (∀ (line : Line) (statement : Statement) (text : Text), line.IsWritable →
      line.statement = some statement → [] ∈ statement.operands →
      2 ≤ statement.operands.length → line.Writes text →
      read text = .error .emptyOperand) ∧
    ∀ text, ∃ code, (∀ other, Quoted.IsBefore ';' text other ↔ other = code) ∧
      (Odd (code.count Quoted.quote) → read text = .error .unterminatedString) := by
  refine ⟨?_, ?_, ?_, ?_⟩
  · intro line text writable complete writes
    rw [read_of_writes writable writes fun statement isStatement missing =>
      absurd missing (complete statement isStatement)]
    exact if_neg fun ⟨statement, isStatement, missing⟩ => complete statement isStatement missing
  · intro keyword name left right rest reserved blankLeft blankRight
    exact read_reserved reserved blankLeft blankRight rest
  · intro line statement text writable isStatement missing several writes
    rw [read_of_writes writable writes]
    · exact if_pos ⟨statement, isStatement, missing⟩
    · intro other isOther _
      obtain rfl := Option.some.inj (isStatement.symm.trans isOther)
      exact several
  · exact fun text => ⟨Quoted.before ';' text, fun _ => Quoted.isBefore_iff,
      read_unterminated (Quoted.isBefore_iff.mpr rfl)⟩

theorem reading_inverts_writing_marks :
    read "loop :\tdb \"a,b;c:\" , (ix + 5) ; an \"odd comment".toList =
      .ok ⟨some "loop".toList, some ⟨"DB".toList, ["\"a,b;c:\"".toList, "(ix + 5)".toList]⟩⟩ ∧
    (∃ flaw, read " hL : nop".toList = .error flaw) ∧
    read "ld a, ".toList = .error .emptyOperand ∧
    read "db \"a;b".toList = .error .unterminatedString := by
  obtain ⟨inverts, reserved, missing, unterminated⟩ := reading_inverts_writing
  refine ⟨?_, ?_, ?_, ?_⟩
  · have labelled : WritesLabel (some "loop".toList) ("loop ".toList ++ [':']) :=
      .marked ⟨[], [' '], by decide, by decide, rfl⟩
    have listed : WritesOperands ["\"a,b;c:\"".toList, "(ix + 5)".toList]
        ([' '] ++ Text.join [','] ["\"a,b;c:\" ".toList, " (ix + 5) ".toList]) :=
      .listed (by decide) (by decide) (by decide)
        (.cons ⟨[], [' '], by decide, by decide, rfl⟩
          (.cons ⟨[' '], [' '], by decide, by decide, rfl⟩ .nil))
    have stated := WritesStatement.present "db".toList (show Text.Blank ['\t'] by decide) listed
    exact inverts ⟨_, some _⟩ _ (by decide) (by decide)
      (.parts labelled stated (.marked " an \"odd comment".toList))
  · exact reserved .hl "hL".toList [' '] [' '] " nop".toList rfl (by decide) (by decide)
  · have listed : WritesOperands [['a'], []] ([' '] ++ Text.join [','] [['a'], [' ']]) :=
      .listed (by decide) (by decide) (by decide)
        (.cons ⟨[], [], by decide, by decide, rfl⟩
          (.cons ⟨[' '], [], by decide, by decide, rfl⟩ .nil))
    have stated := WritesStatement.present "ld".toList Text.Blank.nil listed
    have writes : Writes ⟨none, some ⟨"ld".toList, [['a'], []]⟩⟩ _ := .parts .absent stated .absent
    exact missing _ _ _ (by decide) rfl (by decide) (by decide) writes
  · obtain ⟨code, isCode, fails⟩ := unterminated "db \"a;b".toList
    obtain rfl := (isCode "db \"a;b".toList).mp ⟨by decide, Or.inl rfl⟩
    exact fails (by decide)

end Line

end Z80
