import Z80.Proofs.LineSyntax

/-!
# Written lines

A statement without strings is read back from its written form, and lines joined
by line feeds are the lines of the joined text.
-/

namespace Z80

namespace Text

/-- Whether a character is neither white space nor a mark that divides a line. -/
def isSolid (character : Char) : Bool :=
  !(isBlank character || ['"', ';', ':', ','].contains character)

theorem isBlank_of_isSolid {character : Char} (solid : isSolid character = true) :
    isBlank character = false := by
  simp only [isSolid, Bool.not_eq_true', Bool.or_eq_false_iff] at solid
  exact solid.1

theorem ne_of_isSolid {character mark : Char} (solid : isSolid character = true)
    (divides : isSolid mark = false) : character ≠ mark := by
  rintro rfl
  rw [solid] at divides
  simp at divides

/-- A text is not empty and goes through the division of a line unchanged. -/
structure Solid (text : Text) : Prop where
  nonempty : text ≠ []
  all : ∀ character ∈ text, isSolid character = true

theorem Solid.of_all {text : Text} (nonempty : text ≠ [])
    (all : text.all isSolid = true) : Solid text :=
  ⟨nonempty, List.all_eq_true.mp all⟩

theorem mem_join {separator : Text} {texts : List Text} {character : Char}
    (member : character ∈ join separator texts) :
    character ∈ separator ∨ ∃ text ∈ texts, character ∈ text := by
  induction texts with
  | nil => simp [join] at member
  | cons first rest ih =>
      cases rest with
      | nil => exact Or.inr ⟨first, by simp, member⟩
      | cons second others =>
          simp only [join, List.mem_append] at member
          rcases member with (inFirst | inSeparator) | inRest
          · exact Or.inr ⟨first, by simp, inFirst⟩
          · exact Or.inl inSeparator
          · rcases ih inRest with inSeparator | ⟨text, textMember, inText⟩
            · exact Or.inl inSeparator
            · exact Or.inr ⟨text, List.mem_cons_of_mem _ textMember, inText⟩

end Text

namespace Line

theorem split_of_free {text : Text} (nonempty : text ≠ [])
    (free : ∀ character ∈ text, character ≠ '\n' ∧ character ≠ '\r') :
    split text = [text] := by
  induction text with
  | nil => exact absurd rfl nonempty
  | cons first rest ih =>
      obtain ⟨notFeed, notReturn⟩ := free first (by simp)
      have others : ∀ character ∈ rest, character ≠ '\n' ∧ character ≠ '\r' :=
        fun character member => free character (by simp [member])
      rw [split]
      · cases rest with
        | nil => rfl
        | cons second more => rw [ih (by simp) others]
      · exact notFeed
      · rintro _ isReturn
        exact absurd isReturn notReturn

theorem split_append {text : Text} (rest : Text)
    (free : ∀ character ∈ text, character ≠ '\n' ∧ character ≠ '\r') :
    split (text ++ '\n' :: rest) = text :: split rest := by
  induction text with
  | nil => simp [split]
  | cons first more ih =>
      obtain ⟨notFeed, notReturn⟩ := free first (by simp)
      have moreEq := ih (fun character member => free character (by simp [member]))
      rw [List.cons_append, split]
      · rw [moreEq]
      · exact notFeed
      · rintro _ isReturn
        exact absurd isReturn notReturn

/-- The lines of a text that is put together from lines. -/
theorem split_join {texts : List Text} (solid : ∀ text ∈ texts, text ≠ [])
    (free : ∀ text ∈ texts, ∀ character ∈ text, character ≠ '\n' ∧ character ≠ '\r') :
    split (Text.join ['\n'] texts) = texts := by
  induction texts with
  | nil => rfl
  | cons first rest ih =>
      have firstFree := free first (by simp)
      cases rest with
      | nil => exact split_of_free (solid first (by simp)) firstFree
      | cons second others =>
          have restEq := ih (fun text member => solid text (List.mem_cons_of_mem _ member))
            (fun text member => free text (List.mem_cons_of_mem _ member))
          rw [Text.join, List.append_assoc, List.singleton_append,
            split_append _ firstFree, restEq]

end Line

namespace Statement

/-- The operands of a statement as they are written behind the mnemonic. -/
def tail (statement : Statement) : Text :=
  if statement.operands = [] then [] else ' ' :: Text.join [','] statement.operands

/-- The written form of a statement. -/
def text (statement : Statement) : Text :=
  statement.mnemonic ++ statement.tail

/-- A statement is written in upper case and without strings. -/
structure Plain (statement : Statement) : Prop where
  mnemonic : Text.Solid statement.mnemonic
  alphanumeric : statement.mnemonic.all Char.isAlphanum = true
  upper : Text.upper statement.mnemonic = statement.mnemonic
  operands : ∀ operand ∈ statement.operands, Text.Solid operand

variable {statement : Statement}

theorem mem_text (plain : statement.Plain) {character : Char}
    (member : character ∈ statement.text) :
    character = ' ' ∨ character = ',' ∨ Text.isSolid character = true := by
  rcases List.mem_append.mp member with inMnemonic | inTail
  · exact Or.inr (Or.inr (plain.mnemonic.all character inMnemonic))
  · unfold tail at inTail
    split at inTail
    · simp at inTail
    · rcases List.mem_cons.mp inTail with isSpace | inOperands
      · exact Or.inl isSpace
      · rcases Text.mem_join inOperands with isComma | ⟨operand, operandMember, inOperand⟩
        · exact Or.inr (Or.inl (by simpa using isComma))
        · exact Or.inr (Or.inr ((plain.operands operand operandMember).all _ inOperand))

theorem not_mem_text (plain : statement.Plain) {mark : Char}
    (divides : Text.isSolid mark = false) (notSpace : mark ≠ ' ') (notComma : mark ≠ ',') :
    mark ∉ statement.text := by
  intro member
  rcases mem_text plain member with isSpace | isComma | solid
  · exact notSpace isSpace
  · exact notComma isComma
  · exact Text.ne_of_isSolid solid divides rfl

theorem text_ne_nil (plain : statement.Plain) : statement.text ≠ [] :=
  List.append_ne_nil_of_left_ne_nil plain.mnemonic.nonempty _

theorem isWritable (plain : statement.Plain) : Line.IsWritable ⟨none, some statement⟩ where
  identifier := by simp
  unreserved := by simp
  named := by
    rintro _ ⟨⟩
    exact plain.mnemonic.nonempty
  alphanumeric := by
    rintro _ ⟨⟩
    exact List.all_eq_true.mp plain.alphanumeric
  operands := by
    rintro _ ⟨⟩ operand member
    have solid := (plain.operands operand member).all
    have absent {mark : Char} (divides : Text.isSolid mark = false) : mark ∉ operand :=
      fun inOperand => Text.ne_of_isSolid (solid mark inOperand) divides rfl
    have every : ((Line.marks none).all fun mark => !Text.isSolid mark) = true := rfl
    refine ⟨.of_forall fun character inOperand => Text.isBlank_of_isSolid (solid _ inOperand),
      ?_, fun mark isMark => ?_⟩
    · rw [List.count_eq_zero_of_not_mem (absent rfl)]
      exact Even.zero
    · have divides := List.all_eq_true.mp every mark isMark
      rw [Bool.not_eq_true'] at divides
      exact Quoted.sheltered_iff.mpr (Quoted.shelteredFrom_of_not_mem (absent divides))

theorem writes_tail (statement : Statement) :
    Line.WritesOperands statement.operands statement.tail := by
  unfold tail
  split
  · rename_i empty
    rw [empty]
    exact .absent Text.Blank.nil
  · rename_i nonempty
    have gap : Text.Blank [' '] := by decide
    exact .listed nonempty gap (List.cons_ne_nil _ _)
      (List.forall₂_same.mpr fun operand _ =>
        ⟨[], [], Text.Blank.nil, Text.Blank.nil, by simp⟩)

theorem writes_text (statement : Statement) :
    Line.Writes ⟨none, some statement⟩ statement.text := by
  have written : Line.Writes ⟨none, some statement⟩
      ([] ++ ([] ++ statement.mnemonic ++ statement.tail) ++ []) :=
    .parts .absent (.present statement.mnemonic Text.Blank.nil statement.writes_tail) .absent
  simpa [text] using written

end Statement

/-- A statement is read back from its written form. -/
theorem Line.read_text {statement : Statement} (plain : statement.Plain) :
    Line.read statement.text = .ok ⟨none, some statement⟩ := by
  have present : [] ∉ statement.operands := fun missing =>
    (plain.operands [] missing).nonempty rfl
  rw [read_of_writes (Statement.isWritable plain) statement.writes_text]
  · simp [present, upper, plain.upper]
  · rintro _ ⟨⟩ missing
    exact absurd missing present

end Z80
