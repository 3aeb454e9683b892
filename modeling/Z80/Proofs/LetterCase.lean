import Z80.Assembler.Argument
import Z80.Proofs.LineSyntax
import Z80.Proofs.StatementLength

/-!
# Letter case in sources

A recasing turns some letters of a text into the other case.  It changes neither white space
nor the marks that divide a source, so a recased source is divided in the same way, and its
parts are the recased ones.  Mnemonics, keywords and numbers are read in one case anyway;
only the names of labels keep theirs.
-/

namespace Z80

/-! ## Characters -/

/-- The case of letters is all that a change of characters may change. -/
def IsRecasing (fold : Char → Char) : Prop :=
  ∀ character, (fold character).toUpper = character.toUpper

theorem toLower_eq_or (character : Char) :
    character.toLower = character ∨ character.toNat < 128 := by
  unfold Char.toLower
  split
  · rename_i upper
    have bound := UInt32.le_iff_toNat_le.mp upper.2
    right
    change character.val.toNat < 128
    change character.val.toNat ≤ 90 at bound
    omega
  · exact Or.inl rfl

/-- Each case is found from the other. -/
theorem toUpper_toLower (character : Char) :
    character.toLower.toUpper = character.toUpper ∧
      character.toUpper.toLower = character.toLower ∧
      character.toUpper.toUpper = character.toUpper := by
  rcases toUpper_eq_or character with upper | small
  · rcases toLower_eq_or character with lower | small
    · simp only [upper, lower, and_self]
    · apply of_codes character small
      decide
  · apply of_codes character small
    decide

theorem isDigit_toUpper (character : Char) : character.toUpper.isDigit = character.isDigit := by
  rcases toUpper_eq_or character with same | small
  · rw [same]
  · apply of_codes character small
    decide

theorem toUpper_of_not_isAlpha {character : Char} (unlettered : character.isAlpha = false) :
    character.toUpper = character := by
  rcases toUpper_eq_or character with same | small
  · exact same
  · revert unlettered
    apply of_codes character small
    decide

theorem isRecasing_toUpper : IsRecasing Char.toUpper :=
  fun character => (toUpper_toLower character).2.2

theorem isRecasing_toLower : IsRecasing Char.toLower :=
  fun character => (toUpper_toLower character).1

/-- Only a mark that is no letter is written like that mark. -/
theorem toUpper_eq_iff {mark : Char} (unlettered : mark.isAlpha = false) (character : Char) :
    character.toUpper = mark ↔ character = mark := by
  constructor
  · rintro rfl
    rw [(toUpper_facts character).2.1] at unlettered
    exact (toUpper_of_not_isAlpha unlettered).symm
  · rintro rfl
    exact toUpper_of_not_isAlpha unlettered

namespace IsRecasing

variable {fold : Char → Char}

theorem toLower (recasing : IsRecasing fold) (character : Char) :
    (fold character).toLower = character.toLower := by
  rw [← (toUpper_toLower (fold character)).2.1, recasing, (toUpper_toLower character).2.1]

theorem isBlank (recasing : IsRecasing fold) (character : Char) :
    Text.isBlank (fold character) = Text.isBlank character := by
  rw [← (toUpper_facts (fold character)).1, recasing, (toUpper_facts character).1]

theorem isAlpha (recasing : IsRecasing fold) (character : Char) :
    (fold character).isAlpha = character.isAlpha := by
  rw [← (toUpper_facts (fold character)).2.1, recasing, (toUpper_facts character).2.1]

theorem isAlphanum (recasing : IsRecasing fold) (character : Char) :
    (fold character).isAlphanum = character.isAlphanum := by
  rw [← (toUpper_facts (fold character)).2.2, recasing, (toUpper_facts character).2.2]

theorem isDigit (recasing : IsRecasing fold) (character : Char) :
    (fold character).isDigit = character.isDigit := by
  rw [← isDigit_toUpper, recasing, isDigit_toUpper]

/-- A mark that is no letter keeps its place, and no other character becomes it. -/
theorem eq_iff (recasing : IsRecasing fold) {mark : Char} (unlettered : mark.isAlpha = false)
    (character : Char) : fold character = mark ↔ character = mark := by
  rw [← toUpper_eq_iff unlettered, recasing, toUpper_eq_iff unlettered]

theorem isSign (recasing : IsRecasing fold) (character : Char) :
    Expression.isSign (fold character) = Expression.isSign character := by
  simp only [Expression.isSign, beq_eq_decide, recasing.eq_iff (show '+'.isAlpha = false from rfl),
    recasing.eq_iff (show '-'.isAlpha = false from rfl)]

theorem isIdentifierStart (recasing : IsRecasing fold) (character : Char) :
    Z80.isIdentifierStart (fold character) = Z80.isIdentifierStart character := by
  simp only [Z80.isIdentifierStart, recasing.isAlpha, beq_eq_decide,
    recasing.eq_iff (show '_'.isAlpha = false from rfl),
    recasing.eq_iff (show '.'.isAlpha = false from rfl)]

theorem isIdentifier (recasing : IsRecasing fold) (name : Text) :
    Z80.isIdentifier (name.map fold) = Z80.isIdentifier name := by
  cases name with
  | nil => rfl
  | cons first rest =>
      simp only [List.map_cons, Z80.isIdentifier, recasing.isIdentifierStart, List.all_map]
      congr 2
      funext character
      simp only [Function.comp_apply, recasing.isIdentifierStart, recasing.isDigit]

end IsRecasing

/-! ## Texts -/

section Texts

variable {fold : Char → Char}

namespace Text

theorem upper_map (recasing : IsRecasing fold) (text : Text) :
    upper (text.map fold) = upper text := by
  rw [upper, List.map_map]
  exact List.map_congr_left fun character _ => recasing character

theorem lower_map (recasing : IsRecasing fold) (text : Text) :
    lower (text.map fold) = lower text := by
  rw [lower, List.map_map]
  exact List.map_congr_left fun character _ => recasing.toLower character

theorem trim_map (recasing : IsRecasing fold) (text : Text) :
    trim (text.map fold) = (trim text).map fold := by
  have blank : isBlank ∘ fold = isBlank := funext recasing.isBlank
  have start (line : Text) : trimStart (line.map fold) = (trimStart line).map fold := by
    rw [trimStart, List.dropWhile_map, blank, trimStart]
  rw [trim, start, trimEnd, ← List.map_reverse, start, ← List.map_reverse, ← trimEnd, ← trim]

theorem compact_map (recasing : IsRecasing fold) (text : Text) :
    compact (text.map fold) = (compact text).map fold := by
  rw [compact, List.filter_map, compact]
  congr 2
  funext character
  rw [Function.comp_apply, recasing.isBlank]

end Text

namespace Quoted

theorem after_fold (recasing : IsRecasing fold) (inside : Bool) (character : Char) :
    after inside (fold character) = after inside character := by
  simp only [after, recasing.eq_iff (show quote.isAlpha = false from rfl)]

theorem cutFrom?_map (recasing : IsRecasing fold) {separator : Char}
    (unlettered : separator.isAlpha = false) (inside : Bool) (text : Text) :
    cutFrom? separator inside (text.map fold) =
      (cutFrom? separator inside text).map (Prod.map (List.map fold) (List.map fold)) := by
  induction text generalizing inside with
  | nil => rfl
  | cons first rest ih =>
      simp only [List.map_cons, cutFrom?, recasing.eq_iff unlettered, after_fold recasing, ih]
      split
      · rfl
      · rw [Option.map_map, Option.map_map]
        rfl

theorem splitFrom_map (recasing : IsRecasing fold) {separator : Char}
    (unlettered : separator.isAlpha = false) (inside : Bool) (text : Text) :
    splitFrom separator inside (text.map fold) =
      (splitFrom separator inside text).map (List.map fold) := by
  induction text generalizing inside with
  | nil => rfl
  | cons first rest ih =>
      simp only [List.map_cons, splitFrom, recasing.eq_iff unlettered, after_fold recasing, ih]
      split
      · rfl
      · cases splitFrom separator (after inside first) rest <;> rfl

theorem before_map (recasing : IsRecasing fold) {mark : Char}
    (unlettered : mark.isAlpha = false) (text : Text) :
    before mark (text.map fold) = (before mark text).map fold := by
  rw [before, cut?, cutFrom?_map recasing unlettered, before, cut?]
  cases cutFrom? mark false text <;> rfl

theorem isClosed_map (recasing : IsRecasing fold) (text : Text) :
    isClosed (text.map fold) = isClosed text := by
  have same : (text.map fold).count quote = text.count quote := by
    rw [List.count_eq_countP, List.countP_map, List.count_eq_countP]
    congr 1
    funext character
    rw [Function.comp_apply, beq_eq_decide, beq_eq_decide]
    simp only [recasing.eq_iff (show quote.isAlpha = false from rfl)]
  rw [isClosed, same, isClosed]

end Quoted

theorem Keyword.ofText?_map (recasing : IsRecasing fold) (text : Text) :
    ofText? (text.map fold) = ofText? text := by
  rw [ofText?, Text.upper_map recasing, ofText?]

end Texts

/-! ## Numbers and operands -/

section Operands

variable {fold : Char → Char}

/-- The marks and the digits of a number are read in lower case. -/
theorem Number.read?_map (recasing : IsRecasing fold) (text : Text) :
    read? (text.map fold) = read? text := by
  rw [read?, Text.trim_map recasing, Text.lower_map recasing, ← read?]

namespace Argument

/-- An operand with its expression recased. -/
def recase (fold : Char → Char) : Argument → Argument
  | .keyword word => .keyword word
  | .value expression => .value (expression.map fold)
  | .cell expression => .cell (expression.map fold)
  | .indexed register displacement => .indexed register (displacement.map fold)

theorem parenthesized?_map (recasing : IsRecasing fold) (text : Text) :
    parenthesized? (text.map fold) = (parenthesized? text).map (List.map fold) := by
  cases text with
  | nil => rfl
  | cons first rest =>
      have unopened (other : Char) (others : Text) (differs : other ≠ '(') :
          parenthesized? (other :: others) = none := by
        unfold parenthesized?
        split
        · rename_i opened
          exact absurd (List.cons.inj opened).1 differs
        · rfl
      rw [List.map_cons]
      by_cases opens : first = '('
      · subst opens
        have closes : (rest.map fold).getLast? = some ')' ↔ rest.getLast? = some ')' := by
          rw [List.getLast?_map, Option.map_eq_some_iff]
          simp only [recasing.eq_iff (show ')'.isAlpha = false from rfl), exists_eq_right]
        rw [(recasing.eq_iff rfl '(').mpr rfl]
        simp only [parenthesized?, closes]
        split
        · rw [Option.map_some, List.map_dropLast]
        · rfl
      · rw [unopened _ _ (mt (recasing.eq_iff rfl first).mp opens), unopened _ _ opens]
        rfl

theorem indexRegister?_map (recasing : IsRecasing fold) (text : Text) :
    indexRegister? (text.map fold) = indexRegister? text := by
  rw [indexRegister?, Text.upper_map recasing, ← indexRegister?]

/-- The sign behind the name of an index register stays, and so does the length of the
name. -/
theorem ofInner_map (recasing : IsRecasing fold) (text : Text) :
    ofInner (text.map fold) = (ofInner text).recase fold := by
  have plus : fold '+' = '+' := (recasing.eq_iff rfl '+').mpr rfl
  have minus : fold '-' = '-' := (recasing.eq_iff rfl '-').mpr rfl
  unfold ofInner
  rw [← List.map_take, ← List.map_drop, indexRegister?_map recasing]
  cases named : indexRegister? (text.take 2) with
  | none => rfl
  | some register =>
      cases text.drop 2 with
      | nil => rfl
      | cons sign rest =>
          by_cases isPlus : sign = '+'
          · subst isPlus
            simp only [List.map_cons, plus, recase]
          · by_cases isMinus : sign = '-'
            · subst isMinus
              simp only [List.map_cons, minus, recase]
            · have notPlus : fold sign ≠ '+' := mt (recasing.eq_iff rfl sign).mp isPlus
              have notMinus : fold sign ≠ '-' := mt (recasing.eq_iff rfl sign).mp isMinus
              simp only [List.map_cons, recase]
              split <;> simp_all

/-- A recased operand has the same shape. -/
theorem ofText_map (recasing : IsRecasing fold) (text : Text) :
    ofText (text.map fold) = (ofText text).recase fold := by
  unfold ofText
  simp only [Text.compact_map recasing, Keyword.ofText?_map recasing,
    parenthesized?_map recasing]
  cases Keyword.ofText? (Text.compact text) with
  | some word => rfl
  | none =>
      cases parenthesized? (Text.compact text) with
      | some inner => exact ofInner_map recasing inner
      | none => rfl

end Argument

end Operands

/-! ## Lines -/

/-- A statement with its operands recased; its mnemonic is in upper case already. -/
def Statement.recase (fold : Char → Char) (statement : Statement) : Statement :=
  ⟨statement.mnemonic, statement.operands.map (List.map fold)⟩

/-- A line with the name of its label and its operands recased. -/
def Line.recase (fold : Char → Char) (line : Line) : Line :=
  ⟨line.label.map (List.map fold), line.statement.map (Statement.recase fold)⟩

namespace Line

variable {fold : Char → Char}

theorem splitLabel_map (recasing : IsRecasing fold) {text rest : Text} {label : Option Text}
    (divided : splitLabel text = .ok (label, rest)) :
    splitLabel (text.map fold) = .ok (label.map (List.map fold), rest.map fold) := by
  unfold splitLabel at divided ⊢
  rw [Quoted.cut?, Quoted.cutFrom?_map recasing rfl, ← Quoted.cut?]
  cases cut : Quoted.cut? ':' text with
  | none =>
      rw [cut] at divided
      obtain ⟨rfl, rfl⟩ := Prod.mk.inj (Except.ok.inj divided)
      rfl
  | some parts =>
      obtain ⟨front, back⟩ := parts
      simp only [cut] at divided
      simp only [Option.map_some, Prod.map_apply, Text.trim_map recasing,
        recasing.isIdentifier, Keyword.ofText?_map recasing]
      split at divided
      · rename_i identifier
        rw [if_pos identifier]
        split at divided
        · cases divided
        · rename_i unreserved
          rw [if_neg unreserved]
          obtain ⟨rfl, rfl⟩ := Prod.mk.inj (Except.ok.inj divided)
          rfl
      · rename_i unnamed
        rw [if_neg unnamed]
        obtain ⟨rfl, rfl⟩ := Prod.mk.inj (Except.ok.inj divided)
        rfl

theorem splitOperands_map (recasing : IsRecasing fold) {text : Text} {operands : List Text}
    (divided : splitOperands text = .ok operands) :
    splitOperands (text.map fold) = .ok (operands.map (List.map fold)) := by
  unfold splitOperands at divided ⊢
  simp only [List.map_eq_nil_iff]
  split at divided
  · rename_i empty
    obtain rfl := Except.ok.inj divided
    exact if_pos empty
  · rename_i nonempty
    have trimmed : ((Quoted.split ',' text).map (List.map fold)).map Text.trim =
        ((Quoted.split ',' text).map Text.trim).map (List.map fold) := by
      rw [List.map_map, List.map_map]
      exact List.map_congr_left fun part _ => Text.trim_map recasing part
    rw [if_neg nonempty, Quoted.split, Quoted.splitFrom_map recasing rfl, ← Quoted.split, trimmed,
      List.any_map]
    dsimp only at divided ⊢
    split at divided
    · cases divided
    · rename_i complete
      obtain rfl := Except.ok.inj divided
      refine if_neg ?_
      have same : List.isEmpty ∘ List.map fold = List.isEmpty := by
        funext part
        exact List.isEmpty_map
      rw [same]
      exact complete

theorem readStatement_map (recasing : IsRecasing fold) {text : Text}
    {statement : Option Statement} (read : readStatement text = .ok statement) :
    readStatement (text.map fold) = .ok (statement.map (Statement.recase fold)) := by
  unfold readStatement at read ⊢
  have solid : (fun character => !Text.isBlank character) ∘ fold =
      fun character => !Text.isBlank character := by
    funext character
    rw [Function.comp_apply, recasing.isBlank]
  have alphanumeric : Char.isAlphanum ∘ fold = Char.isAlphanum := funext recasing.isAlphanum
  simp only [List.map_eq_nil_iff, List.takeWhile_map, List.dropWhile_map, solid, List.all_map,
    alphanumeric, Text.trim_map recasing, Text.upper_map recasing]
  split at read
  · rename_i empty
    obtain rfl := Except.ok.inj read
    exact if_pos empty
  · rename_i nonempty
    rw [if_neg nonempty]
    dsimp only at read
    split at read
    · rename_i named
      rw [if_pos named]
      obtain ⟨operands, divided, rfl⟩ := map_eq_ok.mp read
      rw [splitOperands_map recasing divided]
      rfl
    · cases read

/-- A recased line is read as the recased parts. -/
theorem read_map (recasing : IsRecasing fold) {text : Text} {line : Line}
    (isRead : read text = .ok line) : read (text.map fold) = .ok (line.recase fold) := by
  rw [read_of_before rfl] at isRead
  rw [read_of_before (Quoted.before_map recasing rfl text), Quoted.isClosed_map recasing,
    Text.trim_map recasing]
  split at isRead
  · rename_i closed
    rw [if_pos closed]
    cases divided : splitLabel (Text.trim (Quoted.before ';' text)) with
    | error flaw =>
        rw [divided] at isRead
        cases isRead
    | ok parts =>
        obtain ⟨label, rest⟩ := parts
        simp only [divided, Except.bind] at isRead
        obtain ⟨statement, statementRead, rfl⟩ := map_eq_ok.mp isRead
        rw [splitLabel_map recasing divided]
        simp only [Except.bind, readStatement_map recasing statementRead]
        rfl
  · cases isRead

/-- A character that ends no line belongs to the line that goes on behind it. -/
theorem split_cons_of_ne {character : Char} (rest : Text) (notFeed : character ≠ '\n')
    (notReturn : character = '\r' → rest.head? ≠ some '\n') :
    split (character :: rest) =
      match split rest with
      | [] => [[character]]
      | first :: others => (character :: first) :: others := by
  refine split.eq_4 character rest notFeed ?_
  rintro others isReturn rfl
  exact notReturn isReturn rfl

/-- A recased source has the recased lines. -/
theorem split_map (recasing : IsRecasing fold) (text : Text) :
    split (text.map fold) = (split text).map (List.map fold) := by
  have feed (character : Char) : fold character = '\n' ↔ character = '\n' :=
    recasing.eq_iff rfl character
  have back (character : Char) : fold character = '\r' ↔ character = '\r' :=
    recasing.eq_iff rfl character
  have whole (character : Char) (rest : Text)
      (notReturn : ∀ others, character = '\r' → rest = '\n' :: others → False) :
      character = '\r' → rest.head? ≠ some '\n' := by
    intro isReturn fed
    obtain ⟨others, rfl⟩ := List.head?_eq_some_iff.mp fed
    exact notReturn others isReturn rfl
  have splits (character : Char) (rest : Text) (notFeed : character = '\n' → False)
      (notReturn : ∀ others, character = '\r' → rest = '\n' :: others → False) :=
    split_cons_of_ne (rest.map fold) (mt (feed character).mp notFeed)
      fun isReturn fed => by
        rw [List.head?_map, Option.map_eq_some_iff] at fed
        obtain ⟨mark, head, isFeed⟩ := fed
        rw [(feed mark).mp isFeed] at head
        exact whole character rest notReturn ((back character).mp isReturn) head
  induction text using split.induct with
  | case1 => rfl
  | case2 rest ih =>
      rw [List.map_cons, (feed '\n').mpr rfl, split, ih, split]
      rfl
  | case3 rest ih =>
      rw [List.map_cons, List.map_cons, (back '\r').mpr rfl, (feed '\n').mpr rfl, split, ih, split]
      rfl
  | case4 character rest notFeed notReturn empty ih =>
      rw [List.map_cons, splits character rest notFeed notReturn, ih,
        split_cons_of_ne rest notFeed (whole character rest notReturn), empty]
      rfl
  | case5 character rest notFeed notReturn first others divided ih =>
      rw [List.map_cons, splits character rest notFeed notReturn, ih,
        split_cons_of_ne rest notFeed (whole character rest notReturn), divided]
      rfl

end Line

end Z80
