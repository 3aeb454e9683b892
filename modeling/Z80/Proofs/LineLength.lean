import Mathlib.Algebra.Order.BigOperators.Group.List
import Mathlib.Algebra.Order.Group.Nat
import Z80.Proofs.LineSyntax
import Z80.Proofs.SourceReading
import Z80.Proofs.StepAgreement

/-!
# Characters and bytes of a line

A line has no more characters in its operands than in its text, and so hardly more bytes
than characters.  Addresses of 32 bits therefore cannot wrap around unless a line has
billions of characters.
-/

namespace Z80

theorem Text.IsPadded.sublist {token text : Text} (padded : IsPadded token text) :
    token.Sublist text := by
  obtain ⟨left, right, _, _, rfl⟩ := padded
  exact (List.sublist_append_right left token).trans (List.sublist_append_left _ right)

theorem Text.trim_sublist (text : Text) : (trim text).Sublist text :=
  (isPadded_trim text).sublist

/-- What follows a word loses the white space between them. -/
theorem Text.length_trim_dropWhile {text : Text}
    (something : trim (text.dropWhile fun character => !isBlank character) ≠ []) :
    (trim (text.dropWhile fun character => !isBlank character)).length + 1 ≤ text.length := by
  have few := (List.dropWhile_sublist (l := text) fun character => !isBlank character).length_le
  cases divided : text.dropWhile fun character => !isBlank character with
  | nil =>
      rw [divided] at something
      exact absurd rfl something
  | cons first rest =>
      have blank : isBlank first = true := by
        have stopped := List.head_dropWhile_not (fun character => !isBlank character)
          (l := text) (by simp [divided])
        simpa [divided] using stopped
      have shorter := (trim_sublist rest).length_le
      have dropped : trim (first :: rest) = trim rest := by
        rw [trim, trimStart, List.dropWhile_cons_of_pos blank]
        rfl
      rw [divided, List.length_cons] at few
      rw [dropped]
      omega

theorem Quoted.before_sublist (mark : Char) (text : Text) : (before mark text).Sublist text := by
  obtain ⟨_, whole | ⟨back, whole, _⟩⟩ := isBefore_iff.mpr (Eq.refl (before mark text))
  · rw [← whole]
  · conv => rhs; rw [whole]
    exact List.sublist_append_left _ _

theorem Quoted.length_content?_le {text content : Text}
    (quoted : content? text = some content) : content.length ≤ text.length := by
  cases text with
  | nil => cases quoted
  | cons first rest =>
      rw [content?] at quoted
      split at quoted
      · obtain rfl := Option.some.inj quoted
        rw [List.length_dropLast, List.length_cons]
        omega
      · cases quoted

/-- The parts of a text, with the separator behind each, are as long as the text. -/
theorem Quoted.sum_length_splitFrom (separator : Char) (inside : Bool) (text : Text) :
    ((splitFrom separator inside text).map fun part => part.length + 1).sum =
      text.length + 1 := by
  induction text generalizing inside with
  | nil => rfl
  | cons first rest ih =>
      rw [splitFrom]
      split
      · rw [List.map_cons, List.sum_cons, ih, List.length_cons, List.length_nil]
        omega
      · have later := ih (after inside first)
        split
        · rename_i nothing
          rw [nothing] at later
          simp at later
        · rename_i part parts divided
          rw [divided, List.map_cons, List.sum_cons] at later
          rw [List.map_cons, List.sum_cons, List.length_cons, List.length_cons]
          omega

namespace Line

theorem sublist_of_splitLabel {text rest : Text} {label : Option Text}
    (divided : splitLabel text = .ok (label, rest)) : rest.Sublist text := by
  unfold splitLabel at divided
  cases cut : Quoted.cut? ':' text with
  | none =>
      rw [cut] at divided
      obtain ⟨_, rfl⟩ := Prod.mk.inj (Except.ok.inj divided)
      exact List.Sublist.refl _
  | some parts =>
      obtain ⟨front, back⟩ := parts
      have whole := @Quoted.isBefore_of_cutFrom? ':' false text
      rw [← Quoted.cut?, cut] at whole
      simp only [cut] at divided
      split at divided
      · split at divided
        · cases divided
        · obtain ⟨_, rfl⟩ := Prod.mk.inj (Except.ok.inj divided)
          rw [whole.1]
          exact ((Text.trim_sublist back).cons _).trans (List.sublist_append_right _ _)
      · obtain ⟨_, rfl⟩ := Prod.mk.inj (Except.ok.inj divided)
        exact List.Sublist.refl _

/-- The statement of a line stands in its text. -/
theorem exists_sublist_of_read {text : Text} {line : Line} {statement : Statement}
    (isRead : read text = .ok line) (written : line.statement = some statement) :
    ∃ part : Text, part.Sublist text ∧ readStatement part = .ok (some statement) := by
  rw [read_of_before rfl] at isRead
  split at isRead
  · obtain ⟨⟨label, rest⟩, divided, isRead⟩ := bind_eq_ok.mp isRead
    obtain ⟨other, statementRead, rfl⟩ := map_eq_ok.mp isRead
    obtain rfl : other = some statement := written
    exact ⟨rest, (sublist_of_splitLabel divided).trans
      ((Text.trim_sublist _).trans (Quoted.before_sublist ';' text)), statementRead⟩
  · cases isRead

theorem sum_length_of_splitOperands {text : Text} {operands : List Text}
    (divided : splitOperands text = .ok operands) :
    operands = [] ∨
      text ≠ [] ∧ (operands.map fun operand => operand.length + 1).sum ≤ text.length + 1 := by
  unfold splitOperands at divided
  split at divided
  · exact Or.inl (Except.ok.inj divided).symm
  · rename_i something
    dsimp only at divided
    split at divided
    · cases divided
    · obtain rfl := Except.ok.inj divided
      refine Or.inr ⟨something, ?_⟩
      rw [← Quoted.sum_length_splitFrom ',' false text, List.map_map]
      exact List.sum_le_sum fun part _ =>
        Nat.add_le_add_right (Text.trim_sublist part).length_le 1

theorem sum_length_of_readStatement {text : Text} {statement : Statement}
    (isRead : readStatement text = .ok (some statement)) :
    (statement.operands.map fun operand => operand.length + 1).sum ≤ text.length := by
  unfold readStatement at isRead
  split at isRead
  · cases isRead
  · dsimp only at isRead
    split at isRead
    · obtain ⟨operands, divided, same⟩ := map_eq_ok.mp isRead
      obtain rfl := Option.some.inj same
      rcases sum_length_of_splitOperands divided with rfl | ⟨something, few⟩
      · exact Nat.zero_le _
      · exact Nat.le_trans few (Text.length_trim_dropWhile something)
    · cases isRead

end Line

/-! ## How many bytes a statement can have -/

namespace Scope

theorem ne_nil_of_word {scope : Scope} {operand : Text} {word : UInt16}
    (valued : scope.word operand = .ok word) : operand ≠ [] := by
  rintro rfl
  obtain ⟨pass, labels, here⟩ := scope
  cases pass <;> cases valued

theorem length_datum_le {scope : Scope} {operand : Text} {bytes : List UInt8}
    (placed : scope.datum operand = .ok bytes) : bytes.length ≤ operand.length + 1 := by
  unfold datum at placed
  split at placed
  · rename_i content quoted
    split at placed
    · obtain rfl := Except.ok.inj placed
      have shorter := Quoted.length_content?_le quoted
      rw [List.length_map]
      omega
    · cases placed
  · obtain ⟨byte, _, rfl⟩ := map_eq_ok.mp placed
    exact Nat.le_add_left _ _

theorem length_dataBytes_le {scope : Scope} {operands : List Text} {bytes : List UInt8}
    (placed : scope.dataBytes operands = .ok bytes) :
    bytes.length ≤ (operands.map fun operand => operand.length + 1).sum := by
  induction operands generalizing bytes with
  | nil => simp [← Except.ok.inj placed]
  | cons operand operands ih =>
      simp only [dataBytes, bind_eq_ok] at placed
      obtain ⟨front, frontEq, back, backEq, joined⟩ := placed
      obtain rfl := Except.ok.inj joined
      rw [List.length_append, List.map_cons, List.sum_cons]
      exact Nat.add_le_add (length_datum_le frontEq) (ih backEq)

theorem length_dataWords_le {scope : Scope} {operands : List Text} {bytes : List UInt8}
    (placed : scope.dataWords operands = .ok bytes) :
    bytes.length ≤ (operands.map fun operand => operand.length + 1).sum := by
  induction operands generalizing bytes with
  | nil => simp [← Except.ok.inj placed]
  | cons operand operands ih =>
      simp only [dataWords, bind_eq_ok] at placed
      obtain ⟨word, wordEq, back, backEq, joined⟩ := placed
      obtain rfl := Except.ok.inj joined
      have few := ih backEq
      have written := List.length_pos_iff.mpr (ne_nil_of_word wordEq)
      simp only [List.length_cons, List.map_cons, List.sum_cons]
      omega

/-- A statement has hardly more bytes than its operands have characters. -/
theorem length_statement_le {scope : Scope} {statement : Statement} {bytes : List UInt8}
    (placed : scope.statement statement = .ok bytes) :
    bytes.length ≤ max 4 (statement.operands.map fun operand => operand.length + 1).sum := by
  unfold Scope.statement at placed
  cases directive : statement.directive with
  | origin =>
      simp only [directive, Except.ok.injEq] at placed
      simp [← placed]
  | bytes =>
      simp only [directive] at placed
      split at placed
      · cases placed
      · exact Nat.le_trans (length_dataBytes_le placed) (Nat.le_max_right ..)
  | words =>
      simp only [directive] at placed
      split at placed
      · cases placed
      · exact Nat.le_trans (length_dataWords_le placed) (Nat.le_max_right ..)
  | instruction =>
      simp only [directive] at placed
      obtain ⟨entry, payload, chosen, filled, rfl⟩ := instruction_eq_ok.mp placed
      obtain ⟨member, _, fit⟩ := selected chosen
      rw [Entry.length_encode_of_sized (length_payload fit filled)]
      exact Nat.le_trans (Entry.length_le_four member) (Nat.le_max_left ..)

end Scope

/-! ## Lines that are not too long -/

/-- With fewer bytes than this on every line, no address wraps around. -/
def Image.limit : Nat := 2 ^ 32 - 2 ^ 16

/-- A line has too few bytes for addresses to wrap around, in whatever scope. -/
def Line.IsShort (line : Line) : Prop :=
  ∀ statement ∈ line.statement, ∀ (scope : Scope) (bytes : List UInt8),
    scope.statement statement = .ok bytes → bytes.length < Image.limit

/-- Every line of a source has too few characters for addresses to wrap around. -/
def HasShortLines (source : String) : Prop :=
  ∀ text ∈ Line.split source.toList, text.length < Image.limit

instance (source : String) : Decidable (HasShortLines source) :=
  inferInstanceAs (Decidable (∀ text ∈ Line.split source.toList, text.length < Image.limit))

theorem Line.isShort_of_read {text : Text} {line : Line} (isRead : read text = .ok line)
    (short : text.length < Image.limit) : line.IsShort := by
  intro statement written scope bytes placed
  obtain ⟨part, within, statementRead⟩ := exists_sublist_of_read isRead written
  have bound := Scope.length_statement_le placed
  have characters := Nat.le_trans (sum_length_of_readStatement statementRead) within.length_le
  have least : 4 < Image.limit := by decide
  omega

namespace Assembly

theorem read_of_mapError {text : Text} {line : Line}
    (read : (Line.read text).mapError Problem.line = .ok line) : Line.read text = .ok line := by
  rwa [← toOption_eq_some, toOption_mapError, toOption_eq_some] at read

theorem exists_text_of_readLines {number : Nat} {texts : List Text}
    {lines : List (Nat × Line)} (read : readLines number texts = .ok lines)
    {line : Nat × Line} (member : line ∈ lines) :
    ∃ text ∈ texts, Line.read text = .ok line.2 := by
  induction texts generalizing number lines with
  | nil =>
      obtain rfl := Except.ok.inj read
      cases member
  | cons text texts ih =>
      simp only [readLines, bind_eq_ok, Progress.locate_eq_ok] at read
      obtain ⟨first, firstRead, rest, restRead, joined⟩ := read
      obtain rfl := Except.ok.inj joined
      rcases List.mem_cons.mp member with rfl | later
      · exact ⟨text, List.mem_cons_self, read_of_mapError firstRead⟩
      · obtain ⟨other, isText, otherRead⟩ := ih restRead later
        exact ⟨other, List.mem_cons_of_mem _ isText, otherRead⟩

/-- The lines of a source with short lines are short. -/
theorem isShort_of_readLines {source : String} {lines : List (Nat × Line)}
    (short : HasShortLines source)
    (read : readLines 1 (Line.split source.toList) = .ok lines) :
    ∀ line ∈ lines, line.2.IsShort := by
  intro line member
  obtain ⟨text, isText, lineRead⟩ := exists_text_of_readLines read member
  exact Line.isShort_of_read lineRead (short text isText)

end Assembly

end Z80
