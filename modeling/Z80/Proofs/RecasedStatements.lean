import Mathlib.Data.List.Nodup
import Z80.Proofs.ExpressionValues
import Z80.Proofs.LetterCase
import Z80.Proofs.TwoPasses

/-!
# Statements in either letter case

A recased statement without strings has the same bytes, if every name in its expressions
stands for the same label as before.  A name does if the labels differ by more than the case
of their letters.  Where a statement fails, its recased form fails too, but the message may
cite a recased text, so that results are compared up to the reason of a failure.
-/

namespace Z80

/-! ## Names of labels -/

namespace Labels

variable {fold : Char → Char}

/-- Labels with their names recased. -/
def recase (fold : Char → Char) (labels : Labels) : Labels :=
  labels.map fun label => (label.1.map fold, label.2)

/-- A name stands for the same after recasing. -/
def Keeps (fold : Char → Char) (labels : Labels) (name : Text) : Prop :=
  (labels.recase fold).lookup (name.map fold) = labels.lookup name

/-- A name keeps its meaning if no label has the same name but for the case of letters. -/
theorem keeps_of_forall (recasing : IsRecasing fold) {labels : Labels} {name : Text}
    (separate : ∀ label ∈ labels, Text.upper label.1 = Text.upper name → label.1 = name) :
    labels.Keeps fold name := by
  induction labels with
  | nil => rfl
  | cons label rest ih =>
      obtain ⟨other, address⟩ := label
      obtain ⟨first, later⟩ := List.forall_mem_cons.mp separate
      have sameName : (name.map fold == other.map fold) = (name == other) := by
        rw [Bool.eq_iff_iff, beq_iff_eq, beq_iff_eq]
        constructor
        · intro recased
          refine (first ?_).symm
          rw [← Text.upper_map recasing, ← recased, Text.upper_map recasing]
        · rintro rfl
          rfl
      have laterKeeps := ih later
      rw [Keeps, recase] at laterKeeps ⊢
      rw [List.map_cons, List.lookup_cons, List.lookup_cons, sameName, laterKeeps]

/-- Where the names of all labels differ by more than the case of letters, each of them keeps
its meaning, also while only some of the labels are known. -/
theorem keeps_of_within (recasing : IsRecasing fold) {labels all : Labels}
    (within : Within labels all)
    (distinct : (all.map fun label => Text.upper label.1).Nodup) {name : Text}
    {address : UInt16} (known : all.lookup name = some address) : labels.Keeps fold name := by
  apply keeps_of_forall recasing
  rintro ⟨other, otherAddress⟩ member sameUpper
  have mem_of_lookup {name : Text} {address : UInt16} (known : all.lookup name = some address) :
      (name, address) ∈ all := by
    obtain ⟨front, back, rfl, _⟩ := List.lookup_eq_some_iff.mp known
    simp
  cases found : labels.lookup other with
  | none =>
      have absent := List.lookup_eq_none_iff.mp found _ member
      simp at absent
  | some stored =>
      have same := List.inj_on_of_nodup_map distinct (mem_of_lookup (within other stored found))
        (mem_of_lookup known) sameUpper
      exact (Prod.mk.inj same).1

end Labels

/-! ## Expressions -/

namespace Expression

variable {fold : Char → Char}

def Term.recase (fold : Char → Char) (term : Term) : Term :=
  ⟨term.signs, term.text.map fold⟩

/-- The flaw of an expression with the cited text recased. -/
def Flaw.recase (fold : Char → Char) : Flaw → Flaw
  | .missingValue => .missingValue
  | .missingTerm => .missingTerm
  | .invalidTerm term => .invalidTerm (term.map fold)
  | .undefined name => .undefined (name.map fold)

/-- Every name in an expression stands for a label. -/
def Resolves (labels : Labels) (text : Text) : Prop :=
  ∀ term ∈ terms (Text.compact text), isIdentifier term.text = true →
    ∃ address, labels.lookup term.text = some address

/-- Every name in an expression stands for the same after recasing. -/
def Keeps (fold : Char → Char) (labels : Labels) (text : Text) : Prop :=
  ∀ term ∈ terms (Text.compact text), isIdentifier term.text = true →
    labels.Keeps fold term.text

theorem resolves_of_evaluate {here : UInt16} {labels : Labels} {text : Text} {value : Int}
    (evaluated : evaluate here labels text = .ok value) : Resolves labels text := by
  intro term member identifier
  obtain ⟨_, summed⟩ := evaluateWith_eq_ok.mp evaluated
  obtain ⟨number, denotes⟩ := exists_sumFrom_iff.mp ⟨_, summed⟩ term member
  generalize term.text = name at identifier denotes
  cases denotes with
  | here => exact absurd rfl (ne_of_isIdentifier identifier).2
  | number read => cases (Number.read?_identifier identifier).symm.trans read
  | label _ known => exact ⟨_, known⟩

theorem Resolves.keeps (recasing : IsRecasing fold) {labels all : Labels} {text : Text}
    (resolves : Resolves all text) (within : Labels.Within labels all)
    (distinct : (all.map fun label => Text.upper label.1).Nodup) : Keeps fold labels text := by
  intro term member identifier
  obtain ⟨address, known⟩ := resolves term member identifier
  exact Labels.keeps_of_within recasing within distinct known

theorem extend_map (recasing : IsRecasing fold) (character : Char) (rest : List Term) :
    extend (fold character) (rest.map (Term.recase fold)) =
      (extend character rest).map (Term.recase fold) := by
  have sign := recasing.isSign character
  have unchanged (signed : isSign character = true) : fold character = character := by
    simp only [isSign, Bool.or_eq_true, beq_iff_eq] at signed
    rcases signed with rfl | rfl
    · exact (recasing.eq_iff rfl '+').mpr rfl
    · exact (recasing.eq_iff rfl '-').mpr rfl
  cases rest with
  | nil =>
      simp only [List.map_nil, extend, sign]
      split
      · rename_i signed
        rw [unchanged signed]
        rfl
      · rfl
  | cons first others =>
      simp only [List.map_cons, extend, sign, Term.recase]
      split
      · rename_i signed
        rw [unchanged signed]
        rfl
      · split <;> rfl

theorem terms_map (recasing : IsRecasing fold) (text : Text) :
    terms (text.map fold) = (terms text).map (Term.recase fold) := by
  induction text with
  | nil => rfl
  | cons first rest ih =>
      rw [terms, List.map_cons, List.foldr_cons, ← terms, ih, extend_map recasing]
      rfl

variable {here : UInt16} {lookup other : Text → Option UInt16}

theorem termValue_map (recasing : IsRecasing fold) {term : Text}
    (keeps : isIdentifier term = true → other (term.map fold) = lookup term) :
    termValue here other (term.map fold) =
      (termValue here lookup term).mapError (Flaw.recase fold) := by
  have sameHere : term.map fold = ['$'] ↔ term = ['$'] := by
    simp only [List.map_eq_singleton_iff, recasing.eq_iff (show '$'.isAlpha = false from rfl)]
    constructor
    · rintro ⟨character, rfl, rfl⟩
      rfl
    · rintro rfl
      exact ⟨'$', rfl, rfl⟩
  simp only [termValue, List.map_eq_nil_iff, sameHere, Number.read?_map recasing,
    recasing.isIdentifier]
  split
  · rfl
  · split
    · rfl
    · split
      · rfl
      · split
        · rename_i identifier
          rw [keeps identifier]
          cases lookup term <;> rfl
        · rfl

theorem sumFrom_map (recasing : IsRecasing fold) {terms : List Term} (total : Int)
    (keeps : ∀ term ∈ terms, isIdentifier term.text = true →
      other (term.text.map fold) = lookup term.text) :
    sumFrom here other total (terms.map (Term.recase fold)) =
      (sumFrom here lookup total terms).mapError (Flaw.recase fold) := by
  induction terms generalizing total with
  | nil => rfl
  | cons first rest ih =>
      obtain ⟨firstKeeps, restKeep⟩ := List.forall_mem_cons.mp keeps
      rw [List.map_cons, sumFrom, Term.recase, termValue_map recasing firstKeeps, sumFrom]
      cases termValue here lookup first.text with
      | error flaw => rfl
      | ok value => exact ih _ restKeep

/-- A recased expression has the same value or the same flaw. -/
theorem evaluate_map (recasing : IsRecasing fold) {labels : Labels} {text : Text}
    (keeps : Keeps fold labels text) :
    evaluate here (labels.recase fold) (text.map fold) =
      (evaluate here labels text).mapError (Flaw.recase fold) := by
  simp only [evaluate, evaluateWith, Text.compact_map recasing, List.map_eq_nil_iff,
    terms_map recasing]
  split
  · rfl
  · exact sumFrom_map recasing 0 keeps

end Expression

/-! ## Operands and statements -/

/-- The expression of a written operand. -/
def Argument.expression? : Argument → Option Text
  | .keyword _ => none
  | .value expression | .cell expression | .indexed _ expression => some expression

/-- Every name in a written operand stands for the same after recasing. -/
def Argument.Keeps (fold : Char → Char) (labels : Labels) (argument : Argument) : Prop :=
  ∀ expression, argument.expression? = some expression → Expression.Keeps fold labels expression

namespace Statement

/-- The expressions of a statement without strings. -/
def expressions (statement : Statement) : List Text :=
  match statement.directive with
  | .instruction =>
      statement.operands.filterMap fun operand => (Argument.ofText operand).expression?
  | _ => statement.operands

/-- Every name in the expressions of a statement stands for the same after recasing. -/
def Keeps (fold : Char → Char) (labels : Labels) (statement : Statement) : Prop :=
  ∀ expression ∈ statement.expressions, Expression.Keeps fold labels expression

/-- There is no string in the operands of a statement. -/
def Unquoted (statement : Statement) : Prop :=
  ∀ operand ∈ statement.operands, Quoted.quote ∉ operand

end Statement

theorem Quoted.content?_eq_none {text : Text} (unquoted : quote ∉ text) :
    content? text = none := by
  cases text with
  | nil => rfl
  | cons first rest =>
      have differs : first ≠ quote := by
        rintro rfl
        exact unquoted List.mem_cons_self
      simp only [content?, differs, false_and, if_false]

namespace Scope

variable {fold : Char → Char} {scope : Scope}

/-- A scope with the names of its labels recased. -/
def recase (fold : Char → Char) (scope : Scope) : Scope :=
  { scope with labels := scope.labels.recase fold }

section Values

variable {expression : Text}

theorem value_map (recasing : IsRecasing fold)
    (keeps : Expression.Keeps fold scope.labels expression) :
    ((scope.recase fold).value (expression.map fold)).toOption =
      (scope.value expression).toOption := by
  simp only [value, recase, Expression.evaluate_map recasing keeps]
  cases Expression.evaluate scope.here scope.labels expression with
  | ok value => rfl
  | error flaw => cases flaw <;> cases scope.pass <;> rfl

theorem valueIn_map (recasing : IsRecasing fold)
    (keeps : Expression.Keeps fold scope.labels expression) (range : ValueRange) :
    ((scope.recase fold).valueIn range (expression.map fold)).toOption =
      (scope.valueIn range expression).toOption := by
  have samePass : (scope.recase fold).pass = scope.pass := rfl
  simp only [valueIn, toOption_bind, value_map recasing keeps, samePass]
  congr 1
  funext value
  split <;> rfl

theorem byte_map (recasing : IsRecasing fold)
    (keeps : Expression.Keeps fold scope.labels expression) :
    ((scope.recase fold).byte (expression.map fold)).toOption =
      (scope.byte expression).toOption := by
  simp only [byte, toOption_map, valueIn_map recasing keeps]

theorem word_map (recasing : IsRecasing fold)
    (keeps : Expression.Keeps fold scope.labels expression) :
    ((scope.recase fold).word (expression.map fold)).toOption =
      (scope.word expression).toOption := by
  simp only [word, toOption_map, valueIn_map recasing keeps]

theorem displacement_map (recasing : IsRecasing fold)
    (keeps : Expression.Keeps fold scope.labels expression) :
    ((scope.recase fold).displacement (expression.map fold)).toOption =
      (scope.displacement expression).toOption := by
  simp only [displacement, toOption_map, valueIn_map recasing keeps]

theorem relative_map (recasing : IsRecasing fold)
    (keeps : Expression.Keeps fold scope.labels expression) (length : Nat) :
    ((scope.recase fold).relative length (expression.map fold)).toOption =
      (scope.relative length expression).toOption := by
  simp only [relative, toOption_bind, value_map recasing keeps]
  rfl

end Values

theorem fits_map (recasing : IsRecasing fold) {argument : Argument}
    (keeps : argument.Keeps fold scope.labels) (operand : Operand) :
    (scope.recase fold).fits operand (argument.recase fold) = scope.fits operand argument := by
  cases argument with
  | value expression =>
      cases operand <;> simp only [fits, Argument.recase, value_map recasing (keeps _ rfl)]
  | _ => cases operand <;> rfl

theorem allFit_map (recasing : IsRecasing fold) {arguments : List Argument}
    (keeps : ∀ argument ∈ arguments, argument.Keeps fold scope.labels) (operands : List Operand) :
    (scope.recase fold).allFit operands (arguments.map (Argument.recase fold)) =
      scope.allFit operands arguments := by
  induction arguments generalizing operands with
  | nil => cases operands <;> rfl
  | cons argument arguments ih =>
      obtain ⟨first, later⟩ := List.forall_mem_cons.mp keeps
      cases operands with
      | nil => rfl
      | cons operand operands =>
          rw [List.map_cons, allFit, fits_map recasing first, ih later, allFit]

theorem select_map (recasing : IsRecasing fold) {arguments : List Argument}
    (keeps : ∀ argument ∈ arguments, argument.Keeps fold scope.labels) (mnemonic : Text) :
    (scope.recase fold).select mnemonic (arguments.map (Argument.recase fold)) =
      scope.select mnemonic arguments := by
  simp only [select, allFit_map recasing keeps, List.length_map]

theorem fill_map (recasing : IsRecasing fold) {argument : Argument}
    (keeps : argument.Keeps fold scope.labels) (length : Nat) (operand : Operand) :
    ((scope.recase fold).fill length operand (argument.recase fold)).toOption =
      (scope.fill length operand argument).toOption := by
  cases argument with
  | keyword word => cases operand <;> rfl
  | value expression =>
      cases operand <;> simp only [fill, Argument.recase, toOption_map,
        byte_map recasing (keeps _ rfl), word_map recasing (keeps _ rfl),
        relative_map recasing (keeps _ rfl)]
  | cell expression =>
      cases operand <;> simp only [fill, Argument.recase, toOption_map,
        word_map recasing (keeps _ rfl)]
  | indexed register expression =>
      cases operand <;> simp only [fill, Argument.recase, toOption_map,
        displacement_map recasing (keeps _ rfl)]

theorem payload_map (recasing : IsRecasing fold) {arguments : List Argument}
    (keeps : ∀ argument ∈ arguments, argument.Keeps fold scope.labels) (length : Nat)
    (operands : List Operand) :
    ((scope.recase fold).payload length operands
        (arguments.map (Argument.recase fold))).toOption =
      (scope.payload length operands arguments).toOption := by
  induction arguments generalizing operands with
  | nil => cases operands <;> rfl
  | cons argument arguments ih =>
      obtain ⟨first, later⟩ := List.forall_mem_cons.mp keeps
      cases operands with
      | nil => rfl
      | cons operand operands =>
          simp only [List.map_cons, payload, toOption_bind, fill_map recasing first, ih later]

theorem instruction_map (recasing : IsRecasing fold) {statement : Statement}
    (keeps : ∀ operand ∈ statement.operands, (Argument.ofText operand).Keeps fold scope.labels) :
    ((scope.recase fold).instruction (statement.recase fold)).toOption =
      (scope.instruction statement).toOption := by
  have recased : (statement.operands.map (List.map fold)).map Argument.ofText =
      (statement.operands.map Argument.ofText).map (Argument.recase fold) := by
    rw [List.map_map, List.map_map]
    exact List.map_congr_left fun operand _ => Argument.ofText_map recasing operand
  have keepsArguments : ∀ argument ∈ statement.operands.map Argument.ofText,
      argument.Keeps fold scope.labels := List.forall_mem_map.mpr keeps
  simp only [instruction, Statement.recase, recased, toOption_bind,
    select_map recasing keepsArguments, payload_map recasing keepsArguments]

theorem dataBytes_map (recasing : IsRecasing fold) {operands : List Text}
    (unquoted : ∀ operand ∈ operands, Quoted.quote ∉ operand)
    (keeps : ∀ operand ∈ operands, Expression.Keeps fold scope.labels operand) :
    ((scope.recase fold).dataBytes (operands.map (List.map fold))).toOption =
      (scope.dataBytes operands).toOption := by
  induction operands with
  | nil => rfl
  | cons operand operands ih =>
      obtain ⟨firstUnquoted, laterUnquoted⟩ := List.forall_mem_cons.mp unquoted
      obtain ⟨first, later⟩ := List.forall_mem_cons.mp keeps
      have recasedUnquoted : Quoted.quote ∉ operand.map fold := by
        intro member
        obtain ⟨character, inOperand, isQuote⟩ := List.mem_map.mp member
        rw [(recasing.eq_iff rfl character).mp isQuote] at inOperand
        exact firstUnquoted inOperand
      simp only [List.map_cons, dataBytes, datum, Quoted.content?_eq_none firstUnquoted,
        Quoted.content?_eq_none recasedUnquoted, toOption_bind, toOption_map,
        byte_map recasing first, ih laterUnquoted later]

theorem dataWords_map (recasing : IsRecasing fold) {operands : List Text}
    (keeps : ∀ operand ∈ operands, Expression.Keeps fold scope.labels operand) :
    ((scope.recase fold).dataWords (operands.map (List.map fold))).toOption =
      (scope.dataWords operands).toOption := by
  induction operands with
  | nil => rfl
  | cons operand operands ih =>
      obtain ⟨first, later⟩ := List.forall_mem_cons.mp keeps
      simp only [List.map_cons, dataWords, toOption_bind, word_map recasing first, ih later]

/-- A recased statement without strings has the same bytes. -/
theorem statement_map (recasing : IsRecasing fold) {statement : Statement}
    (unquoted : statement.Unquoted) (keeps : statement.Keeps fold scope.labels) :
    ((scope.recase fold).statement (statement.recase fold)).toOption =
      (scope.statement statement).toOption := by
  have directive : (statement.recase fold).directive = statement.directive := rfl
  unfold Statement.Keeps Statement.expressions at keeps
  unfold Scope.statement
  rw [directive]
  cases isDirective : statement.directive with
  | origin => rfl
  | bytes =>
      simp only [isDirective] at keeps
      simp only [Statement.recase, List.map_eq_nil_iff]
      split
      · rfl
      · exact dataBytes_map recasing unquoted keeps
  | words =>
      simp only [isDirective] at keeps
      simp only [Statement.recase, List.map_eq_nil_iff]
      split
      · rfl
      · exact dataWords_map recasing keeps
  | instruction =>
      simp only [isDirective] at keeps
      refine instruction_map recasing fun operand member expression isExpression => ?_
      exact keeps expression (List.mem_filterMap.mpr ⟨operand, member, isExpression⟩)

end Scope

end Z80
