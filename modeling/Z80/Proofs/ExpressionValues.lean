import Mathlib.Data.List.Forall2
import Mathlib.Algebra.Ring.Int.Parity
import Mathlib.Data.List.Chain
import Z80.Proofs.NumberForms

/-!
# What expressions stand for

A text without white space divides in one way into terms that are as long as can be,
each with the signs before it.  The expression has a value if every term has one, and
then it is the sum of these with their signs; otherwise the first term without a value
decides how it fails.
-/

namespace Z80

namespace Expression

/-! ## Division into terms -/

/-- Signs and then a text without signs, not both of them empty. -/
structure Term.IsWhole (term : Term) : Prop where
  signs : ∀ character ∈ term.signs, isSign character = true
  text : ∀ character ∈ term.text, isSign character = false
  nonempty : term.signs ++ term.text ≠ []

/-- A division of a text into terms with the signs before them.  Nothing is left out, and
no term can be made longer: only the last one may end without a text, and only the first
one may begin without a sign. -/
structure IsDivision (text : Text) (division : List Term) : Prop where
  written : division.flatMap (fun term => term.signs ++ term.text) = text
  whole : ∀ term ∈ division, term.IsWhole
  maximal : division.IsChain fun first second => first.text ≠ [] ∧ second.signs ≠ []

/-- White space is in no term of a text without it. -/
theorem IsDivision.isBlank_of_mem {text : Text} {division : List Term}
    (divides : IsDivision (Text.compact text) division) {term : Term} (member : term ∈ division) :
    ∀ character ∈ term.text, Text.isBlank character = false := by
  intro character inTerm
  apply Text.isBlank_of_mem_compact
  rw [← divides.written, List.mem_flatMap]
  exact ⟨term, member, List.mem_append_right _ inTerm⟩

theorem isDivision_nil : IsDivision [] [] where
  written := rfl
  whole := by simp
  maximal := List.IsChain.nil

theorem isDivision_cons {text : Text} {first : Term} {rest : List Term} :
    IsDivision text (first :: rest) ↔
      first.IsWhole ∧ (∀ next ∈ rest.head?, first.text ≠ [] ∧ next.signs ≠ []) ∧
        ∃ others, IsDivision others rest ∧ text = first.signs ++ first.text ++ others := by
  constructor
  · rintro ⟨written, whole, maximal⟩
    rw [List.forall_mem_cons] at whole
    rw [List.isChain_cons] at maximal
    exact ⟨whole.1, maximal.1, _, ⟨rfl, whole.2, maximal.2⟩, written.symm⟩
  · rintro ⟨whole, maximal, others, ⟨rfl, wholeRest, maximalRest⟩, rfl⟩
    exact ⟨rfl, List.forall_mem_cons.mpr ⟨whole, wholeRest⟩,
      List.isChain_cons.mpr ⟨maximal, maximalRest⟩⟩

/-- A run of signs in front of terms becomes signs of the first. -/
theorem foldr_extend_signs {signs : Text} (all : ∀ character ∈ signs, isSign character = true)
    (text : Text) (rest : List Term) :
    signs.foldr extend (⟨[], text⟩ :: rest) = ⟨signs, text⟩ :: rest := by
  induction signs with
  | nil => rfl
  | cons first others ih =>
      rw [List.foldr_cons, ih fun character member => all character (by simp [member])]
      simp [extend, all first (by simp)]

/-- A run of signs behind which there is nothing. -/
theorem foldr_extend_last_signs {signs : Text} (nonempty : signs ≠ [])
    (all : ∀ character ∈ signs, isSign character = true) :
    signs.foldr extend [] = [⟨signs, []⟩] := by
  induction signs with
  | nil => exact absurd rfl nonempty
  | cons first others ih =>
      have isFirst := all first (by simp)
      cases others with
      | nil => simp [extend, isFirst]
      | cons second more =>
          have later := ih (by simp) fun character member => all character (by simp [member])
          rw [List.foldr_cons, later]
          simp [extend, isFirst]

theorem eq_terms_of_isDivision {text : Text} {division : List Term}
    (divides : IsDivision text division) : division = terms text := by
  induction division generalizing text with
  | nil =>
      obtain rfl : [] = text := divides.written
      rfl
  | cons first rest ih =>
      obtain ⟨whole, maximal, others, dividesRest, rfl⟩ := isDivision_cons.mp divides
      obtain ⟨signs, text⟩ := first
      rw [terms, List.foldr_append, List.foldr_append, ← terms, ← ih dividesRest]
      by_cases bare : text = []
      · have last : rest = [] := by
          cases rest with
          | nil => rfl
          | cons next later => exact absurd bare (maximal next rfl).1
        subst bare last
        rw [List.foldr_nil, foldr_extend_last_signs (by simpa using whole.nonempty) whole.signs]
      · rw [foldr_extend_text bare whole.text fun next isNext => (maximal next isNext).2,
          foldr_extend_signs whole.signs]

theorem isDivision_extend {text : Text} {division : List Term}
    (divides : IsDivision text division) (character : Char) :
    IsDivision (character :: text) (extend character division) := by
  by_cases signed : isSign character = true
  · have sign : (⟨[character], []⟩ : Term).IsWhole := ⟨by simp [signed], by simp, by simp⟩
    cases division with
    | nil =>
        simp only [extend, signed, if_true]
        exact isDivision_cons.mpr ⟨sign, by simp, text, divides, rfl⟩
    | cons first rest =>
        obtain ⟨whole, maximal, others, dividesRest, rfl⟩ := isDivision_cons.mp divides
        have longer : (⟨character :: first.signs, first.text⟩ : Term).IsWhole :=
          ⟨List.forall_mem_cons.mpr ⟨signed, whole.signs⟩, whole.text, by simp⟩
        simp only [extend, signed, if_true]
        exact isDivision_cons.mpr ⟨longer, maximal, others, dividesRest, rfl⟩
  · have unsigned : isSign character = false := by simpa using signed
    have alone : (⟨[], [character]⟩ : Term).IsWhole := ⟨by simp, by simp [unsigned], by simp⟩
    cases division with
    | nil =>
        simp only [extend, if_neg signed]
        exact isDivision_cons.mpr ⟨alone, by simp, text, divides, rfl⟩
    | cons first rest =>
        obtain ⟨signs, term⟩ := first
        by_cases bare : signs = []
        · obtain ⟨whole, maximal, others, dividesRest, rfl⟩ := isDivision_cons.mp divides
          have longer : (⟨[], character :: term⟩ : Term).IsWhole :=
            ⟨by simp, List.forall_mem_cons.mpr ⟨unsigned, whole.text⟩, by simp⟩
          subst bare
          simp only [extend, if_neg signed, if_true]
          exact isDivision_cons.mpr ⟨longer, fun next isNext =>
            ⟨List.cons_ne_nil _ _, (maximal next isNext).2⟩, others, dividesRest, rfl⟩
        · simp only [extend, if_neg signed, if_neg bare]
          exact isDivision_cons.mpr ⟨alone, by simp [bare], text, divides, rfl⟩

theorem isDivision_iff {text : Text} {division : List Term} :
    IsDivision text division ↔ division = terms text := by
  constructor
  · exact eq_terms_of_isDivision
  · rintro rfl
    induction text with
    | nil => exact isDivision_nil
    | cons first rest ih => exact isDivision_extend ih first

/-- Only behind the last signs of a text can there be nothing. -/
theorem texts_ne_nil_iff {text : Text} {division : List Term} (divides : IsDivision text division) :
    (∀ term ∈ division, term.text ≠ []) ↔ ∀ last ∈ text.getLast?, isSign last = false := by
  induction division generalizing text with
  | nil =>
      obtain rfl : [] = text := divides.written
      simp
  | cons first rest ih =>
      obtain ⟨whole, maximal, others, dividesRest, rfl⟩ := isDivision_cons.mp divides
      rw [List.forall_mem_cons, ih dividesRest]
      cases rest with
      | nil =>
          obtain rfl : [] = others := dividesRest.written
          by_cases bare : first.text = []
          · have signed : first.signs ≠ [] := by simpa [bare] using whole.nonempty
            have isLast := whole.signs _ (List.getLast_mem signed)
            simp [bare, List.getLast?_eq_some_getLast signed, isLast]
          · have isLast := whole.text _ (List.getLast_mem bare)
            simp [bare, List.getLast?_append, List.getLast?_eq_some_getLast bare, isLast]
      | cons next later =>
          have nonempty : others ≠ [] := by
            rw [← dividesRest.written, List.flatMap_cons]
            exact List.append_ne_nil_of_left_ne_nil (dividesRest.whole next (by simp)).nonempty _
          simp [(maximal next rfl).1, List.getLast?_append,
            List.getLast?_eq_some_getLast nonempty]

/-! ## Values of terms -/

/-- A term stands for a number: the address of the line, a written number, or the address
of a label that is known. -/
inductive Denotes (here : UInt16) (lookup : Text → Option UInt16) : Text → Int → Prop where
  | here : Denotes here lookup ['$'] here.toNat
  | number {term : Text} {value : Int} (read : Number.read? term = some value) :
      Denotes here lookup term value
  | label {term : Text} {address : UInt16} (identifier : isIdentifier term = true)
      (known : lookup term = some address) : Denotes here lookup term address.toNat

/-- A term stands for no number, and what is wrong with it. -/
inductive Fails (lookup : Text → Option UInt16) : Text → Flaw → Prop where
  | missing : Fails lookup [] .missingTerm
  | undefined {term : Text} (identifier : isIdentifier term = true)
      (unknown : lookup term = none) : Fails lookup term (.undefined term)
  | invalid {term : Text} (nonempty : term ≠ []) (notHere : term ≠ ['$'])
      (notNumber : Number.read? term = none) (notName : isIdentifier term = false) :
      Fails lookup term (.invalidTerm term)

variable {here : UInt16} {lookup : Text → Option UInt16}

theorem ne_of_isIdentifier {term : Text} (identifier : isIdentifier term = true) :
    term ≠ [] ∧ term ≠ ['$'] := by
  refine ⟨ne_nil_of_isIdentifier identifier, ?_⟩
  rintro rfl
  exact absurd identifier (by decide)

theorem ne_of_read? {term : Text} {value : Int} (read : Number.read? term = some value) :
    term ≠ [] ∧ term ≠ ['$'] := by
  have noNumber : Number.read? [] = none ∧ Number.read? ['$'] = none := by decide
  constructor
  · rintro rfl
    rw [noNumber.1] at read
    cases read
  · rintro rfl
    rw [noNumber.2] at read
    cases read

theorem ne_nil_of_denotes {term : Text} {value : Int}
    (denotes : Denotes here lookup term value) : term ≠ [] := by
  cases denotes with
  | here => exact List.cons_ne_nil _ _
  | number read => exact (ne_of_read? read).1
  | label identifier known => exact (ne_of_isIdentifier identifier).1

theorem termValue_of_denotes {term : Text} {value : Int}
    (denotes : Denotes here lookup term value) : termValue here lookup term = .ok value := by
  cases denotes with
  | here => rfl
  | number read =>
      obtain ⟨nonempty, notHere⟩ := ne_of_read? read
      simp only [termValue, if_neg nonempty, if_neg notHere, read]
  | label identifier known =>
      obtain ⟨nonempty, notHere⟩ := ne_of_isIdentifier identifier
      simp only [termValue, if_neg nonempty, if_neg notHere,
        Number.read?_identifier identifier, identifier, if_true, known]

theorem termValue_of_fails {term : Text} {flaw : Flaw} (fails : Fails lookup term flaw) :
    termValue here lookup term = .error flaw := by
  cases fails with
  | missing => rfl
  | undefined identifier unknown =>
      obtain ⟨nonempty, notHere⟩ := ne_of_isIdentifier identifier
      simp only [termValue, if_neg nonempty, if_neg notHere,
        Number.read?_identifier identifier, identifier, if_true, unknown]
  | invalid nonempty notHere notNumber notName =>
      simp only [termValue, if_neg nonempty, if_neg notHere, notNumber, notName,
        Bool.false_eq_true, if_false]

/-- A term stands for a number or there is something wrong with it. -/
theorem denotes_or_fails (here : UInt16) (lookup : Text → Option UInt16) (term : Text) :
    (∃ value, Denotes here lookup term value) ∨ ∃ flaw, Fails lookup term flaw := by
  by_cases empty : term = []
  · exact Or.inr ⟨_, empty ▸ Fails.missing⟩
  by_cases isHere : term = ['$']
  · exact Or.inl ⟨_, isHere ▸ Denotes.here⟩
  cases read : Number.read? term with
  | some value => exact Or.inl ⟨value, Denotes.number read⟩
  | none =>
      cases identifier : isIdentifier term with
      | false => exact Or.inr ⟨_, Fails.invalid empty isHere read identifier⟩
      | true =>
          cases known : lookup term with
          | some address => exact Or.inl ⟨_, Denotes.label identifier known⟩
          | none => exact Or.inr ⟨_, Fails.undefined identifier known⟩

theorem termValue_eq_ok {term : Text} {value : Int} :
    termValue here lookup term = .ok value ↔ Denotes here lookup term value := by
  refine ⟨?_, termValue_of_denotes⟩
  intro valued
  obtain ⟨other, denotes⟩ | ⟨flaw, fails⟩ := denotes_or_fails here lookup term
  · obtain rfl := Except.ok.inj ((termValue_of_denotes denotes).symm.trans valued)
    exact denotes
  · cases (termValue_of_fails fails).symm.trans valued

theorem termValue_eq_error {term : Text} {flaw : Flaw} :
    termValue here lookup term = .error flaw ↔ Fails lookup term flaw := by
  refine ⟨?_, termValue_of_fails⟩
  intro failed
  obtain ⟨value, denotes⟩ | ⟨other, fails⟩ := denotes_or_fails here lookup term
  · cases (termValue_of_denotes denotes).symm.trans failed
  · obtain rfl := Except.error.inj ((termValue_of_fails fails).symm.trans failed)
    exact fails

/-! ## Sums -/

theorem factor_eq_pow (signs : Text) : factor signs = (-1) ^ signs.count '-' := by
  unfold factor
  split
  · rename_i even
    rw [Even.neg_one_pow (Nat.even_iff.mpr even)]
  · rename_i odd
    rw [Odd.neg_one_pow (Nat.odd_iff.mpr (by omega))]

/-- The sum of values, each with the signs before its term. -/
def signedSum (terms : List Term) (values : List Int) : Int :=
  (List.zipWith (fun term value => (-1) ^ term.signs.count '-' * value) terms values).sum

theorem signedSum_cons (term : Term) (rest : List Term) (value : Int) (values : List Int) :
    signedSum (term :: rest) (value :: values) =
      factor term.signs * value + signedSum rest values := by
  rw [signedSum, List.zipWith_cons_cons, List.sum_cons, factor_eq_pow]
  rfl

/-- Terms have the wrapped sum of their values, if every one of them has a value. -/
theorem sumFrom_eq_ok {terms : List Term} {total value : Int} (fits : Number.Fits total) :
    sumFrom here lookup total terms = .ok value ↔
      ∃ values, List.Forall₂ (fun term value => Denotes here lookup term.text value) terms
        values ∧ value = Number.wrap (total + signedSum terms values) := by
  induction terms generalizing total with
  | nil => simp [sumFrom, signedSum, Number.wrap_eq_self fits, eq_comm]
  | cons term rest ih =>
      have onwards (first : Int) (values : List Int) :
          Number.wrap (Number.wrap (total + factor term.signs * first) + signedSum rest values) =
            Number.wrap (total + signedSum (term :: rest) (first :: values)) := by
        rw [Number.wrap_wrap_add, signedSum_cons, Int.add_assoc]
      simp only [sumFrom, bind_eq_ok, termValue_eq_ok, ih (Number.fits_wrap _)]
      constructor
      · rintro ⟨first, denotes, values, restDenotes, rfl⟩
        exact ⟨first :: values, .cons denotes restDenotes, onwards first values⟩
      · rintro ⟨values, denotes, rfl⟩
        cases denotes with
        | cons denotes restDenotes =>
            exact ⟨_, denotes, _, restDenotes, (onwards _ _).symm⟩

/-- The first term from the left that stands for no number decides the failure. -/
theorem sumFrom_eq_error {terms : List Term} {total : Int} {flaw : Flaw} :
    sumFrom here lookup total terms = .error flaw ↔
      ∃ front term back, terms = front ++ term :: back ∧
        (∀ earlier ∈ front, ∃ value, Denotes here lookup earlier.text value) ∧
        Fails lookup term.text flaw := by
  induction terms generalizing total with
  | nil => simp [sumFrom]
  | cons first rest ih =>
      simp only [sumFrom, bind_eq_error, termValue_eq_ok, termValue_eq_error, ih]
      constructor
      · rintro (fails | ⟨value, denotes, front, term, back, rfl, earlier, fails⟩)
        · exact ⟨[], first, rest, rfl, by simp, fails⟩
        · exact ⟨first :: front, term, back, rfl,
            List.forall_mem_cons.mpr ⟨⟨value, denotes⟩, earlier⟩, fails⟩
      · rintro ⟨front, term, back, split, earlier, fails⟩
        cases front with
        | nil =>
            obtain ⟨rfl, rfl⟩ := List.cons.inj split
            exact Or.inl fails
        | cons head others =>
            obtain ⟨rfl, rfl⟩ := List.cons.inj split
            obtain ⟨⟨value, denotes⟩, earlierOthers⟩ := List.forall_mem_cons.mp earlier
            exact Or.inr ⟨value, denotes, others, term, back, rfl, earlierOthers, fails⟩

/-- There is a sum if every term stands for a number. -/
theorem exists_sumFrom_iff {terms : List Term} {total : Int} :
    (∃ value, sumFrom here lookup total terms = .ok value) ↔
      ∀ term ∈ terms, ∃ value, Denotes here lookup term.text value := by
  induction terms generalizing total with
  | nil => simp [sumFrom]
  | cons first rest ih =>
      simp only [List.forall_mem_cons, sumFrom, bind_eq_ok, termValue_eq_ok]
      constructor
      · rintro ⟨value, number, denotes, summed⟩
        exact ⟨⟨number, denotes⟩, ih.mp ⟨value, summed⟩⟩
      · rintro ⟨⟨number, denotes⟩, others⟩
        obtain ⟨value, summed⟩ := ih.mpr others
        exact ⟨value, number, denotes, summed⟩

theorem evaluateWith_eq_ok {text : Text} {value : Int} :
    evaluateWith here lookup text = .ok value ↔
      Text.compact text ≠ [] ∧
        sumFrom here lookup 0 (terms (Text.compact text)) = .ok value := by
  unfold evaluateWith
  by_cases empty : Text.compact text = [] <;> simp [empty]

theorem evaluateWith_eq_error {text : Text} {flaw : Flaw} :
    evaluateWith here lookup text = .error flaw ↔
      (Text.compact text = [] ∧ flaw = .missingValue) ∨
        sumFrom here lookup 0 (terms (Text.compact text)) = .error flaw := by
  unfold evaluateWith
  by_cases empty : Text.compact text = []
  · simp [empty, terms, sumFrom, eq_comm]
  · simp [empty]

/-- The terms of a text stand for numbers that add up to a total, however large. -/
def AddsUp (here : UInt16) (lookup : Text → Option UInt16) (text : Text) (total : Int) : Prop :=
  Text.compact text ≠ [] ∧ ∃ division values, IsDivision (Text.compact text) division ∧
    List.Forall₂ (fun term value => Denotes here lookup term.text value) division values ∧
    total = signedSum division values

/-- The value of a text is the sum of its terms as a number of 64 bits. -/
theorem evaluateWith_eq_ok_iff_addsUp {text : Text} {value : Int} :
    evaluateWith here lookup text = .ok value ↔
      ∃ total, AddsUp here lookup text total ∧ value = Number.wrap total := by
  rw [evaluateWith_eq_ok, sumFrom_eq_ok (by decide)]
  simp only [Int.zero_add]
  constructor
  · rintro ⟨nonempty, values, denote, rfl⟩
    exact ⟨_, ⟨nonempty, _, values, isDivision_iff.mpr rfl, denote, rfl⟩, rfl⟩
  · rintro ⟨_, ⟨nonempty, division, values, divides, denote, rfl⟩, rfl⟩
    obtain rfl := isDivision_iff.mp divides
    exact ⟨nonempty, values, denote, rfl⟩

theorem fits_of_evaluate {labels : Labels} {text : Text} {value : Int}
    (evaluated : evaluate here labels text = .ok value) : Number.Fits value := by
  obtain ⟨total, _, rfl⟩ := evaluateWith_eq_ok_iff_addsUp.mp evaluated
  exact Number.fits_wrap total

/-- A value is the sum of its terms, but for sums that are no number of 64 bits: of those it
has the last 64 bits. -/
theorem addsUp_of_evaluate {labels : Labels} {text : Text} {value : Int}
    (evaluated : evaluate here labels text = .ok value) :
    ∃ total, AddsUp here (fun name => labels.lookup name) text total ∧
      value = Number.wrap total ∧ (Number.Fits total → value = total) := by
  obtain ⟨total, addsUp, rfl⟩ := evaluateWith_eq_ok_iff_addsUp.mp evaluated
  exact ⟨total, addsUp, rfl, Number.wrap_eq_self⟩

/-- A text has the sum of its terms as its value, if that is a number of 64 bits. -/
theorem evaluate_of_addsUp {labels : Labels} {text : Text} {total : Int}
    (addsUp : AddsUp here (fun name => labels.lookup name) text total)
    (fits : Number.Fits total) : evaluate here labels text = .ok total :=
  evaluateWith_eq_ok_iff_addsUp.mpr ⟨total, addsUp, (Number.wrap_eq_self fits).symm⟩

/-- White space does not count, and the rest of the text is divided into the longest
terms in the one way there is, where a term is a number exactly if it is written in one of
the forms of numbers.  There is a value if the text has something in it, does not end in a
sign, and each of its terms stands for a number; these are added up with their signs, and
the value is their sum as long as that is a number of 64 bits.  Otherwise the text is empty
or the first term that stands for no number decides the failure. -/
theorem expressions_sum_terms (here : UInt16) (lookup : Text → Option UInt16) (text : Text) :
    (∀ other, Text.compact other = Text.compact text →
      evaluateWith here lookup other = evaluateWith here lookup text) ∧
    ∃ division, (∀ other, IsDivision (Text.compact text) other ↔ other = division) ∧
      (∀ term ∈ division, ∀ value,
        Number.read? term.text = some value ↔ NumberForm.Denotes term.text value) ∧
      ((∃ value, evaluateWith here lookup text = .ok value) ↔
        Text.compact text ≠ [] ∧
        (∀ last ∈ (Text.compact text).getLast?, isSign last = false) ∧
        ∀ term ∈ division, term.text ≠ [] → ∃ value, Denotes here lookup term.text value) ∧
      (∀ value, evaluateWith here lookup text = .ok value ↔
        Text.compact text ≠ [] ∧ ∃ values,
          List.Forall₂ (fun term value => Denotes here lookup term.text value) division values ∧
          value = Number.wrap (signedSum division values)) ∧
      (∀ values, Text.compact text ≠ [] →
        List.Forall₂ (fun term value => Denotes here lookup term.text value) division values →
        Number.Fits (signedSum division values) →
          evaluateWith here lookup text = .ok (signedSum division values)) ∧
      ∀ flaw, evaluateWith here lookup text = .error flaw ↔
        (Text.compact text = [] ∧ flaw = .missingValue) ∨
        ∃ front term back, division = front ++ term :: back ∧
          (∀ earlier ∈ front, ∃ value, Denotes here lookup earlier.text value) ∧
          Fails lookup term.text flaw := by
  have divides : IsDivision (Text.compact text) (terms (Text.compact text)) :=
    isDivision_iff.mpr rfl
  have valued (value : Int) : evaluateWith here lookup text = .ok value ↔
      Text.compact text ≠ [] ∧ ∃ values,
        List.Forall₂ (fun term value => Denotes here lookup term.text value)
          (terms (Text.compact text)) values ∧
        value = Number.wrap (signedSum (terms (Text.compact text)) values) := by
    rw [evaluateWith_eq_ok, sumFrom_eq_ok (by decide)]
    simp only [Int.zero_add]
  refine ⟨fun other same => ?_, terms (Text.compact text), fun _ => isDivision_iff, ?_, ?_,
    valued, ?_, ?_⟩
  · rw [evaluateWith, same, evaluateWith]
  · intro term member value
    exact NumberForm.read?_iff_denotes (divides.isBlank_of_mem member)
      (divides.whole term member).text
  · simp only [evaluateWith_eq_ok, exists_and_left, exists_sumFrom_iff,
      ← texts_ne_nil_iff divides]
    refine and_congr_right fun _ =>
      ⟨fun denote => ⟨?_, fun term member _ => denote term member⟩, ?_⟩
    · intro term member bare
      obtain ⟨value, denotes⟩ := denote term member
      exact (ne_nil_of_denotes denotes) bare
    · rintro ⟨nonempty, denote⟩ term member
      exact denote term member (nonempty term member)
  · intro values nonempty denote fits
    exact (valued _).mpr ⟨nonempty, values, denote, (Number.wrap_eq_self fits).symm⟩
  · intro flaw
    rw [evaluateWith_eq_error, sumFrom_eq_error]

/-- Signs may be repeated, and white space inside a term does not end it. -/
example : evaluateWith 0x100 (fun name => if name = "start".toList then some 0x8000 else none)
    "$ - -st art+-1 0".toList = .ok 0x80F6 := by
  decide

end Expression

end Z80
