import Mathlib.Algebra.Ring.Parity
import Mathlib.Data.List.TakeWhile
import Z80.Proofs.WrittenNumbers
import Z80.Text.Quoted

/-!
# White space and strings in texts

A text is trimmed whatever white space stands around it.  A text whose strings are closed
and enclose every separator passes through the search for a separator as a whole, so that
texts of this kind are divided where they were joined.
-/

namespace Z80

/-! ## White space around a text -/

namespace Text

/-- There is nothing but white space in a text. -/
def Blank (text : Text) : Prop :=
  ∀ character ∈ text, isBlank character = true

/-- A text is another one with white space around it. -/
def IsPadded (token text : Text) : Prop :=
  ∃ left right, Blank left ∧ Blank right ∧ text = left ++ token ++ right

/-- There is no white space at the ends of a text. -/
structure IsTrimmed (text : Text) : Prop where
  front : ∀ character ∈ text.head?, isBlank character = false
  back : ∀ character ∈ text.getLast?, isBlank character = false

instance (text : Text) : Decidable (Blank text) :=
  List.decidableBAll _ text

instance (text : Text) : Decidable (IsTrimmed text) :=
  decidable_of_iff (text.head?.all (fun character => !isBlank character) = true ∧
      text.getLast?.all (fun character => !isBlank character) = true) <| by
    simp only [Option.all_eq_true, Bool.not_eq_true']
    exact ⟨fun ⟨front, back⟩ => ⟨front, back⟩, fun ⟨front, back⟩ => ⟨front, back⟩⟩

theorem Blank.nil : Blank [] := by
  simp [Blank]

theorem Blank.not_mem {text : Text} (blank : Blank text) {character : Char}
    (solid : isBlank character = false) : character ∉ text := by
  intro member
  rw [blank character member] at solid
  cases solid

theorem Blank.reverse {text : Text} (blank : Blank text) : Blank text.reverse :=
  fun character member => blank character (List.mem_reverse.mp member)

theorem IsTrimmed.of_forall {text : Text}
    (solid : ∀ character ∈ text, isBlank character = false) : IsTrimmed text :=
  ⟨fun character first => solid character (List.mem_of_mem_head? first),
    fun character last => solid character (List.mem_of_mem_getLast? last)⟩

theorem IsTrimmed.trim {text : Text} (trimmed : IsTrimmed text) : trim text = text :=
  trim_eq_self trimmed.front trimmed.back

theorem IsPadded.of_blank {text : Text} (blank : Blank text) : IsPadded [] text :=
  ⟨text, [], blank, Blank.nil, by simp⟩

theorem trimStart_append {left : Text} (blank : Blank left) (text : Text) :
    trimStart (left ++ text) = trimStart text :=
  List.dropWhile_append_of_pos blank

theorem trimEnd_append {right : Text} (blank : Blank right) (text : Text) :
    trimEnd (text ++ right) = trimEnd text := by
  rw [trimEnd, List.reverse_append, trimStart_append blank.reverse, trimEnd]

theorem IsPadded.trim_eq {token text : Text} (padded : IsPadded token text) :
    trim text = trim token := by
  obtain ⟨left, right, blankLeft, blankRight, rfl⟩ := padded
  rw [List.append_assoc, trim, trimStart_append blankLeft, trim]
  rw [trimStart, List.dropWhile_append]
  split
  · rename_i empty
    have blank : trimStart right = [] := by
      rw [← List.append_nil right, trimStart_append blankRight]
      rfl
    rw [List.isEmpty_iff] at empty
    rw [trimStart, empty]
    exact congrArg trimEnd blank
  · exact trimEnd_append blankRight _

theorem exists_trimEnd (text : Text) : ∃ right, Blank right ∧ text = trimEnd text ++ right := by
  refine ⟨(text.reverse.takeWhile isBlank).reverse, ?_, ?_⟩
  · exact Blank.reverse fun character member => List.mem_takeWhile_imp member
  · rw [trimEnd, trimStart, ← List.reverse_append, List.takeWhile_append_dropWhile,
      List.reverse_reverse]

theorem isPadded_trimEnd (text : Text) : IsPadded (trimEnd text) text := by
  obtain ⟨right, blank, same⟩ := exists_trimEnd text
  exact ⟨[], right, Blank.nil, blank, same⟩

theorem isPadded_trim (text : Text) : IsPadded (trim text) text := by
  obtain ⟨right, blank, same⟩ := exists_trimEnd (trimStart text)
  refine ⟨text.takeWhile isBlank, right, fun _ member => List.mem_takeWhile_imp member, blank, ?_⟩
  rw [trim, List.append_assoc, ← same, trimStart, List.takeWhile_append_dropWhile]

/-- Trimming stops at a text in front that has no white space at its ends. -/
theorem trim_append {left core : Text} (blank : Blank left) (nonempty : core ≠ [])
    (trimmed : IsTrimmed core) (tail : Text) :
    trim (left ++ core ++ tail) = core ++ trimEnd tail := by
  have start : trimStart (core ++ tail) = core ++ tail := by
    obtain ⟨first, rest, rfl⟩ := List.exists_cons_of_ne_nil nonempty
    exact List.dropWhile_cons_of_neg (by simpa using trimmed.front first rfl)
  have stop : trimStart core.reverse = core.reverse := by
    obtain ⟨last, rest, same⟩ :=
      List.exists_cons_of_ne_nil (mt List.reverse_eq_nil_iff.mp nonempty)
    have isLast : last ∈ core.getLast? := by
      rw [← List.head?_reverse, same]
      rfl
    rw [same]
    exact List.dropWhile_cons_of_neg (by simpa using trimmed.back last isLast)
  rw [List.append_assoc, trim, trimStart_append blank, start, trimEnd, List.reverse_append,
    trimStart, List.dropWhile_append]
  split
  · rename_i empty
    rw [List.isEmpty_iff] at empty
    rw [← trimStart, stop, List.reverse_reverse, trimEnd, trimStart, empty]
    simp
  · rw [List.reverse_append, List.reverse_reverse, trimEnd, trimStart]

end Text

/-! ## Marks inside strings -/

namespace Quoted

/-- Every occurrence of a mark is inside a string: an odd number of quotes comes before. -/
def Sheltered (mark : Char) (text : Text) : Prop :=
  ∀ front back, text = front ++ mark :: back → Odd (front.count quote)

/-- A text stands before the first mark outside strings, or is all there is. -/
def IsBefore (mark : Char) (text front : Text) : Prop :=
  Sheltered mark front ∧
    (text = front ∨ ∃ back, text = front ++ mark :: back ∧ Even (front.count quote))

/-- Every occurrence of a mark is inside a string, where the text itself begins inside a
string or not. -/
def ShelteredFrom (mark : Char) (inside : Bool) : Text → Prop
  | [] => True
  | character :: rest =>
      (character = mark → inside = true) ∧ ShelteredFrom mark (after inside character) rest

/-- The strings of a text are closed, and every occurrence of a mark is inside one. -/
structure Encloses (mark : Char) (text : Text) : Prop where
  closed : text.foldl after false = false
  sheltered : ShelteredFrom mark false text

theorem foldl_after (inside : Bool) (text : Text) :
    text.foldl after inside = (inside ^^ decide (Odd (text.count quote))) := by
  induction text generalizing inside with
  | nil => simp
  | cons first rest ih =>
      rw [List.foldl_cons, ih, after]
      by_cases isQuote : first = quote
      · rw [if_pos isQuote, isQuote, List.count_cons_self]
        cases inside <;> simp [Nat.odd_add_one, -Nat.not_odd_iff_even]
      · rw [if_neg isQuote, List.count_cons_of_ne isQuote]

theorem foldl_after_false {text : Text} :
    text.foldl after false = true ↔ Odd (text.count quote) := by
  rw [foldl_after, Bool.false_xor, decide_eq_true_eq]

theorem shelteredFrom_iff {mark : Char} {inside : Bool} {text : Text} :
    ShelteredFrom mark inside text ↔
      ∀ front back, text = front ++ mark :: back → front.foldl after inside = true := by
  induction text generalizing inside with
  | nil => simp [ShelteredFrom]
  | cons first rest ih =>
      rw [ShelteredFrom, ih]
      constructor
      · rintro ⟨here, later⟩ front back split
        cases front with
        | nil => exact here (List.cons.inj split).1
        | cons head others =>
            obtain ⟨rfl, restEq⟩ := List.cons.inj split
            exact later others back restEq
      · intro all
        refine ⟨fun isMark => all [] rest (by rw [isMark]; rfl), fun front back split => ?_⟩
        exact all (first :: front) back (by rw [split]; rfl)

theorem sheltered_iff {mark : Char} {text : Text} :
    Sheltered mark text ↔ ShelteredFrom mark false text := by
  simp only [Sheltered, shelteredFrom_iff, foldl_after_false]

instance decidableShelteredFrom (mark : Char) :
    (inside : Bool) → (text : Text) → Decidable (ShelteredFrom mark inside text)
  | _, [] => .isTrue trivial
  | inside, character :: rest =>
      have := decidableShelteredFrom mark (after inside character) rest
      inferInstanceAs (Decidable ((character = mark → inside = true) ∧
        ShelteredFrom mark (after inside character) rest))

instance (mark : Char) (text : Text) : Decidable (Sheltered mark text) :=
  decidable_of_iff _ sheltered_iff.symm

theorem isClosed_iff {text : Text} : isClosed text = true ↔ Even (text.count quote) := by
  rw [isClosed, beq_iff_eq, Nat.even_iff]

theorem foldl_after_of_even {text : Text} (balanced : Even (text.count quote)) :
    text.foldl after false = false := by
  rw [foldl_after]
  simpa using balanced

theorem Encloses.isClosed {mark : Char} {text : Text} (encloses : Encloses mark text) :
    isClosed text = true := by
  have closed := encloses.closed
  rw [foldl_after] at closed
  rw [isClosed_iff]
  simpa using closed

theorem shelteredFrom_append {mark : Char} {inside : Bool} {front back : Text} :
    ShelteredFrom mark inside (front ++ back) ↔
      ShelteredFrom mark inside front ∧
        ShelteredFrom mark (front.foldl after inside) back := by
  induction front generalizing inside with
  | nil => simp [ShelteredFrom]
  | cons first rest ih =>
      simp only [List.cons_append, ShelteredFrom, ih, List.foldl_cons, and_assoc]

theorem foldl_after_of_not_mem {inside : Bool} {text : Text} (absent : quote ∉ text) :
    text.foldl after inside = inside := by
  rw [foldl_after, List.count_eq_zero_of_not_mem absent]
  simp

theorem shelteredFrom_of_not_mem {mark : Char} {inside : Bool} {text : Text}
    (absent : mark ∉ text) : ShelteredFrom mark inside text := by
  rw [shelteredFrom_iff]
  rintro front back rfl
  simp at absent

theorem Encloses.of_not_mem {mark : Char} {text : Text} (absent : mark ∉ text)
    (unquoted : quote ∉ text) : Encloses mark text :=
  ⟨foldl_after_of_not_mem unquoted, shelteredFrom_of_not_mem absent⟩

theorem Encloses.append {mark : Char} {front back : Text} (first : Encloses mark front)
    (second : Encloses mark back) : Encloses mark (front ++ back) := by
  constructor
  · rw [List.foldl_append, first.closed, second.closed]
  · rw [shelteredFrom_append, first.closed]
    exact ⟨first.sheltered, second.sheltered⟩

theorem Encloses.join {mark : Char} {separator : Text} (between : Encloses mark separator)
    {texts : List Text} (all : ∀ text ∈ texts, Encloses mark text) :
    Encloses mark (Text.join separator texts) := by
  induction texts with
  | nil => exact of_not_mem (by simp [Text.join]) (by simp [Text.join])
  | cons first rest ih =>
      cases rest with
      | nil => exact all first (by simp)
      | cons second others =>
          have later := ih fun text member => all text (List.mem_cons_of_mem _ member)
          exact ((all first (by simp)).append between).append later

theorem quote_not_mem {text : Text} (blank : Text.Blank text) : quote ∉ text :=
  blank.not_mem (by decide)

theorem Encloses.of_blank {mark : Char} (solid : Text.isBlank mark = false) {text : Text}
    (blank : Text.Blank text) : Encloses mark text :=
  .of_not_mem (blank.not_mem solid) (quote_not_mem blank)

/-- White space at the ends encloses every mark that is none. -/
theorem encloses_iff_of_isPadded {mark : Char} (solid : Text.isBlank mark = false)
    {token text : Text} (padded : Text.IsPadded token text) :
    Encloses mark text ↔ Encloses mark token := by
  obtain ⟨left, right, blankLeft, blankRight, rfl⟩ := padded
  have front := Encloses.of_blank solid blankLeft
  have back := Encloses.of_blank solid blankRight
  constructor
  · rintro ⟨closed, sheltered⟩
    rw [List.foldl_append, List.foldl_append, front.closed,
      foldl_after_of_not_mem (quote_not_mem blankRight)] at closed
    rw [shelteredFrom_append, shelteredFrom_append, front.closed] at sheltered
    exact ⟨closed, sheltered.1.2⟩
  · exact fun encloses => (front.append encloses).append back

/-! ## Divisions at marks -/

theorem cutFrom?_append {separator : Char} {inside : Bool} {text : Text}
    (sheltered : ShelteredFrom separator inside text) (rest : Text) :
    cutFrom? separator inside (text ++ rest) =
      (cutFrom? separator (text.foldl after inside) rest).map fun parts =>
        (text ++ parts.1, parts.2) := by
  induction text generalizing inside with
  | nil => simp
  | cons first others ih =>
      obtain ⟨here, later⟩ := sheltered
      rw [List.cons_append, cutFrom?, if_neg (by simpa using here), ih later, Option.map_map]
      rfl

theorem cut?_append {separator : Char} {text : Text} (encloses : Encloses separator text)
    (rest : Text) :
    cut? separator (text ++ rest) =
      (cut? separator rest).map fun parts => (text ++ parts.1, parts.2) := by
  rw [cut?, cutFrom?_append encloses.sheltered, encloses.closed, cut?]

theorem cut?_eq_none {separator : Char} {text : Text} (sheltered : Sheltered separator text) :
    cut? separator text = none := by
  have whole := cutFrom?_append (sheltered_iff.mp sheltered) []
  rw [List.append_nil] at whole
  rw [cut?, whole]
  rfl

theorem cut?_separator (separator : Char) (rest : Text) :
    cut? separator (separator :: rest) = some ([], rest) := by
  simp [cut?, cutFrom?]

theorem before_append {mark : Char} {text : Text} (encloses : Encloses mark text)
    (rest : Text) : before mark (text ++ rest) = text ++ before mark rest := by
  rw [before, cut?_append encloses, before]
  cases cut? mark rest <;> rfl

theorem isBefore_of_cutFrom? {mark : Char} {inside : Bool} {text : Text} :
    match cutFrom? mark inside text with
    | none => ShelteredFrom mark inside text
    | some (front, back) => text = front ++ mark :: back ∧
        ShelteredFrom mark inside front ∧ front.foldl after inside = false := by
  induction text generalizing inside with
  | nil => trivial
  | cons first rest ih =>
      rw [cutFrom?]
      split_ifs with divides
      · simp only [Bool.and_eq_true, decide_eq_true_eq, Bool.not_eq_true'] at divides
        exact ⟨by rw [divides.1]; rfl, trivial, divides.2⟩
      · have here : first = mark → inside = true := by simpa using divides
        have later := @ih (after inside first)
        cases result : cutFrom? mark (after inside first) rest with
        | none =>
            rw [result] at later
            exact ⟨here, later⟩
        | some parts =>
            rw [result] at later
            obtain ⟨same, sheltered, outside⟩ := later
            exact ⟨congrArg (first :: ·) same, ⟨here, sheltered⟩, outside⟩

/-- The part of a text before the first mark outside strings. -/
theorem isBefore_iff {mark : Char} {text front : Text} :
    IsBefore mark text front ↔ front = before mark text := by
  constructor
  · rintro ⟨sheltered, rfl | ⟨back, rfl, balanced⟩⟩
    · rw [before, cut?_eq_none sheltered]
      rfl
    · have encloses : Encloses mark front :=
        ⟨foldl_after_of_even balanced, sheltered_iff.mp sheltered⟩
      rw [before_append encloses, before, cut?_separator]
      exact (List.append_nil front).symm
  · rintro rfl
    have divided := @isBefore_of_cutFrom? mark false text
    rw [before, cut?]
    cases result : cutFrom? mark false text with
    | none =>
        rw [result] at divided
        exact ⟨sheltered_iff.mpr divided, Or.inl rfl⟩
    | some parts =>
        rw [result] at divided
        obtain ⟨same, sheltered, outside⟩ := divided
        refine ⟨sheltered_iff.mpr sheltered, Or.inr ⟨parts.2, same, ?_⟩⟩
        rw [← Nat.not_odd_iff_even, ← foldl_after_false, Option.elim, outside]
        exact Bool.false_ne_true

theorem splitFrom_ne_nil (separator : Char) (inside : Bool) (text : Text) :
    splitFrom separator inside text ≠ [] := by
  cases text with
  | nil => simp [splitFrom]
  | cons first rest =>
      rw [splitFrom]
      split
      · simp
      · split <;> simp

theorem splitFrom_cons_of_sheltered {separator : Char} {inside : Bool} {first : Char}
    (here : first = separator → inside = true) (rest : Text) :
    splitFrom separator inside (first :: rest) =
      (splitFrom separator (after inside first) rest).modifyHead (first :: ·) := by
  rw [splitFrom, if_neg (by simpa using here)]
  obtain ⟨head, tail, same⟩ :=
    List.exists_cons_of_ne_nil (splitFrom_ne_nil separator (after inside first) rest)
  rw [same]
  rfl

theorem splitFrom_append {separator : Char} {inside : Bool} {text : Text}
    (sheltered : ShelteredFrom separator inside text) (rest : Text) :
    splitFrom separator inside (text ++ rest) =
      (splitFrom separator (text.foldl after inside) rest).modifyHead (text ++ ·) := by
  induction text generalizing inside with
  | nil => exact (congrFun List.modifyHead_id _).symm
  | cons first others ih =>
      obtain ⟨here, later⟩ := sheltered
      rw [List.cons_append, splitFrom_cons_of_sheltered here, ih later, List.modifyHead_modifyHead]
      rfl

theorem split_append {separator : Char} {text : Text} (encloses : Encloses separator text)
    (rest : Text) :
    split separator (text ++ rest) = (split separator rest).modifyHead (text ++ ·) := by
  rw [split, splitFrom_append encloses.sheltered, encloses.closed, split]

theorem split_separator (separator : Char) (rest : Text) :
    split separator (separator :: rest) = [] :: split separator rest := by
  simp [split, splitFrom]

/-- Texts whose strings enclose the separator are divided where they were joined. -/
theorem split_join {separator : Char} {texts : List Text} (nonempty : texts ≠ [])
    (all : ∀ text ∈ texts, Encloses separator text) :
    split separator (Text.join [separator] texts) = texts := by
  induction texts with
  | nil => exact absurd rfl nonempty
  | cons first rest ih =>
      have isFirst := all first (by simp)
      cases rest with
      | nil =>
          have whole := split_append isFirst []
          rw [List.append_nil] at whole
          rw [Text.join, whole]
          exact congrArg ([·]) (List.append_nil first)
      | cons second others =>
          have later := ih (by simp) fun text member => all text (List.mem_cons_of_mem _ member)
          rw [Text.join, List.append_assoc, List.singleton_append, split_append isFirst,
            split_separator, later]
          exact congrArg (· :: second :: others) (List.append_nil first)

/-- A text without separators at the end becomes the end of the last part. -/
theorem splitFrom_append_of_not_mem {separator : Char} {right : Text}
    (absent : separator ∉ right) (inside : Bool) (text : Text) :
    ∃ parts last, splitFrom separator inside text = parts ++ [last] ∧
      splitFrom separator inside (text ++ right) = parts ++ [last ++ right] := by
  induction text generalizing inside with
  | nil =>
      have sheltered : ShelteredFrom separator inside right := shelteredFrom_of_not_mem absent
      have whole := splitFrom_append sheltered []
      rw [List.append_nil] at whole
      refine ⟨[], [], rfl, ?_⟩
      rw [List.nil_append, whole]
      simp [splitFrom]
  | cons first rest ih =>
      rw [List.cons_append]
      by_cases divides : first = separator ∧ inside = false
      · obtain ⟨parts, last, plain, longer⟩ := ih inside
        refine ⟨[] :: parts, last, ?_, ?_⟩ <;> simp [splitFrom, divides, ← plain, ← longer]
      · have here : first = separator → inside = true := by simpa using divides
        obtain ⟨parts, last, plain, longer⟩ := ih (after inside first)
        rw [splitFrom_cons_of_sheltered here, splitFrom_cons_of_sheltered here, plain, longer]
        cases parts with
        | nil => exact ⟨[], first :: last, rfl, rfl⟩
        | cons head others => exact ⟨(first :: head) :: others, last, rfl, rfl⟩

/-- White space at the ends of a text changes the parts at both ends by white space. -/
theorem map_trim_split {separator : Char} (solid : Text.isBlank separator = false)
    {token text : Text} (padded : Text.IsPadded token text) :
    (split separator text).map Text.trim = (split separator token).map Text.trim := by
  obtain ⟨left, right, blankLeft, blankRight, rfl⟩ := padded
  have front := Encloses.of_blank solid blankLeft
  obtain ⟨parts, last, plain, longer⟩ :=
    splitFrom_append_of_not_mem (blankRight.not_mem solid) false token
  rw [List.append_assoc, split_append front, split, split, longer, plain]
  have atEnd (text : Text) : Text.trim (text ++ right) = Text.trim text :=
    Text.IsPadded.trim_eq ⟨[], right, Text.Blank.nil, blankRight, rfl⟩
  have atStart (text : Text) : Text.trim (left ++ text) = Text.trim text :=
    Text.IsPadded.trim_eq ⟨left, [], blankLeft, Text.Blank.nil, by simp⟩
  cases parts with
  | nil => simp [← List.append_assoc, atEnd, atStart]
  | cons head others => simp [atEnd, atStart]

end Quoted

end Z80
