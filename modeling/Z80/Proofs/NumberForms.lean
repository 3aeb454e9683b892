import Z80.CommandLine.Invocation
import Z80.Proofs.LetterCase

/-!
# Two readers of numbers

Source texts and the command line read numbers in much the same forms.  They look for the
marks of a form in different orders, and only source texts know binary numbers.  Where the
marks can be taken in two ways, one of the two readers finds a mark among the digits and
reads no number, so that the readers never differ in a value.
-/

namespace Z80

namespace Numeral

variable {radix limit : Nat} {text : Text}

/-! ## Digits -/

/-- A text of digits of a radix. -/
def IsRun (radix : Nat) (text : Text) : Prop :=
  ∀ character ∈ text, ∃ value, digitValue? radix character = some value

/-- A text without a sign in which a character is no digit of a radix. -/
structure IsBroken (radix : Nat) (text : Text) : Prop where
  unsigned : ∀ character ∈ text.head?, Expression.isSign character = false
  mark : ∃ character ∈ text, digitValue? radix character = none

/-- A digit is a digit of every larger radix. -/
theorem digitValue?_of_le {larger : Nat} (le : radix ≤ larger) {character : Char} {value : Nat}
    (read : digitValue? radix character = some value) :
    digitValue? larger character = some value := by
  simp only [digitValue?] at read ⊢
  split_ifs at read ⊢ <;> simp_all <;> omega

theorem lt_of_digitValue? {character : Char} {value : Nat}
    (read : digitValue? radix character = some value) : value < radix := by
  simp only [digitValue?, Option.ite_none_right_eq_some, Option.some.injEq] at read
  exact read.2 ▸ read.1

theorem toNat_lt_of_digitValue? {character : Char} {value : Nat}
    (read : digitValue? radix character = some value) : character.toNat < 128 := by
  have below {greatest : Char} (small : greatest.toNat < 128) (le : character ≤ greatest) :
      character.toNat < 128 := Nat.lt_of_le_of_lt (UInt32.le_iff_toNat_le.mp le) small
  simp only [digitValue?] at read
  split_ifs at read with decimal _ small _ capital _
  · exact below (by decide) decimal.2
  · exact below (by decide) small.2
  · exact below (by decide) capital.2
  · omega

/-- A hexadecimal digit is no white space and none of the marks of a number. -/
theorem hexDigit_facts {character : Char} {value : Nat}
    (read : digitValue? 16 character = some value) :
    Text.isBlank character = false ∧ Expression.isSign character = false ∧
      character ∉ ['h', 'x', '$', '%'] := by
  have small := toNat_lt_of_digitValue? read
  revert read
  suffices every : (digitValue? 16 character).isSome → Text.isBlank character = false ∧
      Expression.isSign character = false ∧ character ∉ ['h', 'x', '$', '%'] from
    fun read => every (Option.isSome_of_eq_some read)
  apply of_codes character small
  decide

theorem isDigit_of_digitValue? {character : Char} {value : Nat}
    (read : digitValue? 10 character = some value) : character.isDigit = true := by
  have small := toNat_lt_of_digitValue? read
  revert read
  suffices every : (digitValue? 10 character).isSome → character.isDigit = true from
    fun read => every (Option.isSome_of_eq_some read)
  apply of_codes character small
  decide

theorem digitValue?_digitChar {digit : Nat} (small : digit < radix) (hexadecimal : radix ≤ 16) :
    digitValue? radix digit.digitChar = some digit := by
  have every : ∀ radix ≤ 16, ∀ digit < radix, digitValue? radix digit.digitChar = some digit := by
    decide
  exact every radix hexadecimal digit small

/-! ## Runs of digits -/

theorem isRun_of_extend {start value : Nat} (read : extend radix limit start text = .ok value) :
    IsRun radix text := by
  induction text generalizing start with
  | nil => simp [IsRun]
  | cons first rest ih =>
      unfold extend at read
      cases isDigit : digitValue? radix first with
      | none =>
          rw [isDigit] at read
          cases read
      | some digit =>
          simp only [isDigit] at read
          split at read
          · exact List.forall_mem_cons.mpr ⟨⟨digit, isDigit⟩, ih read⟩
          · cases read

/-- The limit has no influence on a value. -/
theorem extend_unique {other start first second : Nat}
    (firstRead : extend radix limit start text = .ok first)
    (secondRead : extend radix other start text = .ok second) : first = second := by
  induction text generalizing start with
  | nil => exact Except.ok.inj (firstRead.symm.trans secondRead)
  | cons character rest ih =>
      unfold extend at firstRead secondRead
      cases isDigit : digitValue? radix character with
      | none =>
          rw [isDigit] at firstRead
          cases firstRead
      | some digit =>
          simp only [isDigit] at firstRead secondRead
          split at firstRead
          · split at secondRead
            · exact ih firstRead secondRead
            · cases secondRead
          · cases firstRead

theorem le_of_extend {start value : Nat} (le : start ≤ limit)
    (read : extend radix limit start text = .ok value) : value ≤ limit := by
  induction text generalizing start with
  | nil => exact Except.ok.inj read ▸ le
  | cons first rest ih =>
      unfold extend at read
      split at read
      · cases read
      · split at read
        · rename_i bounded
          exact ih bounded read
        · cases read

theorem extend_append (start : Nat) (front back : Text) :
    extend radix limit start (front ++ back) =
      (extend radix limit start front).bind fun value => extend radix limit value back := by
  induction front generalizing start with
  | nil => rfl
  | cons first rest ih =>
      simp only [List.cons_append, extend, ih]
      split
      · rfl
      · split <;> rfl

theorem extend_zeros (positive : 0 < radix) (zeros : Nat) (text : Text) :
    extend radix limit 0 (List.replicate zeros '0' ++ text) = extend radix limit 0 text := by
  induction zeros with
  | zero => rfl
  | succ zeros ih =>
      have zero : digitValue? radix '0' = some 0 := if_pos positive
      rw [List.replicate_succ, List.cons_append, extend, zero]
      simp only [Nat.zero_mul, Nat.add_zero, Nat.zero_le, if_true, ih]

theorem extend_digit {digit value : Nat} (small : digit < radix) (hexadecimal : radix ≤ 16)
    (bounded : value * radix + digit ≤ limit) :
    extend radix limit value [digit.digitChar] = .ok (value * radix + digit) := by
  rw [extend, digitValue?_digitChar small hexadecimal]
  exact if_pos bounded

/-- The digits of a number are read as that number. -/
theorem extend_toDigits (least : 2 ≤ radix) (hexadecimal : radix ≤ 16) {number : Nat}
    (bounded : number ≤ limit) :
    extend radix limit 0 (Nat.toDigits radix number) = .ok number := by
  induction number using Nat.strongRecOn with
  | ind number ih =>
      by_cases small : number < radix
      · rw [Nat.toDigits_of_lt_base small, extend_digit small hexadecimal (by omega)]
        congr 1
        omega
      · have shorter : number / radix < number := Nat.div_lt_self (by omega) (by omega)
        have whole := Nat.div_add_mod' number radix
        rw [Nat.toDigits_of_base_le (by omega) (by omega), extend_append,
          ih _ shorter (by omega)]
        change extend radix limit (number / radix) [(number % radix).digitChar] = _
        rw [extend_digit (Nat.mod_lt _ (by omega)) hexadecimal (by omega), whole]

theorem digitChar_of_digitValue? (hexadecimal : radix ≤ 16) {character : Char} {digit : Nat}
    (read : digitValue? radix character = some digit) (lower : character.toLower = character) :
    digit.digitChar = character := by
  have small := toNat_lt_of_digitValue? read
  replace read := digitValue?_of_le hexadecimal read
  revert read lower
  suffices every : character.toLower = character →
      ∀ digit ∈ digitValue? 16 character, digit.digitChar = character from
    fun lower read => every lower digit read
  apply of_codes character small
  decide

/-- Digits in lower case behind a number that is not zero are the rest of its numeral. -/
theorem toDigits_of_extend (least : 2 ≤ radix) (hexadecimal : radix ≤ 16)
    (lower : ∀ character ∈ text, character.toLower = character) {start value : Nat}
    (positive : 0 < start) (read : extend radix limit start text = .ok value) :
    Nat.toDigits radix value = Nat.toDigits radix start ++ text := by
  induction text generalizing start with
  | nil => rw [Except.ok.inj read, List.append_nil]
  | cons first rest ih =>
      obtain ⟨firstLower, restLower⟩ := List.forall_mem_cons.mp lower
      unfold extend at read
      split at read
      · cases read
      · rename_i digit isDigit
        split at read
        · have small := lt_of_digitValue? isDigit
          have longer := Nat.toDigits_append_toDigits (by omega) positive small
          rw [Nat.toDigits_of_lt_base small,
            digitChar_of_digitValue? hexadecimal isDigit firstLower] at longer
          rw [Nat.mul_comm start radix] at read
          rw [ih restLower (Nat.add_pos_left (Nat.mul_pos (by omega) positive) _) read, ← longer,
            List.append_assoc, List.singleton_append]
        · cases read

/-- Digits in lower case are the numeral of the number that they are read as, behind some
zeros. -/
theorem exists_zeros_of_extend (least : 2 ≤ radix) (hexadecimal : radix ≤ 16)
    (nonempty : text ≠ []) (lower : ∀ character ∈ text, character.toLower = character)
    {value : Nat} (read : extend radix limit 0 text = .ok value) :
    ∃ zeros, text = List.replicate zeros '0' ++ Nat.toDigits radix value := by
  induction text with
  | nil => exact absurd rfl nonempty
  | cons first rest ih =>
      obtain ⟨firstLower, restLower⟩ := List.forall_mem_cons.mp lower
      unfold extend at read
      split at read
      · cases read
      · rename_i digit isDigit
        have firstEq := digitChar_of_digitValue? hexadecimal isDigit firstLower
        split at read
        · rw [Nat.zero_mul, Nat.zero_add] at read
          rcases Nat.eq_zero_or_pos digit with rfl | positive
          · obtain rfl : '0' = first := firstEq
            by_cases last : rest = []
            · subst last
              obtain rfl := Except.ok.inj read
              exact ⟨0, by rw [Nat.toDigits_zero]; rfl⟩
            · obtain ⟨zeros, rfl⟩ := ih last restLower read
              exact ⟨zeros + 1, rfl⟩
          · have small := lt_of_digitValue? isDigit
            refine ⟨0, ?_⟩
            rw [toDigits_of_extend least hexadecimal restLower positive read,
              Nat.toDigits_of_lt_base small, firstEq]
            rfl
        · cases read

/-! ## Signs -/

/-- The text behind an optional plus sign. -/
def unsigned : Text → Text
  | '+' :: rest => rest
  | text => text

theorem unsigned_eq (notPlus : text.head? ≠ some '+') : unsigned text = text := by
  unfold unsigned
  split
  · exact absurd rfl notPlus
  · rfl

theorem natural_eq_ok {value : Nat} :
    natural radix limit text = .ok value ↔
      unsigned text ≠ [] ∧ extend radix limit 0 (unsigned text) = .ok value := by
  have isRead (rest : Text) :
      digits radix limit rest = .ok value ↔
        rest ≠ [] ∧ extend radix limit 0 rest = .ok value := by
    by_cases empty : rest = [] <;> simp [digits, empty]
  unfold natural
  split
  · simp [unsigned]
  · exact isRead _
  · rename_i notPlus
    rw [unsigned_eq, isRead]
    intro plus
    obtain ⟨rest, rfl⟩ := List.head?_eq_some_iff.mp plus
    exact notPlus rest rfl

theorem integer_of_not_minus (notMinus : text.head? ≠ some '-') :
    integer radix limit text = (natural radix limit text).map Int.ofNat := by
  unfold integer
  split
  · exact absurd rfl notMinus
  · cases natural radix limit text <;> rfl

theorem IsBroken.natural_ne_ok (broken : IsBroken radix text) (value : Nat) :
    natural radix limit text ≠ .ok value := by
  obtain ⟨character, member, noDigit⟩ := broken.mark
  have notPlus : text.head? ≠ some '+' :=
    fun plus => absurd (broken.unsigned _ plus) (by decide)
  rw [ne_eq, natural_eq_ok, unsigned_eq notPlus]
  rintro ⟨_, read⟩
  obtain ⟨_, isDigit⟩ := isRun_of_extend read character member
  cases noDigit.symm.trans isDigit

theorem IsBroken.integer_ne_ok (broken : IsBroken radix text) (value : Int) :
    integer radix limit text ≠ .ok value := by
  have notMinus : text.head? ≠ some '-' :=
    fun minus => absurd (broken.unsigned _ minus) (by decide)
  rw [integer_of_not_minus notMinus]
  intro read
  obtain ⟨magnitude, naturalRead, _⟩ := map_eq_ok.mp read
  exact broken.natural_ne_ok magnitude naturalRead

/-- Where a number may be negative and where it may not, the same digits have the same
value. -/
theorem integer_eq_natural {other : Nat} {value : Int} {magnitude : Nat}
    (integerRead : integer radix limit text = .ok value)
    (naturalRead : natural radix other text = .ok magnitude) : value = magnitude := by
  obtain ⟨_, extended⟩ := natural_eq_ok.mp naturalRead
  have notMinus : text.head? ≠ some '-' := by
    intro minus
    obtain ⟨rest, rfl⟩ := List.head?_eq_some_iff.mp minus
    obtain ⟨digit, isDigit⟩ := isRun_of_extend extended '-' List.mem_cons_self
    simp [digitValue?] at isDigit
  rw [integer_of_not_minus notMinus] at integerRead
  obtain ⟨first, firstRead, rfl⟩ := map_eq_ok.mp integerRead
  obtain ⟨_, firstExtended⟩ := natural_eq_ok.mp firstRead
  rw [extend_unique firstExtended extended]
  rfl

theorem le_of_natural {value : Nat} (read : natural radix limit text = .ok value) :
    value ≤ limit :=
  le_of_extend (Nat.zero_le limit) (natural_eq_ok.mp read).2

/-- Digits need no sign. -/
theorem read_of_extend (hexadecimal : radix ≤ 16) (nonempty : text ≠ []) {value : Nat}
    (extended : extend radix limit 0 text = .ok value) :
    natural radix limit text = .ok value ∧ integer radix limit text = .ok (value : Int) := by
  have leads (sign : Char) (signed : Expression.isSign sign = true) :
      text.head? ≠ some sign := by
    intro first
    obtain ⟨digit, read⟩ := isRun_of_extend extended sign (List.mem_of_head? first)
    rw [(hexDigit_facts (digitValue?_of_le hexadecimal read)).2.1] at signed
    cases signed
  have isRead : natural radix limit text = .ok value := by
    rw [natural_eq_ok, unsigned_eq (leads '+' rfl)]
    exact ⟨nonempty, extended⟩
  rw [integer_of_not_minus (leads '-' rfl), isRead]
  exact ⟨rfl, rfl⟩

end Numeral

/-! ## Marks -/

/-- Without a leading mark, the last character decides. -/
theorem CommandLine.marked_of_unmarked {text : Text}
    (noHex : ∀ digits, text ≠ '0' :: 'x' :: digits) (noDollar : ∀ digits, text ≠ '$' :: digits) :
    marked text = if text.getLast? = some 'h' then (16, text.dropLast) else (10, text) := by
  unfold marked
  split
  · exact absurd rfl (noHex _)
  · exact absurd rfl (noDollar _)
  · rfl

/-- The command line knows no binary digits. -/
theorem CommandLine.radix_marked (text : Text) : (marked text).1 ≠ 2 := by
  unfold marked
  split
  · simp
  · simp
  · split <;> simp

theorem ne_dollar_of_isDigit {text : Text} (leads : text.head?.any Char.isDigit = true)
    (digits : Text) : text ≠ '$' :: digits := by
  rintro rfl
  cases leads

theorem Numeral.IsBroken.of_mem {radix : Nat} {first : Char} {rest : Text} (mark : Char)
    (unsigned : Expression.isSign first = false) (member : mark ∈ first :: rest)
    (noDigit : digitValue? radix mark = none) : IsBroken radix (first :: rest) :=
  ⟨fun _ isFirst => Option.some.inj isFirst ▸ unsigned, mark, member, noDigit⟩

/-- The two readers find the same digits, or one of them finds a mark among its digits. -/
theorem marked_agree {text digits : Text} {radix : Nat}
    (found : Number.marked? text = some (radix, digits)) :
    CommandLine.marked text = (radix, digits) ∨ Numeral.IsBroken radix digits ∨
      Numeral.IsBroken (CommandLine.marked text).1 (CommandLine.marked text).2 := by
  unfold Number.marked? at found
  split at found
  · rename_i trailing
    simp only [Bool.and_eq_true, decide_eq_true_eq] at trailing
    obtain ⟨leads, isLast⟩ := trailing
    obtain ⟨rfl, rfl⟩ := Prod.mk.inj (Option.some.inj found)
    by_cases hex : ∃ rest, text = '0' :: 'x' :: rest
    · -- The mark behind the digits wins in a source text, and `0x` is left among them.
      obtain ⟨rest, rfl⟩ := hex
      cases rest with
      | nil => cases isLast
      | cons first others =>
          refine Or.inr (Or.inl (.of_mem 'x' rfl ?_ rfl))
          exact List.mem_cons_of_mem _ List.mem_cons_self
    · left
      rw [CommandLine.marked_of_unmarked (fun rest isHex => hex ⟨rest, isHex⟩)
        (ne_dollar_of_isDigit leads), if_pos isLast]
  · rename_i unmarked
    simp only [Bool.and_eq_true, decide_eq_true_eq, not_and] at unmarked
    split at found
    · obtain ⟨rfl, rfl⟩ := Prod.mk.inj (Option.some.inj found)
      exact Or.inl rfl
    · -- On the command line this is a decimal number with a `b` in it.
      rename_i rest
      have decimal : CommandLine.marked ('0' :: 'b' :: rest) = (10, '0' :: 'b' :: rest) := by
        rw [CommandLine.marked_of_unmarked (by simp) (by simp), if_neg (unmarked rfl)]
      rw [decimal]
      exact Or.inr (Or.inr (.of_mem 'b' rfl (by simp) rfl))
    · obtain ⟨rfl, rfl⟩ := Prod.mk.inj (Option.some.inj found)
      exact Or.inl rfl
    · -- On the command line the percent sign stands among the digits.
      rename_i rest
      rw [CommandLine.marked_of_unmarked (by simp) (by simp)]
      split
      · rename_i isLast
        cases rest with
        | nil => cases isLast
        | cons first others =>
            refine Or.inr (Or.inr (.of_mem '%' rfl ?_ rfl))
            exact List.mem_cons_self
      · exact Or.inr (Or.inr (.of_mem '%' rfl (by simp) rfl))
    · rename_i noHex _ _ _
      split at found
      · rename_i leads
        obtain ⟨rfl, rfl⟩ := Prod.mk.inj (Option.some.inj found)
        left
        rw [CommandLine.marked_of_unmarked noHex (ne_dollar_of_isDigit leads),
          if_neg (unmarked leads)]
      · cases found

theorem CommandLine.readNumber_eq_ok {text : Text} {word : UInt64} :
    readNumber text = .ok word ↔
      ∃ number, Numeral.natural (marked (Text.lower (Text.trim text))).1 largestNumber
          (marked (Text.lower (Text.trim text))).2 = .ok number ∧ UInt64.ofNat number = word :=
  map_eq_ok

theorem Number.read?_eq_some {text : Text} {value : Int} :
    read? text = some value ↔
      ∃ radix digits, marked? (Text.lower (Text.trim text)) = some (radix, digits) ∧
        Numeral.integer radix largest digits = .ok value := by
  simp only [read?, Option.bind_eq_bind, Option.bind_eq_some_iff, ← toOption_eq_some,
    Prod.exists]

/-! ## Written forms -/

/-- The forms in which a number can be written. -/
inductive NumberForm where
  | decimal
  /-- Hexadecimal with a leading `0x`. -/
  | zeroX
  /-- Hexadecimal with a leading dollar sign. -/
  | dollar
  /-- Hexadecimal with a trailing `h`. -/
  | suffixed
  /-- Binary with a leading `0b`. -/
  | zeroB
  /-- Binary with a leading percent sign. -/
  | percent
  deriving DecidableEq, Repr

namespace NumberForm

def radix : NumberForm → Nat
  | .decimal => 10
  | .zeroX | .dollar | .suffixed => 16
  | .zeroB | .percent => 2

/-- The mark before the digits. -/
def front : NumberForm → Text
  | .decimal | .suffixed => []
  | .zeroX => ['0', 'x']
  | .dollar => ['$']
  | .zeroB => ['0', 'b']
  | .percent => ['%']

/-- The mark behind the digits. -/
def back : NumberForm → Text
  | .suffixed => ['h']
  | .decimal | .zeroX | .dollar | .zeroB | .percent => []

/-- Whether only source texts know the form. -/
def isBinary (form : NumberForm) : Bool :=
  form.radix == 2

/-- The digits of a number behind some zeros. -/
def digits (form : NumberForm) (zeros number : Nat) : Text :=
  List.replicate zeros '0' ++ Nat.toDigits form.radix number

/-- A number with the marks of a form in lower case. -/
def written (form : NumberForm) (zeros number : Nat) : Text :=
  form.front ++ form.digits zeros number ++ form.back

/-- A text is a number in some form, in any letter case and with any number of zeros. -/
def Writes (form : NumberForm) (number : Nat) (token : Text) : Prop :=
  ∃ zeros, Text.lower token = form.written zeros number

variable (form : NumberForm) (zeros number : Nat)

theorem radix_bounds : 2 ≤ form.radix ∧ form.radix ≤ 16 := by
  cases form <;> decide

theorem digits_ne_nil : form.digits zeros number ≠ [] :=
  List.append_ne_nil_of_right_ne_nil _ Nat.toDigits_ne_nil

theorem extend_digits {limit : Nat} (bounded : number ≤ limit) :
    Numeral.extend form.radix limit 0 (form.digits zeros number) = .ok number := by
  obtain ⟨least, hexadecimal⟩ := form.radix_bounds
  rw [digits, Numeral.extend_zeros (by omega), Numeral.extend_toDigits least hexadecimal bounded]

theorem isRun_digits : Numeral.IsRun form.radix (form.digits zeros number) :=
  Numeral.isRun_of_extend (form.extend_digits zeros number (Nat.le_refl number))

/-- The digits of a number are read as that number, where it may be negative and where it
may not. -/
theorem read_digits {limit : Nat} (bounded : number ≤ limit) :
    Numeral.natural form.radix limit (form.digits zeros number) = .ok number ∧
      Numeral.integer form.radix limit (form.digits zeros number) = .ok (number : Int) :=
  Numeral.read_of_extend form.radix_bounds.2 (form.digits_ne_nil zeros number)
    (form.extend_digits zeros number bounded)

theorem hexDigit_of_mem {character : Char} (member : character ∈ form.digits zeros number) :
    Text.isBlank character = false ∧ Expression.isSign character = false ∧
      character ∉ ['h', 'x', '$', '%'] := by
  obtain ⟨value, read⟩ := form.isRun_digits zeros number character member
  exact Numeral.hexDigit_facts (Numeral.digitValue?_of_le form.radix_bounds.2 read)

/-- Digits do not end in the mark of another form. -/
theorem getLast?_digits (front : Text) :
    (front ++ form.digits zeros number).getLast? ≠ some 'h' := by
  rw [List.getLast?_append,
    List.getLast?_eq_some_getLast (form.digits_ne_nil zeros number), Option.some_or]
  intro isMark
  have facts := form.hexDigit_of_mem zeros number
    (List.getLast_mem (form.digits_ne_nil zeros number))
  rw [Option.some.inj isMark] at facts
  exact facts.2.2 List.mem_cons_self

theorem isBlank_of_mem_written {character : Char}
    (member : character ∈ form.written zeros number) : Text.isBlank character = false := by
  have marks : (form.front ++ form.back).all (fun mark => !Text.isBlank mark) = true := by
    cases form <;> decide
  have solid {mark : Char} (isMark : mark ∈ form.front ++ form.back) :
      Text.isBlank mark = false := by
    simpa using List.all_eq_true.mp marks mark isMark
  simp only [written, List.mem_append] at member
  rcases member with (inFront | inDigits) | inBack
  · exact solid (List.mem_append_left _ inFront)
  · exact (form.hexDigit_of_mem zeros number inDigits).1
  · exact solid (List.mem_append_right _ inBack)

theorem written_eq :
    form.written zeros number =
      match form with
      | .decimal => digits .decimal zeros number
      | .zeroX => '0' :: 'x' :: digits .zeroX zeros number
      | .dollar => '$' :: digits .dollar zeros number
      | .suffixed => digits .suffixed zeros number ++ ['h']
      | .zeroB => '0' :: 'b' :: digits .zeroB zeros number
      | .percent => '%' :: digits .percent zeros number := by
  cases form <;> simp [written, front, back]

/-- There is no leading mark in front of digits. -/
theorem digits_append_ne {back : Text} (isBack : back = [] ∨ back = ['h']) (rest : Text) :
    form.digits zeros number ++ back ≠ '0' :: 'x' :: rest ∧
      form.digits zeros number ++ back ≠ '$' :: rest := by
  have free {mark : Char} (isMark : mark = 'x' ∨ mark = '$') :
      mark ∉ form.digits zeros number ++ back := by
    intro member
    rcases List.mem_append.mp member with inDigits | inBack
    · have facts := (form.hexDigit_of_mem zeros number inDigits).2.2
      rcases isMark with rfl | rfl <;> exact facts (by decide)
    · rcases isBack with rfl | rfl
      · cases inBack
      · rcases isMark with rfl | rfl <;> revert inBack <;> decide
  constructor
  · intro same
    exact free (Or.inl rfl) (same ▸ List.mem_cons_of_mem _ List.mem_cons_self)
  · intro same
    exact free (Or.inr rfl) (same ▸ List.mem_cons_self)

/-- The marks of the forms that the command line knows are told apart. -/
theorem marked_written (known : form.isBinary = false) :
    CommandLine.marked (form.written zeros number) = (form.radix, form.digits zeros number) := by
  have unmarked {back : Text} (isBack : back = [] ∨ back = ['h']) :=
    CommandLine.marked_of_unmarked
      (fun rest => (form.digits_append_ne zeros number isBack rest).1)
      (fun rest => (form.digits_append_ne zeros number isBack rest).2)
  rw [written_eq]
  cases form with
  | decimal =>
      have read := unmarked (Or.inl rfl)
      rw [List.append_nil] at read
      exact read.trans (if_neg (getLast?_digits .decimal zeros number []))
  | suffixed =>
      rw [unmarked (Or.inr rfl), if_pos List.getLast?_concat, List.dropLast_concat]
      rfl
  | zeroX | dollar => rfl
  | zeroB | percent => cases known

theorem not_trailing {text : Text} (last : text.getLast? ≠ some 'h') :
    ¬(text.head?.any Char.isDigit && decide (text.getLast? = some 'h')) = true := by
  simp [last]

/-- The marks of all forms are told apart in a source text, if a number with a trailing mark
begins with a decimal digit. -/
theorem marked?_written
    (leads : form = .suffixed → (form.written zeros number).head?.any Char.isDigit = true) :
    Number.marked? (form.written zeros number) =
      some (form.radix, form.digits zeros number) := by
  have last := form.getLast?_digits zeros number
  rw [written_eq] at leads ⊢
  cases form with
  | decimal =>
      have isDigit : ∀ character ∈ digits .decimal zeros number, character.isDigit = true := by
        intro character member
        obtain ⟨value, read⟩ := isRun_digits .decimal zeros number character member
        exact Numeral.isDigit_of_digitValue? read
      have nonempty := digits_ne_nil .decimal zeros number
      replace last := last []
      rw [List.nil_append] at last
      change Number.marked? (digits .decimal zeros number) = some (10, digits .decimal zeros number)
      generalize digits .decimal zeros number = run at isDigit nonempty last
      unfold Number.marked?
      rw [if_neg (not_trailing last)]
      split
      · exact absurd (isDigit 'x' (by simp)) (by decide)
      · exact absurd (isDigit 'b' (by simp)) (by decide)
      · exact absurd (isDigit '$' (by simp)) (by decide)
      · exact absurd (isDigit '%' (by simp)) (by decide)
      · cases run with
        | nil => exact absurd rfl nonempty
        | cons first rest => exact if_pos (isDigit first List.mem_cons_self)
  | suffixed =>
      have trailing := leads rfl
      unfold Number.marked?
      rw [if_pos, List.dropLast_concat]
      · rfl
      · rw [trailing, List.getLast?_concat]
        rfl
  | zeroX => exact if_neg (not_trailing (last ['0', 'x']))
  | zeroB => exact if_neg (not_trailing (last ['0', 'b']))
  | dollar | percent => rfl

variable {form zeros number}

/-- White space around a number and the case of its letters do not count. -/
theorem lower_trim {token text : Text} (lowered : Text.lower token = form.written zeros number)
    (padded : Text.IsPadded token text) :
    Text.lower (Text.trim text) = form.written zeros number := by
  have solid : ∀ character ∈ form.written zeros number, Text.isBlank character = false :=
    fun _ member => form.isBlank_of_mem_written zeros number member
  have lowerTrim : Text.trim (Text.lower token) = Text.lower (Text.trim token) :=
    Text.trim_map isRecasing_toLower token
  rw [padded.trim_eq, ← lowerTrim, lowered, Text.trim_of_forall solid]

/-- The command line reads numbers of up to sixty-four bits in each of its forms. -/
theorem readNumber_of_writes (known : form.isBinary = false)
    (bounded : number ≤ CommandLine.largestNumber) {token text : Text}
    (writes : form.Writes number token) (padded : Text.IsPadded token text) :
    CommandLine.readNumber text = .ok (UInt64.ofNat number) := by
  obtain ⟨zeros, lowered⟩ := writes
  refine CommandLine.readNumber_eq_ok.mpr ⟨number, ?_, rfl⟩
  rw [lower_trim lowered padded, form.marked_written zeros number known]
  exact (form.read_digits zeros number bounded).1

/-- Source texts read numbers of up to sixty-three bits in every form. -/
theorem read?_of_writes (bounded : number ≤ Number.largest) {token text : Text}
    (writes : form.Writes number token)
    (leads : form = .suffixed → ∃ digit ∈ token.head?, digit.isDigit = true)
    (padded : Text.IsPadded token text) : Number.read? text = some (number : Int) := by
  obtain ⟨zeros, lowered⟩ := writes
  have writtenLeads (isSuffixed : form = .suffixed) :
      (form.written zeros number).head?.any Char.isDigit = true := by
    obtain ⟨digit, isFirst, isDigit⟩ := leads isSuffixed
    rw [← lowered, Text.lower, List.head?_map, isFirst, Option.map_some, Option.any_some,
      isRecasing_toLower.isDigit, isDigit]
  refine Number.read?_eq_some.mpr ⟨form.radix, form.digits zeros number, ?_,
    (form.read_digits zeros number bounded).2⟩
  rw [lower_trim lowered padded, form.marked?_written zeros number writtenLeads]

/-- Whatever marks are found in a source text are those of a form. -/
theorem exists_of_marked? {text digits : Text} {radix : Nat}
    (found : Number.marked? text = some (radix, digits)) :
    ∃ form : NumberForm, form.radix = radix ∧ text = form.front ++ digits ++ form.back ∧
      (form = .suffixed → text.head?.any Char.isDigit = true) := by
  unfold Number.marked? at found
  split at found
  · rename_i trailing
    simp only [Bool.and_eq_true, decide_eq_true_eq] at trailing
    obtain ⟨rfl, rfl⟩ := Prod.mk.inj (Option.some.inj found)
    obtain ⟨run, rfl⟩ := List.getLast?_eq_some_iff.mp trailing.2
    exact ⟨.suffixed, rfl, by simp [front, back], fun _ => trailing.1⟩
  · split at found
    · obtain ⟨rfl, rfl⟩ := Prod.mk.inj (Option.some.inj found)
      exact ⟨.zeroX, rfl, by simp [front, back], by simp⟩
    · obtain ⟨rfl, rfl⟩ := Prod.mk.inj (Option.some.inj found)
      exact ⟨.zeroB, rfl, by simp [front, back], by simp⟩
    · obtain ⟨rfl, rfl⟩ := Prod.mk.inj (Option.some.inj found)
      exact ⟨.dollar, rfl, by simp [front, back], by simp⟩
    · obtain ⟨rfl, rfl⟩ := Prod.mk.inj (Option.some.inj found)
      exact ⟨.percent, rfl, by simp [front, back], by simp⟩
    · split at found
      · obtain ⟨rfl, rfl⟩ := Prod.mk.inj (Option.some.inj found)
        exact ⟨.decimal, rfl, by simp [front, back], by simp⟩
      · cases found

/-- A text without white space and signs is a written number. -/
def Denotes (term : Text) (value : Int) : Prop :=
  ∃ (form : NumberForm) (number : Nat), form.Writes number term ∧
    (form = .suffixed → ∃ digit ∈ term.head?, digit.isDigit = true) ∧
    number < 2 ^ 63 ∧ value = number

/-- Source texts read no other numbers than those in one of the forms, apart from signs. -/
theorem read?_iff_denotes {term : Text} {value : Int}
    (solid : ∀ character ∈ term, Text.isBlank character = false)
    (unsigned : ∀ character ∈ term, Expression.isSign character = false) :
    Number.read? term = some value ↔ Denotes term value := by
  constructor
  · intro read
    obtain ⟨radix, digits, found, integerRead⟩ := Number.read?_eq_some.mp read
    rw [Text.trim_of_forall solid] at found
    obtain ⟨form, rfl, lowered, leads⟩ := exists_of_marked? found
    have part {character : Char} (member : character ∈ digits) :
        character ∈ Text.lower term := by
      rw [lowered]
      exact List.mem_append_left _ (List.mem_append_right _ member)
    have unsignedDigits (sign : Char) (signed : Expression.isSign sign = true) :
        digits.head? ≠ some sign := by
      intro first
      obtain ⟨character, member, rfl⟩ := List.mem_map.mp (part (List.mem_of_head? first))
      rw [isRecasing_toLower.isSign, unsigned character member] at signed
      cases signed
    rw [Numeral.integer_of_not_minus (unsignedDigits '-' rfl)] at integerRead
    obtain ⟨number, naturalRead, rfl⟩ := map_eq_ok.mp integerRead
    obtain ⟨nonempty, extended⟩ := Numeral.natural_eq_ok.mp naturalRead
    rw [Numeral.unsigned_eq (unsignedDigits '+' rfl)] at nonempty extended
    have lower : ∀ character ∈ digits, character.toLower = character := by
      intro character member
      obtain ⟨other, _, rfl⟩ := List.mem_map.mp (part member)
      exact isRecasing_toLower.toLower other
    obtain ⟨least, hexadecimal⟩ := form.radix_bounds
    obtain ⟨zeros, rfl⟩ := Numeral.exists_zeros_of_extend least hexadecimal nonempty lower extended
    refine ⟨form, number, ⟨zeros, lowered⟩, ?_, ?_, rfl⟩
    · intro isSuffixed
      have isDigit := leads isSuffixed
      cases term with
      | nil => cases isDigit
      | cons first rest => exact ⟨first, rfl, (isRecasing_toLower.isDigit first).symm.trans isDigit⟩
    · have bounded := Numeral.le_of_natural naturalRead
      rw [Number.largest] at bounded
      omega
  · rintro ⟨form, number, writes, leads, bounded, rfl⟩
    refine read?_of_writes ?_ writes leads ⟨[], [], by simp [Text.Blank], by simp [Text.Blank], ?_⟩
    · rw [Number.largest]
      omega
    · rw [List.nil_append, List.append_nil]

/-- The command line finds the mark of a binary number among its digits. -/
theorem readNumber_of_binary (binary : form.isBinary = true) {token text : Text}
    (writes : form.Writes number token) (padded : Text.IsPadded token text) (word : UInt64) :
    CommandLine.readNumber text ≠ .ok word := by
  obtain ⟨zeros, lowered⟩ := writes
  have unsuffixed : form ≠ .suffixed := by
    rintro rfl
    cases binary
  have found := form.marked?_written zeros number (absurd · unsuffixed)
  intro read
  obtain ⟨value, naturalRead, _⟩ := CommandLine.readNumber_eq_ok.mp read
  rw [lower_trim lowered padded] at naturalRead
  rcases marked_agree found with same | broken | broken
  · have radix := CommandLine.radix_marked (form.written zeros number)
    rw [same] at radix
    exact radix (beq_iff_eq.mp binary)
  · exact broken.natural_ne_ok number
      (form.read_digits zeros number (Nat.le_refl number)).1
  · exact broken.natural_ne_ok value naturalRead

end NumberForm

theorem Invocation.readNumber_eq_ok {text : String} {word : UInt64} :
    readNumber text = .ok word ↔ CommandLine.readNumber text.toList = .ok word := by
  rw [readNumber, ← toOption_eq_some, toOption_mapError, toOption_eq_some]

theorem CommandLine.toNat_ofNat_of_le {number : Nat} (bounded : number ≤ CommandLine.largestNumber) :
    (UInt64.ofNat number).toNat = number := by
  rw [CommandLine.largestNumber] at bounded
  rw [UInt64.toNat_ofNat', Nat.mod_eq_of_lt (by omega)]

/-- Where both readers take a text for a number, it is the same number.  Both read a number
of up to sixty-three bits in decimal and in each of the hexadecimal forms, in any letter case,
with any number of zeros in front and with white space around it; behind a decimal digit this
includes a trailing `h`.  The binary forms are read in source texts only. -/
theorem number_readers_agree :
    (∀ (text : String) (value : Int) (word : UInt64), Number.read? text.toList = some value →
      Invocation.readNumber text = .ok word → value = word.toNat) ∧
    ∀ (form : NumberForm) (number : Nat) (token : Text) (text : String),
      number < 2 ^ 63 → form.Writes number token →
      (form = .suffixed → ∃ digit ∈ token.head?, digit.isDigit = true) →
      Text.IsPadded token text.toList →
        Number.read? text.toList = some (number : Int) ∧
        if form.isBinary then ∃ flaw, Invocation.readNumber text = .error flaw
        else ∃ word, Invocation.readNumber text = .ok word ∧ word.toNat = number := by
  constructor
  · intro text value word sourceRead lineRead
    obtain ⟨radix, digits, found, integerRead⟩ := Number.read?_eq_some.mp sourceRead
    obtain ⟨number, naturalRead, rfl⟩ :=
      CommandLine.readNumber_eq_ok.mp (Invocation.readNumber_eq_ok.mp lineRead)
    rcases marked_agree found with same | broken | broken
    · rw [same] at naturalRead
      rw [Numeral.integer_eq_natural integerRead naturalRead, CommandLine.toNat_ofNat_of_le
        (Numeral.le_of_natural naturalRead)]
    · exact absurd integerRead (broken.integer_ne_ok value)
    · exact absurd naturalRead (broken.natural_ne_ok number)
  · intro form number token text bounded writes leads padded
    have largest : number ≤ Number.largest := by
      rw [Number.largest]
      omega
    refine ⟨NumberForm.read?_of_writes largest writes leads padded, ?_⟩
    split
    · rename_i binary
      cases read : Invocation.readNumber text with
      | error flaw => exact ⟨flaw, rfl⟩
      | ok word =>
          exact absurd (Invocation.readNumber_eq_ok.mp read)
            (NumberForm.readNumber_of_binary binary writes padded word)
    · rename_i known
      have within : number ≤ CommandLine.largestNumber := by
        rw [CommandLine.largestNumber]
        omega
      refine ⟨UInt64.ofNat number, Invocation.readNumber_eq_ok.mpr
        (NumberForm.readNumber_of_writes (Bool.eq_false_iff.mpr known) within writes padded),
        CommandLine.toNat_ofNat_of_le within⟩

/-- A text that begins like a binary number may end like a hexadecimal one, and both readers
see the latter. -/
theorem number_readers_agree_overlap :
    (Number.read? "0b1h".toList = some 177 ∧ Invocation.readNumber "0b1h" = .ok 177 ∧
      (177 : Int) = (177 : UInt64).toNat) ∧
    (NumberForm.suffixed.Writes 255 "00fFH".toList ∧
      Text.IsPadded "00fFH".toList " 00fFH\t".toList ∧
      Number.read? " 00fFH\t".toList = some 255 ∧
      ∃ word, Invocation.readNumber " 00fFH\t" = .ok word ∧ word.toNat = 255) ∧
    (NumberForm.zeroB.Writes 5 "0B101".toList ∧ Number.read? "0B101".toList = some 5 ∧
      ∃ flaw, Invocation.readNumber "0B101" = .error flaw) := by
  obtain ⟨agree, forms⟩ := number_readers_agree
  have sourceRead : Number.read? "0b1h".toList = some 177 := by decide
  have lineRead : Invocation.readNumber "0b1h" = .ok 177 := by decide
  have hex : NumberForm.suffixed.Writes 255 "00fFH".toList := ⟨2, by decide⟩
  have padded : Text.IsPadded "00fFH".toList " 00fFH\t".toList :=
    ⟨[' '], ['\t'], by decide, by decide, rfl⟩
  have binary : NumberForm.zeroB.Writes 5 "0B101".toList := ⟨0, by decide⟩
  have unpadded : Text.IsPadded "0B101".toList "0B101".toList :=
    ⟨[], [], by decide, by decide, rfl⟩
  refine ⟨⟨sourceRead, lineRead, agree _ _ _ sourceRead lineRead⟩, ⟨hex, padded, ?_⟩,
    binary, ?_⟩
  · exact forms .suffixed 255 _ _ (by decide) hex (fun _ => ⟨'0', rfl, rfl⟩) padded
  · exact forms .zeroB 5 _ _ (by decide) binary (by decide) unpadded

end Z80
