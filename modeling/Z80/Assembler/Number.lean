import Z80.Text.Numeral

/-!
# Numbers in source texts

A number is decimal, hexadecimal with a leading `0x` or `$` or a trailing `h`,
or binary with a leading `0b` or `%`.  A trailing `h` behind a leading digit
wins over the other marks.  Values are signed numbers of 64 bits, in which sums
and differences wrap around.
-/

namespace Z80

namespace Number

/-- The largest number that can be written. -/
def largest : Nat := 0x7FFFFFFFFFFFFFFF

/-- The radix and the digits of a number in lower case. -/
def marked? (text : Text) : Option (Nat × Text) :=
  if text.head?.any Char.isDigit && text.getLast? = some 'h' then
    some (16, text.dropLast)
  else
    match text with
    | '0' :: 'x' :: digits => some (16, digits)
    | '0' :: 'b' :: digits => some (2, digits)
    | '$' :: digits => some (16, digits)
    | '%' :: digits => some (2, digits)
    | _ => if text.head?.any Char.isDigit then some (10, text) else none

/-- Read a number, or nothing if the text is none. -/
def read? (text : Text) : Option Int := do
  let (radix, digits) ← marked? (Text.lower (Text.trim text))
  (Numeral.integer radix largest digits).toOption

/-- An integer as a signed number of 64 bits. -/
def wrap (value : Int) : Int :=
  (Int64.ofInt value).toInt

/-- An integer is a signed number of 64 bits. -/
def Fits (value : Int) : Prop :=
  -0x8000000000000000 ≤ value ∧ value < 0x8000000000000000

instance (value : Int) : Decidable (Fits value) :=
  inferInstanceAs (Decidable (_ ∧ _))

theorem wrap_eq_bmod (value : Int) : wrap value = value.bmod 0x10000000000000000 :=
  Int64.toInt_ofInt

theorem wrap_eq_self {value : Int} (fits : Fits value) : wrap value = value :=
  (wrap_eq_bmod value).trans (Int.bmod_eq_of_le fits.1 fits.2)

theorem fits_wrap (value : Int) : Fits (wrap value) :=
  ⟨Int64.le_toInt _, Int64.toInt_lt _⟩

@[simp] theorem wrap_wrap_add (value other : Int) :
    wrap (wrap value + other) = wrap (value + other) := by
  simp only [wrap_eq_bmod, Int.bmod_add_bmod]

theorem fits_natCast {number : Nat} (small : number ≤ largest) : Fits number := by
  rw [largest] at small
  constructor <;> omega

end Number

end Z80
