import Z80.Text.Basic

/-!
# Numerals

Reading a run of digits in a given radix, from the left, below a given limit.
The first character that is no digit, or the first digit that carries the value
past the limit, decides the failure.
-/

namespace Z80

namespace Numeral

/-- Why a text is no numeral. -/
inductive Flaw where
  | empty
  /-- A character is no digit of the radix, or a sign stands alone. -/
  | badDigit
  /-- The value exceeds the limit. -/
  | tooLarge
  deriving DecidableEq, Repr

/-- The value of a digit, where the letters of either case follow nine. -/
def digitValue? (radix : Nat) (character : Char) : Option Nat :=
  let value :=
    if '0' ≤ character ∧ character ≤ '9' then character.toNat - 48
    else if 'a' ≤ character ∧ character ≤ 'z' then character.toNat - 87
    else if 'A' ≤ character ∧ character ≤ 'Z' then character.toNat - 55
    else radix
  if value < radix then some value else none

/-- Extend a value by the digits of a text. -/
def extend (radix limit : Nat) : Nat → Text → Except Flaw Nat
  | value, [] => .ok value
  | value, character :: rest =>
      match digitValue? radix character with
      | none => .error .badDigit
      | some digit =>
          if value * radix + digit ≤ limit then
            extend radix limit (value * radix + digit) rest
          else
            .error .tooLarge

/-- Read a non-empty run of digits. -/
def digits (radix limit : Nat) (text : Text) : Except Flaw Nat :=
  if text = [] then .error .badDigit else extend radix limit 0 text

/-- Read digits with an optional plus sign. -/
def natural (radix limit : Nat) : Text → Except Flaw Nat
  | [] => .error .empty
  | '+' :: rest => digits radix limit rest
  | text => digits radix limit text

/-- Read digits with an optional sign of either kind; a negative number may
reach one further than a positive one. -/
def integer (radix limit : Nat) : Text → Except Flaw Int
  | '-' :: rest => (digits radix (limit + 1) rest).map fun magnitude => -magnitude
  | text => (natural radix limit text).map fun magnitude => magnitude

end Numeral

end Z80
