import Z80.Text.Numeral

/-!
# Numbers on the command line

A number is decimal, or hexadecimal with a leading `0x` or `$` or a trailing
`h`.  It has at most sixty-four bits, an address at most sixteen.
-/

namespace Z80

namespace CommandLine

/-- The largest number that can be written. -/
def largestNumber : Nat := 0xFFFFFFFFFFFFFFFF

/-- The radix and the digits of a number in lower case. -/
def marked (text : Text) : Nat × Text :=
  match text with
  | '0' :: 'x' :: digits => (16, digits)
  | '$' :: digits => (16, digits)
  | _ => if text.getLast? = some 'h' then (16, text.dropLast) else (10, text)

def readNumber (text : Text) : Except Numeral.Flaw UInt64 :=
  let (radix, digits) := marked (Text.lower (Text.trim text))
  (Numeral.natural radix largestNumber digits).map UInt64.ofNat

end CommandLine

end Z80
