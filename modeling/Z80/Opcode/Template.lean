import Z80.Opcode.Table

/-!
# Templates

The written form of an entry, such as `LD (IX+d),n`: the mnemonic and, behind a blank, the
operands with commas between them.  Small letters stand for the bytes that fill an operand
in; whatever else stands in the place of an operand is fixed.  A template thus decides how
long an encoding is.
-/

namespace Z80

/-- An operand of a template. -/
inductive Slot where
  /-- A register, a condition or a number, which is taken as it stands. -/
  | fixed (text : Text)
  | byte
  | word
  | cell
  | relative
  | indexed (register : IndexRegister)
  deriving DecidableEq, Repr

namespace Slot

/-- Read an operand of a template. -/
def read : Text → Slot
  | ['n'] => .byte
  | ['n', 'n'] => .word
  | ['(', 'n', 'n', ')'] => .cell
  | ['e'] => .relative
  | ['(', 'I', 'X', '+', 'd', ')'] => .indexed .ix
  | ['(', 'I', 'Y', '+', 'd', ')'] => .indexed .iy
  | text => .fixed text

/-- How many bytes fill in an operand. -/
def size : Slot → Nat
  | .fixed _ => 0
  | .byte | .relative | .indexed _ => 1
  | .word | .cell => 2

/-- How many bytes fill in operands. -/
def totalSize : List Slot → Nat
  | [] => 0
  | slot :: rest => slot.size + totalSize rest

end Slot

/-- What an operand is in a template. -/
def Operand.slot : Operand → Slot
  | .byte => .byte
  | .word => .word
  | .cell => .cell
  | .relative => .relative
  | .indexed register => .indexed register
  | operand => .fixed operand.template

/-- A mnemonic with the operands of a template. -/
structure Template where
  mnemonic : Text
  slots : List Slot
  deriving DecidableEq, Repr

namespace Template

/-- Read a template, of which nothing behind the mnemonic means no operands. -/
def read (text : Text) : Template :=
  let rest := (text.dropWhile (· != ' ')).tail
  { mnemonic := text.takeWhile (· != ' ')
    slots := if rest = [] then [] else (Text.splitAt ',' rest).map Slot.read }

/-- How many bytes an instruction of a page has by its template. -/
def length (page : Page) (template : Template) : Nat :=
  page.leadBytes.length + 1 + Slot.totalSize template.slots

end Template

end Z80
