import Z80.Cpu.State
import Z80.Text.Hex

/-!
# Operands of an opcode

An operand is either fixed by the opcode, being a keyword or a number, or it is
a field that further bytes fill in.
-/

namespace Z80

/-- The words that name a register, a condition or the cell at a register. -/
inductive Keyword where
  | a | b | c | d | e | h | l | i | r
  | af | afShadow | bc | de | hl | sp | ix | iy
  | atBC | atDE | atHL | atSP | atIX | atIY | atC
  | nz | z | nc | po | pe | p | m
  deriving DecidableEq, Repr

namespace Keyword

def all : List Keyword :=
  [.a, .b, .c, .d, .e, .h, .l, .i, .r, .af, .afShadow, .bc, .de, .hl, .sp, .ix, .iy,
    .atBC, .atDE, .atHL, .atSP, .atIX, .atIY, .atC, .nz, .z, .nc, .po, .pe, .p, .m]

def name : Keyword → String
  | .a => "A" | .b => "B" | .c => "C" | .d => "D" | .e => "E" | .h => "H" | .l => "L"
  | .i => "I" | .r => "R"
  | .af => "AF" | .afShadow => "AF'" | .bc => "BC" | .de => "DE" | .hl => "HL"
  | .sp => "SP" | .ix => "IX" | .iy => "IY"
  | .atBC => "(BC)" | .atDE => "(DE)" | .atHL => "(HL)" | .atSP => "(SP)"
  | .atIX => "(IX)" | .atIY => "(IY)" | .atC => "(C)"
  | .nz => "NZ" | .z => "Z" | .nc => "NC" | .po => "PO" | .pe => "PE" | .p => "P"
  | .m => "M"

def text (keyword : Keyword) : Text :=
  keyword.name.toList

/-- The keyword written in upper case. -/
def ofUpper? (text : Text) : Option Keyword :=
  all.find? fun keyword => keyword.text == text

/-- The keyword written in either case. -/
def ofText? (text : Text) : Option Keyword :=
  ofUpper? (Text.upper text)

/-- The name of an index register. -/
def index : IndexRegister → Keyword
  | .ix => .ix
  | .iy => .iy

/-- The cell at an index register, written without a displacement. -/
def atIndex : IndexRegister → Keyword
  | .ix => .atIX
  | .iy => .atIY

theorem mem_all (keyword : Keyword) : keyword ∈ all := by
  cases keyword <;> decide

end Keyword

/-- An operand of an opcode. -/
inductive Operand where
  | keyword (fixed : Keyword)
  /-- A bit number or interrupt mode. -/
  | digit (value : Fin 8)
  /-- The address of a restart. -/
  | vector (address : UInt8)
  | byte
  | word
  /-- The cell at an address. -/
  | cell
  /-- An address near the next instruction. -/
  | relative
  /-- The cell near an index register. -/
  | indexed (register : IndexRegister)
  deriving DecidableEq, Repr

namespace Operand

/-- How many bytes fill in an operand. -/
def size : Operand → Nat
  | .keyword _ | .digit _ | .vector _ => 0
  | .byte | .relative | .indexed _ => 1
  | .word | .cell => 2

/-- How many bytes fill in operands. -/
def totalSize : List Operand → Nat
  | [] => 0
  | operand :: rest => operand.size + totalSize rest

/-- The number that an operand fixes. -/
def value? : Operand → Option Nat
  | .digit value => some value
  | .vector address => some address.toNat
  | _ => none

/-- The text of an operand before it is filled in. -/
def template : Operand → Text
  | .keyword fixed => fixed.text
  | .digit value => [Hex.digit value]
  | .vector address => '0' :: 'x' :: Hex.byteDigits address
  | .byte => ['n']
  | .word => ['n', 'n']
  | .cell => ['(', 'n', 'n', ')']
  | .relative => ['e']
  | .indexed register => '(' :: register.name.toList ++ ['+', 'd', ')']

end Operand

end Z80
