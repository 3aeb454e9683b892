import Z80.Opcode.Operand

/-!
# The shapes of written operands

An operand in a source is a keyword, an expression, an expression in
parentheses, or an index register with a displacement in parentheses.
-/

namespace Z80

/-- A written operand by its shape, without white space. -/
inductive Argument where
  | keyword (word : Keyword)
  | value (expression : Text)
  /-- The cell at an address. -/
  | cell (expression : Text)
  /-- The cell near an index register; the displacement begins with its sign. -/
  | indexed (register : IndexRegister) (displacement : Text)
  deriving DecidableEq, Repr

namespace Argument

/-- The text between parentheses. -/
def parenthesized? : Text → Option Text
  | '(' :: rest => if rest.getLast? = some ')' then some rest.dropLast else none
  | _ => none

/-- The index register with a given written form. -/
def indexRegister? (text : Text) : Option IndexRegister :=
  if Text.upper text = ['I', 'X'] then some .ix
  else if Text.upper text = ['I', 'Y'] then some .iy
  else none

/-- The shape of a text between parentheses. -/
def ofInner (text : Text) : Argument :=
  match indexRegister? (text.take 2), text.drop 2 with
  | some register, '+' :: rest => .indexed register ('+' :: rest)
  | some register, '-' :: rest => .indexed register ('-' :: rest)
  | _, _ => .cell text

/-- The shape of a written operand. -/
def ofText (text : Text) : Argument :=
  let compacted := Text.compact text
  match Keyword.ofText? compacted with
  | some word => .keyword word
  | none =>
      match parenthesized? compacted with
      | some inner => ofInner inner
      | none => .value compacted

end Argument

end Z80
