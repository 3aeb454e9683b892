import Z80.Assembler.Expression
import Z80.Opcode.Operand
import Z80.Text.Quoted

/-!
# Source lines

A line holds an optional label, marked by a colon, and an optional statement: a
mnemonic with operands between commas.  A semicolon begins a comment.  None of
these marks counts inside a string.
-/

namespace Z80

/-- A mnemonic in upper case with its operands. -/
structure Statement where
  mnemonic : Text
  operands : List Text := []
  deriving DecidableEq, Repr

/-- The parts of a source line. -/
structure Line where
  label : Option Text := none
  statement : Option Statement := none
  deriving DecidableEq, Repr

namespace Line

/-- Why a text is no source line. -/
inductive Flaw where
  | unterminatedString
  | reservedLabel (name : Text)
  | malformed (text : Text)
  | emptyOperand
  deriving DecidableEq, Repr

/-- Divide a trimmed line into its label and the trimmed text after it. -/
def splitLabel (text : Text) : Except Flaw (Option Text × Text) :=
  match Quoted.cut? ':' text with
  | none => .ok (none, text)
  | some (front, back) =>
      let name := Text.trim front
      if isIdentifier name then
        if (Keyword.ofText? name).isSome then .error (.reservedLabel name)
        else .ok (some name, Text.trim back)
      else
        .ok (none, text)

/-- Divide a trimmed operand list at its commas. -/
def splitOperands (text : Text) : Except Flaw (List Text) :=
  if text = [] then .ok []
  else
    let operands := (Quoted.split ',' text).map Text.trim
    if operands.any List.isEmpty then .error .emptyOperand else .ok operands

/-- Read the statement that makes up a trimmed text. -/
def readStatement (text : Text) : Except Flaw (Option Statement) :=
  if text = [] then .ok none
  else
    let mnemonic := text.takeWhile fun character => !Text.isBlank character
    let rest := text.dropWhile fun character => !Text.isBlank character
    if mnemonic.all Char.isAlphanum then
      (splitOperands (Text.trim rest)).map fun operands =>
        some ⟨Text.upper mnemonic, operands⟩
    else
      .error (.malformed text)

/-- Read a source line. -/
def read (text : Text) : Except Flaw Line :=
  let code := Quoted.before ';' text
  if Quoted.isClosed code then do
    let (label, rest) ← splitLabel (Text.trim code)
    let statement ← readStatement rest
    return ⟨label, statement⟩
  else
    .error .unterminatedString

/-- Divide a source into lines.  A line ends with a line feed, which a carriage
return may precede; the last line may do without. -/
def split : Text → List Text
  | [] => []
  | '\n' :: rest => [] :: split rest
  | '\r' :: '\n' :: rest => [] :: split rest
  | character :: rest =>
      match split rest with
      | [] => [[character]]
      | first :: others => (character :: first) :: others

end Line

end Z80
