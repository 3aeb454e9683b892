import Z80.Assembler.Argument
import Z80.Assembler.Scope
import Z80.Opcode.Table

/-!
# Encoding statements

The bytes of an instruction or of a data statement.  An instruction is encoded
by the first entry of the opcode table whose operands fit the written ones.
-/

namespace Z80

namespace Scope

/-- Whether a written operand can stand for an operand of the table. -/
def fits (scope : Scope) (operand : Operand) (argument : Argument) : Bool :=
  match operand, argument with
  | .keyword fixed, .keyword word => fixed == word
  | .indexed register, .keyword word => word == Keyword.atIndex register
  | .byte, .value _ => true
  | .word, .value _ => true
  | .relative, .value _ => true
  | .digit number, .value expression =>
      (scope.value expression).toOption == some (number.val : Int)
  | .vector address, .value expression =>
      (scope.value expression).toOption == some (address.toNat : Int)
  | .cell, .cell _ => true
  | .indexed register, .indexed used _ => register == used
  | _, _ => false

/-- Whether written operands can stand for the operands of an entry. -/
def allFit (scope : Scope) : List Operand → List Argument → Bool
  | [], [] => true
  | operand :: operands, argument :: arguments =>
      scope.fits operand argument && scope.allFit operands arguments
  | _, _ => false

/-- The entry by which a mnemonic with written operands is encoded. -/
def select (scope : Scope) (mnemonic : Text) (arguments : List Argument) :
    Except Problem Entry :=
  match Mnemonic.ofText? mnemonic with
  | none => .error (.unknownInstruction mnemonic)
  | some known =>
      let found := (Table.withMnemonic known).find? fun entry =>
        scope.allFit entry.operands arguments
      match found with
      | some entry => .ok entry
      | none => .error (.invalidOperands mnemonic arguments.length)

/-- The bytes by which a written operand fills in an operand of an instruction
of a given length. -/
def fill (scope : Scope) (length : Nat) (operand : Operand) (argument : Argument) :
    Except Problem (List UInt8) :=
  match operand, argument with
  | .byte, .value expression => (scope.byte expression).map fun byte => [byte]
  | .word, .value expression =>
      (scope.word expression).map fun word => [lowByte word, highByte word]
  | .cell, .cell expression =>
      (scope.word expression).map fun word => [lowByte word, highByte word]
  | .relative, .value expression =>
      (scope.relative length expression).map fun displacement => [displacement]
  | .indexed _, .indexed _ expression =>
      (scope.displacement expression).map fun displacement => [displacement]
  | .indexed _, _ => .ok [0]
  | _, _ => .ok []

/-- The bytes by which written operands fill in the operands of an instruction. -/
def payload (scope : Scope) (length : Nat) :
    List Operand → List Argument → Except Problem (List UInt8)
  | operand :: operands, argument :: arguments => do
      let first ← scope.fill length operand argument
      let rest ← scope.payload length operands arguments
      return first ++ rest
  | _, _ => .ok []

def instruction (scope : Scope) (statement : Statement) : Except Problem (List UInt8) := do
  let arguments := statement.operands.map Argument.ofText
  let entry ← scope.select statement.mnemonic arguments
  let payload ← scope.payload entry.length entry.operands arguments
  return entry.encode payload

/-- Whether a character is in the ASCII range. -/
def isPlain (character : Char) : Bool :=
  character.toNat < 128

/-- The bytes of an operand of `DB`: those of a string, or a value. -/
def datum (scope : Scope) (operand : Text) : Except Problem (List UInt8) :=
  match Quoted.content? operand with
  | some content =>
      if content.all isPlain then
        .ok (content.map fun character => UInt8.ofNat character.toNat)
      else
        .error .foreignString
  | none => (scope.byte operand).map fun byte => [byte]

/-- The bytes of the operands of `DB`. -/
def dataBytes (scope : Scope) : List Text → Except Problem (List UInt8)
  | [] => .ok []
  | operand :: rest => do
      let first ← scope.datum operand
      let others ← scope.dataBytes rest
      return first ++ others

/-- The bytes of the operands of `DW`. -/
def dataWords (scope : Scope) : List Text → Except Problem (List UInt8)
  | [] => .ok []
  | operand :: rest => do
      let word ← scope.word operand
      let others ← scope.dataWords rest
      return lowByte word :: highByte word :: others

end Scope

/-- What a statement does. -/
inductive Directive where
  /-- Settle or advance the address. -/
  | origin
  | bytes
  | words
  | instruction
  deriving DecidableEq, Repr

def Statement.directive (statement : Statement) : Directive :=
  if statement.mnemonic = ['O', 'R', 'G'] then .origin
  else if statement.mnemonic = ['D', 'B'] ∨ statement.mnemonic = ['D', 'E', 'F', 'B'] then
    .bytes
  else if statement.mnemonic = ['D', 'W'] ∨ statement.mnemonic = ['D', 'E', 'F', 'W'] then
    .words
  else .instruction

def Scope.statement (scope : Scope) (statement : Statement) : Except Problem (List UInt8) :=
  match statement.directive with
  | .origin => .ok []
  | .bytes =>
      if statement.operands = [] then .error .missingBytes
      else scope.dataBytes statement.operands
  | .words =>
      if statement.operands = [] then .error .missingWords
      else scope.dataWords statement.operands
  | .instruction => scope.instruction statement

end Z80
