import Z80.Assembler.Line
import Z80.Text.Hex

/-!
# Problems of a source

The reasons for which a source is not assembled, the eight kinds they fall into,
and their wording.
-/

namespace Z80

inductive ProblemKind where
  | malformed
  | unknownInstruction
  | invalidOperand
  | undefinedLabel
  | duplicateLabel
  | valueOutOfRange
  | originBackwards
  | jumpTooFar
  deriving DecidableEq, Repr

def ProblemKind.name : ProblemKind → String
  | .malformed => "syntax error"
  | .unknownInstruction => "unknown instruction"
  | .invalidOperand => "invalid operand"
  | .undefinedLabel => "undefined label"
  | .duplicateLabel => "duplicate label"
  | .valueOutOfRange => "value out of range"
  | .originBackwards => "origin moves backwards"
  | .jumpTooFar => "relative jump out of range"

/-- The numbers that a field takes, from a least to a greatest. -/
structure ValueRange where
  least : Int
  greatest : Int
  deriving DecidableEq, Repr

namespace ValueRange

/-- Signed and unsigned bytes. -/
def byte : ValueRange := ⟨-128, 255⟩

/-- Signed and unsigned words. -/
def word : ValueRange := ⟨-32768, 65535⟩

/-- Signed bytes. -/
def displacement : ValueRange := ⟨-128, 127⟩

def contains (range : ValueRange) (value : Int) : Bool :=
  range.least ≤ value && value ≤ range.greatest

theorem contains_eq_true {range : ValueRange} {value : Int} :
    range.contains value = true ↔ range.least ≤ value ∧ value ≤ range.greatest := by
  simp [contains]

end ValueRange

/-- A reason for which a source is not assembled. -/
inductive Problem where
  | line (flaw : Line.Flaw)
  | expression (flaw : Expression.Flaw)
  | originOperands
  | missingBytes
  | missingWords
  | unknownInstruction (mnemonic : Text)
  | invalidOperands (mnemonic : Text) (count : Nat)
  | duplicateLabel (name : Text)
  | outOfRange (expression : Text) (value : Int) (range : ValueRange)
  | foreignString
  | pastEnd
  | originBackwards (target : UInt16) (current : Nat)
  | jumpTooFar (target offset : Int)
  deriving DecidableEq, Repr

namespace Problem

def kind : Problem → ProblemKind
  | .line _ => .malformed
  | .expression (.undefined _) => .undefinedLabel
  | .expression _ => .malformed
  | .originOperands => .malformed
  | .missingBytes => .malformed
  | .missingWords => .malformed
  | .unknownInstruction _ => .unknownInstruction
  | .invalidOperands _ _ => .invalidOperand
  | .duplicateLabel _ => .duplicateLabel
  | .outOfRange _ _ _ => .valueOutOfRange
  | .foreignString => .valueOutOfRange
  | .pastEnd => .valueOutOfRange
  | .originBackwards _ _ => .originBackwards
  | .jumpTooFar _ _ => .jumpTooFar

/-- A text between grave accents. -/
def cited (text : Text) : String :=
  String.ofList ('\x60' :: text ++ ['\x60'])

/-- The details of a problem in words. -/
def message : Problem → String
  | .line .unterminatedString => "unterminated string"
  | .line (.reservedLabel name) =>
      cited name ++ " is a register name and cannot be a label"
  | .line (.malformed text) => "malformed line " ++ cited text
  | .line .emptyOperand => "empty operand"
  | .expression .missingValue => "missing value"
  | .expression .missingTerm => "missing term in expression"
  | .expression (.invalidTerm term) => "invalid value " ++ cited term
  | .expression (.undefined name) => cited name ++ " is not defined"
  | .originOperands => "ORG takes one address"
  | .missingBytes => "DB needs at least one value"
  | .missingWords => "DW needs at least one value"
  | .unknownInstruction mnemonic => cited mnemonic ++ " is not a Z80 instruction"
  | .invalidOperands mnemonic count =>
      "no form of " ++ String.ofList mnemonic ++ " takes " ++ toString count ++
        " operand(s) like these"
  | .duplicateLabel name => cited name ++ " is already defined"
  | .outOfRange text value range =>
      cited text ++ " = " ++ toString value ++ " does not fit in " ++
        toString range.least ++ "..=" ++ toString range.greatest
  | .foreignString => "DB strings must be ASCII"
  | .pastEnd => "program runs past 0xFFFF"
  | .originBackwards target current =>
      "ORG 0x" ++ Hex.word target ++ " is below the current address 0x" ++
        Hex.address current
  | .jumpTooFar target offset =>
      "target 0x" ++ Hex.address target ++ " is " ++ toString offset ++ " bytes away"

end Problem

/-- A problem and where it lies in the source and in memory. -/
structure AssemblyError where
  /-- The number of the source line, from one on. -/
  line : Nat
  address : UInt16
  problem : Problem
  deriving DecidableEq, Repr

/-- The report of a problem with its place. -/
def AssemblyError.message (error : AssemblyError) : String :=
  "line " ++ toString error.line ++ " (0x" ++ Hex.word error.address ++ "): " ++
    error.problem.kind.name ++ ": " ++ error.problem.message

end Z80
