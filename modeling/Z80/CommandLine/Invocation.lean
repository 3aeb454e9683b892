import Z80.CommandLine.Number
import Z80.Word

/-!
# Command lines

What the arguments of the command line ask for, and what can be wrong with them.
Options and the path of the program come in any order; an option that takes a
value takes the argument after it, whatever it is.
-/

namespace Z80

/-- How a program is to be executed. -/
structure Settings where
  /-- The address to load the program at, where it does not decide itself. -/
  origin : Option UInt16 := none
  breakpoints : List UInt16 := []
  /-- The greatest number of instructions of a run. -/
  maxSteps : UInt64 := 1000000
  /-- The number of single steps to make instead of a run. -/
  step : Option UInt64 := none
  trace : Bool := false
  deriving DecidableEq, Repr

/-- A program and how it is to be executed. -/
structure Invocation where
  /-- The path of the program. -/
  program : String
  settings : Settings := {}
  deriving DecidableEq, Repr

namespace Invocation

inductive Flag where
  | org | break | maxSteps | step | trace
  deriving DecidableEq, Repr

namespace Flag

def name : Flag → String
  | .org => "--org"
  | .break => "--break"
  | .maxSteps => "--max-steps"
  | .step => "--step"
  | .trace => "--trace"

def all : List Flag := [.org, .break, .maxSteps, .step, .trace]

def ofName? (name : String) : Option Flag :=
  all.find? fun flag => flag.name == name

end Flag

/-- What can be wrong with a command line. -/
inductive Flaw where
  | missingValue (flag : Flag)
  | unknownOption (argument : String)
  | unexpectedArgument (argument : String)
  | missingProgram
  | badNumber (text : String) (flaw : Numeral.Flaw)
  | badAddress (text : String)
  deriving DecidableEq, Repr

def usage : String :=
  "usage: z80dbg <program.bin|program.asm> [--org ADDR] [--break ADDR]... " ++
    "[--max-steps N] [--step N] [--trace]"

namespace Flaw

/-- A flaw in words, without the reason for which a number is refused. -/
def summary : Flaw → String
  | .missingValue flag => flag.name ++ " needs a value\n" ++ usage
  | .unknownOption argument => "unknown option '" ++ argument ++ "'\n" ++ usage
  | .unexpectedArgument argument => "unexpected argument '" ++ argument ++ "'\n" ++ usage
  | .missingProgram => "no program given\n" ++ usage
  | .badNumber text _ => "invalid number '" ++ text ++ "'"
  | .badAddress text => "address '" ++ text ++ "' is outside 0x0000..=0xFFFF"

/-- The reason for which a number is refused. -/
def reason : Numeral.Flaw → String
  | .empty => "cannot parse integer from empty string"
  | .badDigit => "invalid digit found in string"
  | .tooLarge => "number too large to fit in target type"

def message : Flaw → String
  | .badNumber text flaw => summary (.badNumber text flaw) ++ ": " ++ reason flaw
  | flaw => flaw.summary

end Flaw

/-- Read the value of an option that takes a number. -/
def readNumber (text : String) : Except Flaw UInt64 :=
  (CommandLine.readNumber text.toList).mapError (Flaw.badNumber text)

/-- Read the value of an option that takes an address. -/
def readAddress (text : String) : Except Flaw UInt16 := do
  let number ← readNumber text
  if number.toNat < 65536 then .ok number.toUInt16 else .error (.badAddress text)

/-- Change the setting that an option with a value names. -/
def set (settings : Settings) (flag : Flag) (value : String) : Except Flaw Settings :=
  match flag with
  | .org => (readAddress value).map fun address => { settings with origin := some address }
  | .break =>
      (readAddress value).map fun address =>
        { settings with breakpoints := settings.breakpoints ++ [address] }
  | .maxSteps => (readNumber value).map fun number => { settings with maxSteps := number }
  | .step => (readNumber value).map fun number => { settings with step := some number }
  | .trace => .ok { settings with trace := true }

/-- Read arguments one after another, where a program and settings may already
be known. -/
def readFrom (program : Option String) (settings : Settings) :
    List String → Except Flaw (Option String × Settings)
  | [] => .ok (program, settings)
  | argument :: rest =>
      match Flag.ofName? argument with
      | some .trace => readFrom program { settings with trace := true } rest
      | some flag =>
          match rest with
          | [] => .error (.missingValue flag)
          | value :: others => do
              let changed ← set settings flag value
              readFrom program changed others
      | none =>
          if "--".toList.isPrefixOf argument.toList then .error (.unknownOption argument)
          else if program.isSome then .error (.unexpectedArgument argument)
          else readFrom (some argument) settings rest

/-- Read the arguments of the command line. -/
def read (arguments : List String) : Except Flaw Invocation := do
  let (program, settings) ← readFrom none {} arguments
  match program with
  | some path => .ok ⟨path, settings⟩
  | none => .error .missingProgram

end Invocation

end Z80
