import Z80.Assembler.Number

/-!
# Expressions

An expression is a sum of terms with signs.  A term is a number, the name of a
label, or `$` for the address of the line.  White space does not count, and any
number of signs may stand before a term.  The first term that has no value
decides the failure.  A sum that leaves the 64-bit numbers wraps around.
-/

namespace Z80

/-- The addresses of labels. -/
abbrev Labels := List (Text × UInt16)

/-- Whether a character may begin an identifier. -/
def isIdentifierStart (character : Char) : Bool :=
  character.isAlpha || character == '_' || character == '.'

def isIdentifier : Text → Bool
  | [] => false
  | first :: rest =>
      isIdentifierStart first &&
        rest.all fun character => isIdentifierStart character || character.isDigit

namespace Expression

/-- Why an expression has no value. -/
inductive Flaw where
  | missingValue
  | missingTerm
  | invalidTerm (term : Text)
  | undefined (name : Text)
  deriving DecidableEq, Repr

/-- A term together with the signs before it. -/
structure Term where
  signs : Text
  text : Text
  deriving DecidableEq, Repr

def isSign (character : Char) : Bool :=
  character == '+' || character == '-'

/-- Put a character in front of a sequence of terms. -/
def extend (character : Char) : List Term → List Term
  | [] => if isSign character then [⟨[character], []⟩] else [⟨[], [character]⟩]
  | first :: rest =>
      if isSign character then ⟨character :: first.signs, first.text⟩ :: rest
      else if first.signs = [] then ⟨[], character :: first.text⟩ :: rest
      else ⟨[], [character]⟩ :: first :: rest

/-- Divide a text into terms, each with the signs before it. -/
def terms (text : Text) : List Term :=
  text.foldr extend []

/-- The factor that signs stand for. -/
def factor (signs : Text) : Int :=
  if signs.count '-' % 2 = 0 then 1 else -1

/-- The value of a term without its signs, where the address of a label is looked up. -/
def termValue (here : UInt16) (lookup : Text → Option UInt16) (term : Text) :
    Except Flaw Int :=
  if term = [] then .error .missingTerm
  else if term = ['$'] then .ok here.toNat
  else
    match Number.read? term with
    | some number => .ok number
    | none =>
        if isIdentifier term then
          match lookup term with
          | some address => .ok address.toNat
          | none => .error (.undefined term)
        else
          .error (.invalidTerm term)

/-- Add the values of terms to a total, from the left. -/
def sumFrom (here : UInt16) (lookup : Text → Option UInt16) (total : Int) :
    List Term → Except Flaw Int
  | [] => .ok total
  | term :: rest => do
      let value ← termValue here lookup term.text
      sumFrom here lookup (Number.wrap (total + factor term.signs * value)) rest

/-- The value of an expression on a line at an address, however labels are looked up. -/
def evaluateWith (here : UInt16) (lookup : Text → Option UInt16) (text : Text) :
    Except Flaw Int :=
  let compacted := Text.compact text
  if compacted = [] then .error .missingValue
  else sumFrom here lookup 0 (terms compacted)

/-- The value of an expression on a line at an address. -/
def evaluate (here : UInt16) (labels : Labels) (text : Text) : Except Flaw Int :=
  evaluateWith here (fun name => labels.lookup name) text

/-- White space does not count. -/
theorem evaluateWith_compact (here : UInt16) (lookup : Text → Option UInt16) (text : Text) :
    evaluateWith here lookup (Text.compact text) = evaluateWith here lookup text := by
  simp [evaluateWith]

theorem evaluate_compact (here : UInt16) (labels : Labels) (text : Text) :
    evaluate here labels (Text.compact text) = evaluate here labels text :=
  evaluateWith_compact here _ text

end Expression

end Z80
