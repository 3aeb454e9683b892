import Z80.Assembler.Encoding
import Z80.Assembler.Image

/-!
# Assembling a source

A source is read twice.  The first reading lays out addresses and collects the
labels, the second produces the bytes with every label known.
-/

namespace Z80

/-- An assembled program. -/
structure Assembly where
  origin : UInt16 := 0
  bytes : List UInt8 := []
  labels : Labels := []
  deriving DecidableEq, Repr

/-- How far a reading has come. -/
structure Progress where
  image : Image := Image.empty
  labels : Labels := []

namespace Progress

/-- Let an `ORG` statement move the image.  Its address has to be known at once. -/
def moveOrigin (progress : Progress) (statement : Statement) : Except Problem Progress :=
  match statement.operands with
  | [operand] => do
      let scope : Scope := ⟨.emit, progress.labels, progress.image.here⟩
      let target ← scope.word operand
      let image ← progress.image.moveTo target
      return { progress with image := image }
  | _ => .error .originOperands

/-- Let the statement of a line move the image if it is an `ORG`. -/
def arrive (progress : Progress) (line : Line) : Except Problem Progress :=
  match line.statement with
  | some statement =>
      if statement.directive = .origin then progress.moveOrigin statement
      else .ok progress
  | none => .ok progress

/-- Give a label the current address.  Only the first reading does so. -/
def define (progress : Progress) (pass : Pass) (label : Option Text) :
    Except Problem Progress :=
  match label, pass with
  | some name, .layout =>
      if (progress.labels.lookup name).isSome then .error (.duplicateLabel name)
      else .ok { progress with labels := (name, progress.image.here) :: progress.labels }
  | _, _ => .ok progress

/-- Place the bytes of the statement of a line that stands at an address. -/
def place (progress : Progress) (pass : Pass) (here : UInt16) (line : Line) :
    Except Problem Progress :=
  match line.statement with
  | none => .ok progress
  | some statement => do
      let scope : Scope := ⟨pass, progress.labels, here⟩
      let bytes ← scope.statement statement
      let image ← progress.image.append bytes
      return { progress with image := image }

def locate {α : Type} (line : Nat) (address : UInt16) (result : Except Problem α) :
    Except AssemblyError α :=
  result.mapError fun problem => ⟨line, address, problem⟩

/-- Process one line. -/
def advance (pass : Pass) (progress : Progress) (number : Nat) (line : Line) :
    Except AssemblyError Progress := do
  let here := progress.image.here
  let arrived ← locate number here (progress.arrive line)
  let defined ← locate number arrived.image.here (arrived.define pass line.label)
  locate number here (defined.place pass here line)

/-- Process numbered lines one after another. -/
def walk (pass : Pass) (progress : Progress) :
    List (Nat × Line) → Except AssemblyError Progress
  | [] => .ok progress
  | (number, line) :: rest => do
      let next ← progress.advance pass number line
      walk pass next rest

end Progress

namespace Assembly

/-- Read the lines of a source, numbered from a given number on. -/
def readLines (number : Nat) : List Text → Except AssemblyError (List (Nat × Line))
  | [] => .ok []
  | text :: rest => do
      let line ← Progress.locate number 0 ((Line.read text).mapError Problem.line)
      let lines ← readLines (number + 1) rest
      return (number, line) :: lines

def ofLines (lines : List (Nat × Line)) : Except AssemblyError Assembly := do
  let laidOut ← Progress.walk .layout {} lines
  let emitted ← Progress.walk .emit { labels := laidOut.labels } lines
  return ⟨emitted.image.origin, emitted.image.bytes.toList, laidOut.labels⟩

/-- Assemble a source, given as a list of characters. -/
def ofText (source : Text) : Except AssemblyError Assembly := do
  let lines ← readLines 1 (Line.split source)
  ofLines lines

end Assembly

def assemble (source : String) : Except AssemblyError Assembly :=
  Assembly.ofText source.toList

end Z80
