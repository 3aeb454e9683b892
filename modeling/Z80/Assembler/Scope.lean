import Z80.Assembler.Problem

/-!
# Values on a line

What the expressions of a line stand for.  While addresses are laid out, a label
may not be known yet and counts as zero, and no value is held against its range;
when bytes are emitted, every label has to be known and every value has to fit.
-/

namespace Z80

/-- The two readings of a source. -/
inductive Pass where
  /-- Collect the addresses of labels. -/
  | layout
  /-- Produce the bytes. -/
  | emit
  deriving DecidableEq, Repr

/-- Where and how strictly expressions are evaluated. -/
structure Scope where
  pass : Pass
  labels : Labels
  /-- The address of the line. -/
  here : UInt16

namespace Scope

def value (scope : Scope) (expression : Text) : Except Problem Int :=
  match Expression.evaluate scope.here scope.labels expression, scope.pass with
  | .ok value, _ => .ok value
  | .error (.undefined _), .layout => .ok 0
  | .error flaw, _ => .error (.expression flaw)

/-- The value of an expression, which has to lie in a range when bytes are emitted. -/
def valueIn (scope : Scope) (range : ValueRange) (expression : Text) :
    Except Problem Int := do
  let value ← scope.value expression
  if scope.pass = .emit ∧ !range.contains value then
    .error (.outOfRange expression value range)
  else
    .ok value

def byte (scope : Scope) (expression : Text) : Except Problem UInt8 :=
  (scope.valueIn ValueRange.byte expression).map UInt8.ofInt

def word (scope : Scope) (expression : Text) : Except Problem UInt16 :=
  (scope.valueIn ValueRange.word expression).map UInt16.ofInt

def displacement (scope : Scope) (expression : Text) : Except Problem UInt8 :=
  (scope.valueIn ValueRange.displacement expression).map UInt8.ofInt

/-- The displacement to the address an expression stands for, from the end of an
instruction of a given length. -/
def relative (scope : Scope) (length : Nat) (expression : Text) : Except Problem UInt8 := do
  let target ← scope.value expression
  let offset := Number.wrap (target - (scope.here.toNat + length))
  if scope.pass = .emit ∧ !ValueRange.displacement.contains offset then
    .error (.jumpTooFar target offset)
  else
    .ok (UInt8.ofInt offset)

end Scope

end Z80
