import Z80.Text.Basic

/-!
# Separators outside strings

A double quote opens or closes a string.  This file finds a separator outside
strings and divides a text at all of them.
-/

namespace Z80

namespace Quoted

/-- The character that opens and closes a string. -/
def quote : Char := '"'

/-- Whether the text after a character is inside a string. -/
def after (inside : Bool) (character : Char) : Bool :=
  if character = quote then !inside else inside

/-- Divide a text at the first separator outside strings; the text itself begins
inside a string or not. -/
def cutFrom? (separator : Char) (inside : Bool) : Text → Option (Text × Text)
  | [] => none
  | character :: rest =>
      if character = separator && !inside then
        some ([], rest)
      else
        (cutFrom? separator (after inside character) rest).map fun parts =>
          (character :: parts.1, parts.2)

/-- Divide a text at the first separator outside strings. -/
def cut? (separator : Char) (text : Text) : Option (Text × Text) :=
  cutFrom? separator false text

/-- The part of a text before the first separator outside strings. -/
def before (separator : Char) (text : Text) : Text :=
  (cut? separator text).elim text Prod.fst

/-- Divide a text at every separator outside strings; the text itself begins
inside a string or not. -/
def splitFrom (separator : Char) (inside : Bool) : Text → List Text
  | [] => [[]]
  | character :: rest =>
      if character = separator && !inside then
        [] :: splitFrom separator inside rest
      else
        match splitFrom separator (after inside character) rest with
        | [] => [[character]]
        | first :: others => (character :: first) :: others

/-- Divide a text at every separator outside strings. -/
def split (separator : Char) (text : Text) : List Text :=
  splitFrom separator false text

/-- Whether every string of a text is closed. -/
def isClosed (text : Text) : Bool :=
  text.count quote % 2 == 0

/-- The content of a text that is a string from end to end. -/
def content? : Text → Option Text
  | [] => none
  | first :: rest =>
      if first = quote ∧ rest.getLast? = some quote then some rest.dropLast else none

end Quoted

end Z80
