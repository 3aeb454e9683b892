/-!
# Texts

Source lines, operands and listings are handled as lists of characters.  This
file fixes the type, the folding of letter case, and the class of white space.
Letter case concerns the letters of ASCII alone; white space is the Unicode
property of that name.
-/

namespace Z80

/-- A text as the list of its characters. -/
abbrev Text := List Char

namespace Text

/-- Upper-case every ASCII letter. -/
def upper (text : Text) : Text :=
  text.map Char.toUpper

/-- Lower-case every ASCII letter. -/
def lower (text : Text) : Text :=
  text.map Char.toLower

/-- The code points with the property White_Space, as closed ranges. -/
def blankRanges : List (Nat × Nat) :=
  [(0x09, 0x0D), (0x20, 0x20), (0x85, 0x85), (0xA0, 0xA0), (0x1680, 0x1680),
    (0x2000, 0x200A), (0x2028, 0x2029), (0x202F, 0x202F), (0x205F, 0x205F),
    (0x3000, 0x3000)]

/-- Whether a character is white space. -/
def isBlank (character : Char) : Bool :=
  blankRanges.any fun range =>
    range.1 ≤ character.toNat && character.toNat ≤ range.2

def trimStart (text : Text) : Text :=
  text.dropWhile isBlank

def trimEnd (text : Text) : Text :=
  (trimStart text.reverse).reverse

def trim (text : Text) : Text :=
  trimEnd (trimStart text)

/-- Drop white space everywhere. -/
def compact (text : Text) : Text :=
  text.filter fun character => !isBlank character

/-- Concatenate texts with a separator between neighbours. -/
def join (separator : Text) : List Text → Text
  | [] => []
  | [last] => last
  | first :: second :: rest => first ++ separator ++ join separator (second :: rest)

/-- Divide a text at every separator. -/
def splitAt (separator : Char) : Text → List Text
  | [] => [[]]
  | character :: rest =>
      if character = separator then
        [] :: splitAt separator rest
      else
        match splitAt separator rest with
        | [] => [[character]]
        | first :: others => (character :: first) :: others

/-- A compacted text has no white space left. -/
theorem isBlank_of_mem_compact {text : Text} {character : Char}
    (member : character ∈ compact text) : isBlank character = false := by
  simpa using (List.mem_filter.mp member).2

@[simp] theorem compact_compact (text : Text) :
    compact (compact text) = compact text := by
  simp [compact]

end Text

end Z80
