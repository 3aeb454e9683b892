import Z80.Assembler.Assembly

/-!
# Program files

A program file is assembled if its extension says that it is a source, and
loaded as it is otherwise.
-/

namespace Z80

/-- Bytes and the address they are loaded at. -/
structure Program where
  origin : UInt16 := 0
  bytes : List UInt8 := []
  deriving DecidableEq, Repr

namespace Program

/-- What can be wrong with a program file. -/
inductive Flaw where
  | unreadableSource (path cause : String)
  | unreadableBinary (path cause : String)
  | unassembled (path : String) (error : AssemblyError)
  | tooLarge (path : String)
  deriving DecidableEq, Repr

def Flaw.message : Flaw → String
  | .unreadableSource path cause => "failed to read source '" ++ path ++ "': " ++ cause
  | .unreadableBinary path cause => "failed to read binary '" ++ path ++ "': " ++ cause
  | .unassembled path error => "failed to assemble '" ++ path ++ "': " ++ error.message
  | .tooLarge path => "'" ++ path ++ "' is larger than 64K"

/-- The last component of a path that is no reference to its own folder. -/
def fileName? (path : Text) : Option Text :=
  ((Text.splitAt '/' path).filter fun part => part != [] && part != ['.']).getLast?

/-- The part of a file name after its last dot, unless that is its first character. -/
def extension? (name : Text) : Option Text :=
  if name = ['.', '.'] then none
  else
    let isDot := fun character => character == '.'
    let tail := name.reverse.takeWhile fun character => !isDot character
    match name.reverse.dropWhile fun character => !isDot character with
    | [] => none
    | [_] => none
    | _ :: _ :: _ => some tail.reverse

/-- The extensions of sources, in lower case. -/
def sourceExtensions : List Text :=
  ["asm".toList, "z80".toList, "s".toList]

/-- Whether a path names a source. -/
def isSource (path : String) : Bool :=
  match (fileName? path.toList).bind extension? with
  | some extension => sourceExtensions.contains (Text.lower extension)
  | none => false

/-- Assemble the content of a source file. -/
def assembleFile (path : String) (content : ByteArray) : Except Flaw Assembly :=
  match String.fromUTF8? content with
  | none => .error (.unreadableSource path "stream did not contain valid UTF-8")
  | some source => (assemble source).mapError (Flaw.unassembled path)

/-- The program in a file whose content, or the cause for which there is none, is
given.  An address that is asked for wins over that of the source. -/
def read (path : String) (origin : Option UInt16) (content : Except String ByteArray) :
    Except Flaw Program :=
  if isSource path then
    match content with
    | .error cause => .error (.unreadableSource path cause)
    | .ok content =>
        (assembleFile path content).map fun assembly =>
          ⟨origin.getD assembly.origin, assembly.bytes⟩
  else
    match content with
    | .error cause => .error (.unreadableBinary path cause)
    | .ok content =>
        if 65536 < content.size then .error (.tooLarge path)
        else .ok ⟨origin.getD 0, content.data.toList⟩

end Program

end Z80
