import Z80.Assembler.Problem

/-!
# Program images

The bytes of a program from its origin on.  The origin is settled by the first
`ORG` or by the first byte, whichever comes first.  The address of the next byte is
kept on its own, as a 32-bit number, so that it can be seen to leave the memory.
-/

namespace Z80

/-- The bytes of a program and the address of the first of them. -/
structure Image where
  /-- The address of the first byte, once it is settled. -/
  origin? : Option UInt16 := none
  /-- The address of the next byte, which may be just past the last address. -/
  address : UInt32 := 0
  bytes : Array UInt8 := #[]

namespace Image

def empty : Image := {}

/-- The address of the first byte; zero until it is settled. -/
def origin (image : Image) : UInt16 :=
  image.origin?.getD 0

/-- The address of the next byte as a word. -/
def here (image : Image) : UInt16 :=
  image.address.toUInt16

/-- Cut bytes off, or fill them up with zeros, to a given number of bytes. -/
def resize (bytes : Array UInt8) (size : Nat) : Array UInt8 :=
  bytes.take size ++ Array.replicate (size - bytes.size) 0

/-- Settle the origin, or fill up with zeros to a later address. -/
def moveTo (image : Image) (target : UInt16) : Except Problem Image :=
  match image.origin? with
  | none => .ok { image with origin? := some target, address := target.toUInt32 }
  | some origin =>
      if target.toUInt32 < image.address then
        .error (.originBackwards target image.address.toNat)
      else
        .ok { image with
          address := target.toUInt32
          bytes := resize image.bytes (target.toUInt32 - origin.toUInt32).toNat }

/-- Put bytes at the next address.  No bytes do not settle the origin. -/
def append (image : Image) (bytes : List UInt8) : Except Problem Image :=
  if bytes = [] then .ok image
  else
    let finish := image.address + UInt32.ofNat bytes.length
    if 0x10000 < finish then .error .pastEnd
    else .ok { origin? := some image.origin, address := finish, bytes := image.bytes ++ bytes }

end Image

end Z80
