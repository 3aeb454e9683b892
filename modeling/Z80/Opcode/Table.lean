import Z80.Memory
import Z80.Opcode.Fields
import Z80.Opcode.Mnemonic
import Z80.Opcode.Operand
import Z80.Opcode.Page

/-!
# The opcode table

For every page and opcode, the mnemonic and the operands that the opcode stands
for, if it stands for any.  The listing of programs and the assembler both go by
this table.  An entry has a template, an encoding for every filling of its
operands, and a length, which counts the bytes that select its page.
-/

namespace Z80

/-- A mnemonic with its operands. -/
abbrev Form := Mnemonic × List Operand

/-- A defined opcode. -/
structure Entry where
  page : Page
  opcode : UInt8
  mnemonic : Mnemonic
  operands : List Operand
  deriving DecidableEq, Repr

namespace Entry

/-- How many bytes fill in the operands. -/
def payloadSize (entry : Entry) : Nat :=
  Operand.totalSize entry.operands

/-- The number of bytes of the instruction. -/
def length (entry : Entry) : Nat :=
  entry.page.leadBytes.length + 1 + entry.payloadSize

/-- The number of bytes before the first operand byte. -/
def payloadOffset (entry : Entry) : Nat :=
  if entry.page.displacementFirst then entry.page.leadBytes.length
  else entry.page.leadBytes.length + 1

/-- The bytes of the instruction whose operands are filled in by a payload. -/
def encode (entry : Entry) (payload : List UInt8) : List UInt8 :=
  if entry.page.displacementFirst then
    entry.page.leadBytes ++ payload ++ [entry.opcode]
  else
    entry.page.leadBytes ++ entry.opcode :: payload

/-- A mnemonic followed by operand texts. -/
def statement (mnemonic : Mnemonic) : List Text → Text
  | [] => mnemonic.text
  | operands => mnemonic.text ++ ' ' :: Text.join [','] operands

/-- The text of the instruction before its operands are filled in. -/
def template (entry : Entry) : Text :=
  statement entry.mnemonic (entry.operands.map Operand.template)

end Entry

namespace Table

/-- The eight-bit operand with a given three-bit code. -/
def place (code : Fin 8) : Keyword :=
  match code with
  | 0 => .b
  | 1 => .c
  | 2 => .d
  | 3 => .e
  | 4 => .h
  | 5 => .l
  | 6 => .atHL
  | _ => .a

/-- The register pair with a given two-bit code. -/
def pair (code : Fin 4) : Keyword :=
  match code with
  | 0 => .bc
  | 1 => .de
  | 2 => .hl
  | _ => .sp

/-- The register pair with a given two-bit code, where it is pushed or popped. -/
def stackPair (code : Fin 4) : Keyword :=
  match code with
  | 0 => .bc
  | 1 => .de
  | 2 => .hl
  | _ => .af

/-- The condition with a given three-bit code. -/
def condition (code : Fin 8) : Keyword :=
  match code with
  | 0 => .nz
  | 1 => .z
  | 2 => .nc
  | 3 => .c
  | 4 => .po
  | 5 => .pe
  | 6 => .p
  | _ => .m

/-- The operation with a given three-bit code, on the accumulator, which three
of the operations name. -/
def operation (code : Fin 8) (operand : Operand) : Form :=
  match code with
  | 0 => (.add, [.keyword .a, operand])
  | 1 => (.adc, [.keyword .a, operand])
  | 2 => (.sub, [operand])
  | 3 => (.sbc, [.keyword .a, operand])
  | 4 => (.and, [operand])
  | 5 => (.xor, [operand])
  | 6 => (.or, [operand])
  | _ => (.cp, [operand])

/-- The rotation with a given three-bit code. -/
def rotation (code : Fin 8) : Mnemonic :=
  match code with
  | 0 => .rlc
  | 1 => .rrc
  | 2 => .rl
  | 3 => .rr
  | 4 => .sla
  | 5 => .sra
  | 6 => .sll
  | _ => .srl

/-- A form whose operands are all keywords. -/
def fixed (mnemonic : Mnemonic) (keywords : List Keyword) : Form :=
  (mnemonic, keywords.map Operand.keyword)

/-- The forms of the base page below `0x40`. -/
def lowForm (opcode : UInt8) : Form :=
  let middle := Fields.middle opcode
  let self := Operand.keyword (pair (Fields.pair opcode))
  match Fields.last opcode with
  | 0 =>
      match middle with
      | 0 => fixed .nop []
      | 1 => fixed .ex [.af, .afShadow]
      | 2 => (.djnz, [.relative])
      | 3 => (.jr, [.relative])
      | code => (.jr, [.keyword (condition (code - 4)), .relative])
  | 1 =>
      if Fields.second opcode then (.add, [.keyword .hl, self])
      else (.ld, [self, .word])
  | 2 =>
      match middle with
      | 0 => fixed .ld [.atBC, .a]
      | 1 => fixed .ld [.a, .atBC]
      | 2 => fixed .ld [.atDE, .a]
      | 3 => fixed .ld [.a, .atDE]
      | 4 => (.ld, [.cell, .keyword .hl])
      | 5 => (.ld, [.keyword .hl, .cell])
      | 6 => (.ld, [.cell, .keyword .a])
      | _ => (.ld, [.keyword .a, .cell])
  | 3 => if Fields.second opcode then (.dec, [self]) else (.inc, [self])
  | 4 => fixed .inc [place middle]
  | 5 => fixed .dec [place middle]
  | 6 => (.ld, [.keyword (place middle), .byte])
  | _ =>
      match middle with
      | 0 => fixed .rlca []
      | 1 => fixed .rrca []
      | 2 => fixed .rla []
      | 3 => fixed .rra []
      | 4 => fixed .daa []
      | 5 => fixed .cpl []
      | 6 => fixed .scf []
      | _ => fixed .ccf []

/-- The forms of the base page from `0xC0` on. -/
def highForm? (opcode : UInt8) : Option Form :=
  let middle := Fields.middle opcode
  let when := Operand.keyword (condition middle)
  match Fields.last opcode with
  | 0 => some (.ret, [when])
  | 1 =>
      match middle with
      | 1 => some (fixed .ret [])
      | 3 => some (fixed .exx [])
      | 5 => some (fixed .jp [.atHL])
      | 7 => some (fixed .ld [.sp, .hl])
      | _ => some (fixed .pop [stackPair (Fields.pair opcode)])
  | 2 => some (.jp, [when, .word])
  | 3 =>
      match middle with
      | 0 => some (.jp, [.word])
      | 4 => some (fixed .ex [.atSP, .hl])
      | 5 => some (fixed .ex [.de, .hl])
      | 6 => some (fixed .di [])
      | 7 => some (fixed .ei [])
      | _ => none
  | 4 => some (.call, [when, .word])
  | 5 =>
      match middle with
      | 1 => some (.call, [.word])
      | 3 => none
      | 5 => none
      | 7 => none
      | _ => some (fixed .push [stackPair (Fields.pair opcode)])
  | 6 => some (operation middle .byte)
  | _ => some (.rst, [.vector (opcode &&& 0x38)])

/-- The forms of the base page. -/
def baseForm? (opcode : UInt8) : Option Form :=
  match Fields.group opcode with
  | 0 => some (lowForm opcode)
  | 1 =>
      if opcode = 0x76 then some (fixed .halt [])
      else some (fixed .ld [place (Fields.middle opcode), place (Fields.last opcode)])
  | 2 =>
      some (operation (Fields.middle opcode) (.keyword (place (Fields.last opcode))))
  | _ => highForm? opcode

/-- The forms of the bit pages, on a given operand. -/
def bitForm (opcode : UInt8) (target : Operand) : Form :=
  let position := Fields.middle opcode
  match Fields.group opcode with
  | 0 => (rotation position, [target])
  | 1 => (.bit, [.digit position, target])
  | 2 => (.res, [.digit position, target])
  | _ => (.set, [.digit position, target])

/-- The block instruction with given codes for its way and its deed. -/
def blockForm? (way deed : Fin 8) : Option Form :=
  match way, deed with
  | 4, 0 => some (fixed .ldi [])
  | 4, 1 => some (fixed .cpi [])
  | 5, 0 => some (fixed .ldd [])
  | 5, 1 => some (fixed .cpd [])
  | 6, 0 => some (fixed .ldir [])
  | 6, 1 => some (fixed .cpir [])
  | 7, 0 => some (fixed .lddr [])
  | 7, 1 => some (fixed .cpdr [])
  | _, _ => none

/-- The forms of the extended page. -/
def extendedForm? (opcode : UInt8) : Option Form :=
  let middle := Fields.middle opcode
  let self := Operand.keyword (pair (Fields.pair opcode))
  match Fields.group opcode, Fields.last opcode with
  | 1, 2 =>
      if Fields.second opcode then some (.adc, [.keyword .hl, self])
      else some (.sbc, [.keyword .hl, self])
  | 1, 3 =>
      if Fields.second opcode then some (.ld, [self, .cell])
      else some (.ld, [.cell, self])
  | 1, 4 => if middle = 0 then some (fixed .neg []) else none
  | 1, 5 =>
      match middle with
      | 0 => some (fixed .retn [])
      | 1 => some (fixed .reti [])
      | _ => none
  | 1, 6 =>
      match middle with
      | 0 => some (.im, [.digit 0])
      | 2 => some (.im, [.digit 1])
      | 3 => some (.im, [.digit 2])
      | _ => none
  | 1, 7 =>
      match middle with
      | 0 => some (fixed .ld [.i, .a])
      | 1 => some (fixed .ld [.r, .a])
      | 2 => some (fixed .ld [.a, .i])
      | 3 => some (fixed .ld [.a, .r])
      | 4 => some (fixed .rrd [])
      | 5 => some (fixed .rld [])
      | _ => none
  | 2, deed => blockForm? middle deed
  | _, _ => none

/-- The forms of the index pages. -/
def indexedForm? (register : IndexRegister) (opcode : UInt8) : Option Form :=
  let middle := Fields.middle opcode
  let last := Fields.last opcode
  let self := Keyword.index register
  let near := Operand.indexed register
  match opcode with
  | 0x09 => some (fixed .add [self, .bc])
  | 0x19 => some (fixed .add [self, .de])
  | 0x29 => some (fixed .add [self, self])
  | 0x39 => some (fixed .add [self, .sp])
  | 0x21 => some (.ld, [.keyword self, .word])
  | 0x22 => some (.ld, [.cell, .keyword self])
  | 0x2A => some (.ld, [.keyword self, .cell])
  | 0x23 => some (fixed .inc [self])
  | 0x2B => some (fixed .dec [self])
  | 0x34 => some (.inc, [near])
  | 0x35 => some (.dec, [near])
  | 0x36 => some (.ld, [near, .byte])
  | 0xE1 => some (fixed .pop [self])
  | 0xE3 => some (fixed .ex [.atSP, self])
  | 0xE5 => some (fixed .push [self])
  | 0xE9 => some (fixed .jp [Keyword.atIndex register])
  | 0xF9 => some (fixed .ld [.sp, self])
  | _ =>
      match Fields.group opcode with
      | 1 =>
          if middle = 6 then
            if last = 6 then none else some (.ld, [near, .keyword (place last)])
          else
            if last = 6 then some (.ld, [.keyword (place middle), near]) else none
      | 2 => if last = 6 then some (operation middle near) else none
      | _ => none

/-- The form an opcode stands for. -/
def form? (page : Page) (opcode : UInt8) : Option Form :=
  match page with
  | .base => baseForm? opcode
  | .bits => some (bitForm opcode (.keyword (place (Fields.last opcode))))
  | .extended => extendedForm? opcode
  | .indexed register => indexedForm? register opcode
  | .indexedBits register =>
      if Fields.last opcode = 6 then some (bitForm opcode (.indexed register)) else none

def get? (page : Page) (opcode : UInt8) : Option Entry :=
  (form? page opcode).map fun form => ⟨page, opcode, form.1, form.2⟩

/-- The 256 opcodes in ascending order. -/
def opcodes : List UInt8 :=
  (List.range 256).map UInt8.ofNat

def pageEntries (page : Page) : List Entry :=
  opcodes.filterMap (get? page)

/-- All entries, page by page. -/
def entries : List Entry :=
  Page.all.flatMap pageEntries

/-- The entries with a given mnemonic, in the order of the table. -/
def withMnemonic (mnemonic : Mnemonic) : List Entry :=
  entries.filter fun entry => entry.mnemonic = mnemonic

/-- The entry for the instruction at an address of a memory. -/
def lookup? (memory : Memory) (address : UInt16) : Option Entry :=
  let first := memory.read address
  if first = 0xCB then get? .bits (memory.read (address + 1))
  else if first = 0xED then get? .extended (memory.read (address + 1))
  else
    match IndexRegister.ofLeadByte? first with
    | some register =>
        let opcode := memory.read (address + 1)
        if opcode = 0xCB then
          get? (.indexedBits register) (memory.read (address + 3))
        else
          get? (.indexed register) opcode
    | none => get? .base first

end Table

end Z80
