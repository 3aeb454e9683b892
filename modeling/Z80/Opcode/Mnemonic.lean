import Z80.Text.Basic

/-!
# Mnemonics

The names of the instructions.
-/

namespace Z80

/-- The name of an instruction. -/
inductive Mnemonic where
  | adc | add | and | bit | call | ccf | cp | cpd | cpdr | cpi | cpir | cpl | daa
  | dec | di | djnz | ei | ex | exx | halt | im | inc | jp | jr | ld | ldd | lddr
  | ldi | ldir | neg | nop | or | pop | push | res | ret | reti | retn | rl | rla
  | rlc | rlca | rld | rr | rra | rrc | rrca | rrd | rst | sbc | scf | set | sla
  | sll | sra | srl | sub | xor
  deriving DecidableEq, Repr

namespace Mnemonic

def all : List Mnemonic :=
  [.adc, .add, .and, .bit, .call, .ccf, .cp, .cpd, .cpdr, .cpi, .cpir, .cpl, .daa,
    .dec, .di, .djnz, .ei, .ex, .exx, .halt, .im, .inc, .jp, .jr, .ld, .ldd, .lddr,
    .ldi, .ldir, .neg, .nop, .or, .pop, .push, .res, .ret, .reti, .retn, .rl, .rla,
    .rlc, .rlca, .rld, .rr, .rra, .rrc, .rrca, .rrd, .rst, .sbc, .scf, .set, .sla,
    .sll, .sra, .srl, .sub, .xor]

def name : Mnemonic → String
  | .adc => "ADC" | .add => "ADD" | .and => "AND" | .bit => "BIT" | .call => "CALL"
  | .ccf => "CCF" | .cp => "CP" | .cpd => "CPD" | .cpdr => "CPDR" | .cpi => "CPI"
  | .cpir => "CPIR" | .cpl => "CPL" | .daa => "DAA" | .dec => "DEC" | .di => "DI"
  | .djnz => "DJNZ" | .ei => "EI" | .ex => "EX" | .exx => "EXX" | .halt => "HALT"
  | .im => "IM" | .inc => "INC" | .jp => "JP" | .jr => "JR" | .ld => "LD"
  | .ldd => "LDD" | .lddr => "LDDR" | .ldi => "LDI" | .ldir => "LDIR" | .neg => "NEG"
  | .nop => "NOP" | .or => "OR" | .pop => "POP" | .push => "PUSH" | .res => "RES"
  | .ret => "RET" | .reti => "RETI" | .retn => "RETN" | .rl => "RL" | .rla => "RLA"
  | .rlc => "RLC" | .rlca => "RLCA" | .rld => "RLD" | .rr => "RR" | .rra => "RRA"
  | .rrc => "RRC" | .rrca => "RRCA" | .rrd => "RRD" | .rst => "RST" | .sbc => "SBC"
  | .scf => "SCF" | .set => "SET" | .sla => "SLA" | .sll => "SLL" | .sra => "SRA"
  | .srl => "SRL" | .sub => "SUB" | .xor => "XOR"

def text (mnemonic : Mnemonic) : Text :=
  mnemonic.name.toList

/-- The mnemonic with a given written form. -/
def ofText? (text : Text) : Option Mnemonic :=
  all.find? fun mnemonic => mnemonic.text == text

theorem mem_all (mnemonic : Mnemonic) : mnemonic ∈ all := by
  cases mnemonic <;> decide

theorem ofText?_text (mnemonic : Mnemonic) : ofText? mnemonic.text = some mnemonic := by
  cases mnemonic <;> decide

end Mnemonic

end Z80
