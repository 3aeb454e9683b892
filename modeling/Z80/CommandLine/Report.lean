import Z80.Debugger.Run

/-!
# Reports

What is printed about an execution: how it ended, the faults on the way, the
registers, and the instruction that would come next.
-/

namespace Z80

namespace Cpu

/-- The registers, control settings and flags on five lines. -/
def report (cpu : Cpu) : String :=
  let pairs := fun (mark : String) (bank : Bank) =>
    "AF" ++ mark ++ "=" ++ Hex.word bank.af ++ " BC" ++ mark ++ "=" ++ Hex.word bank.bc ++
      " DE" ++ mark ++ "=" ++ Hex.word bank.de ++ " HL" ++ mark ++ "=" ++ Hex.word bank.hl
  let flags := cpu.main.flags.names
  String.intercalate "\n"
    [pairs " " cpu.main,
      pairs "'" cpu.shadow,
      "IX =" ++ Hex.word cpu.ix ++ " IY =" ++ Hex.word cpu.iy ++ " SP =" ++
        Hex.word cpu.sp ++ " PC =" ++ Hex.word cpu.pc,
      "I=" ++ Hex.byte cpu.i ++ " R=" ++ Hex.byte cpu.r ++ " IM=" ++
        toString cpu.interruptMode.number ++ " IFF=" ++
        (if cpu.interruptsEnabled then "1" else "0") ++ " halted=" ++
        (if cpu.halted then "true" else "false"),
      "flags: " ++ (if flags.isEmpty then "-" else String.intercalate " " flags)]

end Cpu

namespace Debugger

/-- The line about the faults that are remembered, if there are any. -/
def faultReport (debugger : Debugger) : String :=
  match debugger.faults.newest? with
  | some fault =>
      toString debugger.faults.count ++ " decode fault(s), last: " ++ fault.message ++ "\n"
  | none => ""

/-- What is printed after an execution. -/
def report (summary : RunSummary) (debugger : Debugger) : String :=
  summary.describe ++ "\n" ++ debugger.faultReport ++ debugger.cpu.report ++ "\nnext: " ++
    (debugger.row debugger.pc).line ++ "\n"

end Debugger

end Z80
