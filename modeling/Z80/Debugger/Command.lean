import Z80.Debugger.Run

/-!
# Commands

What can be asked of a debugger one request at a time, and what it replies.  The
replies show the machine and the breakpoints; the records of what was executed
are no part of them.
-/

namespace Z80

/-- A request to a debugger. -/
inductive Command where
  | reset
  | load (start : UInt16) (bytes : List UInt8)
  | write (address : UInt16) (byte : UInt8)
  | writeWord (address word : UInt16)
  | patch (update : Patch)
  | exchangeBanks
  | setBreakpoint (address : UInt16)
  | clearBreakpoint (address : UInt16)
  | toggleBreakpoint (address : UInt16)
  | clearBreakpoints
  | step
  | runFor (limit : Nat)
  | run
  | read (address : UInt16)
  | readWord (address : UInt16)
  | state
  | breakpoints
  | row (address : UInt16)
  deriving DecidableEq, Repr

/-- What a debugger answers. -/
inductive Reply where
  | done
  /-- Whether a step was made, or a toggled breakpoint is now set. -/
  | flag (value : Bool)
  | byte (value : UInt8)
  | word (value : UInt16)
  | cpu (state : Cpu)
  | addresses (ascending : List UInt16)
  | row (listed : Row)
  | ended (summary : RunSummary)
  deriving DecidableEq, Repr

/-- Do what is asked, and answer. -/
def Command.perform (command : Command) (debugger : Debugger) : Reply × Debugger :=
  match command with
  | .reset => (.done, debugger.reset)
  | .load start bytes => (.done, debugger.load start bytes)
  | .write address byte => (.done, debugger.write address byte)
  | .writeWord address word => (.done, debugger.writeWord address word)
  | .patch update => (.done, debugger.patch update)
  | .exchangeBanks => (.done, debugger.exchangeBanks)
  | .setBreakpoint address => (.done, debugger.setBreakpoint address)
  | .clearBreakpoint address => (.done, debugger.clearBreakpoint address)
  | .toggleBreakpoint address =>
      (.flag (debugger.breakpoints.toggle address).1, debugger.toggleBreakpoint address)
  | .clearBreakpoints => (.done, debugger.clearBreakpoints)
  | .step => (.flag !debugger.cpu.halted, debugger.step)
  | .runFor limit =>
      let ended := debugger.runFor limit
      (.ended ended.1, ended.2)
  | .run =>
      let ended := debugger.run
      (.ended ended.1, ended.2)
  | .read address => (.byte (debugger.memory.read address), debugger)
  | .readWord address => (.word (debugger.memory.readWord address), debugger)
  | .state => (.cpu debugger.cpu, debugger)
  | .breakpoints => (.addresses debugger.breakpoints.addresses, debugger)
  | .row address => (.row (debugger.row address), debugger)

namespace Debugger

/-- Perform commands one after another, collecting the replies. -/
def performAll : List Command → Debugger → List Reply × Debugger
  | [], debugger => ([], debugger)
  | command :: rest, debugger =>
      let answered := command.perform debugger
      let further := performAll rest answered.2
      (answered.1 :: further.1, further.2)

theorem performAll_append (former latter : List Command) (debugger : Debugger) :
    performAll (former ++ latter) debugger =
      ((performAll former debugger).1 ++ (performAll latter (performAll former debugger).2).1,
        (performAll latter (performAll former debugger).2).2) := by
  induction former generalizing debugger with
  | nil => rfl
  | cons command rest ih =>
      rw [List.cons_append, performAll, ih]
      rfl

theorem length_performAll (commands : List Command) (debugger : Debugger) :
    (performAll commands debugger).1.length = commands.length := by
  induction commands generalizing debugger with
  | nil => rfl
  | cons command rest ih => exact congrArg Nat.succ (ih _)

end Debugger

end Z80
