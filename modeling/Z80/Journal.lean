import Z80.CommandLine.Response

/-!
# The journal

What is noted while a machine is operated, a source assembled or a program
executed.  The operations themselves know nothing of it: the events of an
operation are a function of what it is applied to.
-/

namespace Z80

/-- How important an event is. -/
inductive Level where
  | warn | info | debug | trace
  deriving DecidableEq, Repr

def Level.name : Level → String
  | .warn => "WARN"
  | .info => "INFO"
  | .debug => "DEBUG"
  | .trace => "TRACE"

/-- Something that is noted. -/
inductive Event where
  | reset
  | loading (size : Nat) (start : UInt16)
  | breakpointSet (address : UInt16)
  | breakpointCleared (address : UInt16)
  | executing (row : Row)
  | halting (address : UInt16)
  | fault (found : Fault)
  | runEnded (summary : RunSummary)
  | assembled (assembly : Assembly)
  | programAssembled (path : String) (assembly : Assembly)
  | programLoading (program : Program)
  deriving DecidableEq, Repr

namespace Event

def level : Event → Level
  | .executing _ => .trace
  | .fault _ => .warn
  | .programAssembled _ _ => .info
  | .programLoading _ => .info
  | _ => .debug

/-- The name of a reason to stop, with the address of a breakpoint in decimal. -/
def reasonName : StopReason → String
  | .halted => "Halted"
  | .breakpoint address => "Breakpoint(" ++ toString address.toNat ++ ")"
  | .stepLimit => "StepLimit"

/-- A number of bytes at an address. -/
def extent (size : Nat) (start : UInt16) : String :=
  toString size ++ " bytes at 0x" ++ Hex.word start

def message : Event → String
  | .reset => "reset"
  | .loading size start => "loading " ++ extent size start
  | .breakpointSet address => "breakpoint set at 0x" ++ Hex.word address
  | .breakpointCleared address => "breakpoint cleared at 0x" ++ Hex.word address
  | .executing row => row.line
  | .halting address => "HALT at 0x" ++ Hex.word address
  | .fault found => found.message
  | .runEnded summary =>
      "run stopped: " ++ reasonName summary.reason ++ " at 0x" ++ Hex.word summary.pc ++
        " after " ++ toString summary.instructions ++ " instructions"
  | .assembled assembly =>
      "assembled " ++ extent assembly.bytes.length assembly.origin ++ " with " ++
        toString assembly.labels.length ++ " labels"
  | .programAssembled path assembly =>
      "assembled '" ++ path ++ "': " ++ toString assembly.bytes.length ++ " bytes, " ++
        toString assembly.labels.length ++ " labels"
  | .programLoading program => "loading " ++ extent program.bytes.length program.origin

/-- Whether an event concerns the machine, and not the way a program gets there. -/
def concernsMachine : Event → Bool
  | .assembled _ => false
  | .programAssembled _ _ => false
  | .programLoading _ => false
  | _ => true

/-- The event as a line: its level and its message. -/
def line (event : Event) : String :=
  event.level.name ++ " " ++ event.message

end Event

namespace Journal

/-- The events of one step of the processor. -/
def processorStep (cpu : Cpu) (memory : Memory) : List Event :=
  match (cpu.step memory).outcome with
  | .halted => []
  | .faulted fault => [.fault fault]
  | .executed _ =>
      if (Instruction.fetch memory cpu.pc).1 = some .halt then [.halting cpu.pc] else []

/-- The events of one step of a machine. -/
def step (debugger : Debugger) : List Event :=
  if debugger.cpu.halted then []
  else .executing (debugger.row debugger.pc) :: processorStep debugger.cpu debugger.memory

/-- Step a number of times, putting the events in front of a list. -/
def stepsOnto (events : List Event) : Nat → Debugger → List Event
  | 0, _ => events
  | count + 1, debugger =>
      stepsOnto ((step debugger).reverse ++ events) count debugger.step

def steps (count : Nat) (debugger : Debugger) : List Event :=
  (stepsOnto [] count debugger).reverse

/-- The events of a run that ends with a summary. -/
def ran (summary : RunSummary) (debugger : Debugger) : List Event :=
  steps summary.instructions debugger ++ [.runEnded summary]

def runFor (limit : Nat) (debugger : Debugger) : List Event :=
  ran (debugger.runFor limit).1 debugger

/-- The events of a run without a limit. -/
def run (debugger : Debugger) : List Event :=
  ran debugger.run.1 debugger

def setBreakpoint (breakpoints : Breakpoints) (address : UInt16) : List Event :=
  if breakpoints.contains address then [] else [.breakpointSet address]

def clearBreakpoint (breakpoints : Breakpoints) (address : UInt16) : List Event :=
  if breakpoints.contains address then [.breakpointCleared address] else []

def toggleBreakpoint (breakpoints : Breakpoints) (address : UInt16) : List Event :=
  if breakpoints.contains address then [.breakpointCleared address]
  else [.breakpointSet address]

def setBreakpoints (breakpoints : Breakpoints) : List UInt16 → List Event
  | [] => []
  | address :: rest =>
      setBreakpoint breakpoints address ++ setBreakpoints (breakpoints.insert address) rest

def assemble (source : String) : List Event :=
  match Z80.assemble source with
  | .ok assembly => [.assembled assembly]
  | .error _ => []

def execute (settings : Settings) (program : Program) (debugger : Debugger) : List Event :=
  let prepared := debugger.prepare settings program
  let preparation :=
    .reset :: .loading program.bytes.length program.origin ::
      setBreakpoints debugger.breakpoints settings.breakpoints
  match settings.step with
  | some count =>
      preparation ++ steps (prepared.stepMany count.toNat).1.instructions prepared
  | none => preparation ++ runFor settings.maxSteps.toNat prepared

def readProgram (path : String) (content : Except String ByteArray) : List Event :=
  match Program.isSource path, content with
  | true, .ok content =>
      match Program.assembleFile path content with
      | .ok assembly => [.assembled assembly, .programAssembled path assembly]
      | .error _ => []
  | _, _ => []

def invocation (invocation : Invocation) (content : Except String ByteArray) : List Event :=
  let reading := readProgram invocation.program content
  match Program.read invocation.program invocation.settings.origin content with
  | .ok program =>
      reading ++ .programLoading program :: execute invocation.settings program {}
  | .error _ => reading

end Journal

end Z80
