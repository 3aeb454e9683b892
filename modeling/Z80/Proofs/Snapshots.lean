import Mathlib.Data.List.Sort
import Z80.Proofs.Runs

/-!
# Snapshots

A debugger acts by its processor state, its memory and its breakpoints alone;
what it recorded has no influence.  A snapshot of the processor state, restored
into a debugger with the same memory and breakpoints, therefore continues as the
original does.
-/

namespace Z80

/-- Breakpoints with the same members are equal. -/
theorem Breakpoints.ext_contains {first second : Breakpoints}
    (equal : ∀ address, first.contains address = second.contains address) :
    first = second := by
  have members : ∀ address, address ∈ first.addresses ↔ address ∈ second.addresses := by
    intro address
    rw [← contains_eq_true, ← contains_eq_true, equal]
  have addresses : first.addresses = second.addresses :=
    first.ascending.eq_of_mem_iff second.ascending members
  cases first
  congr

namespace Debugger

/-- Debuggers that differ at most in what they recorded. -/
structure SameMachine (first second : Debugger) : Prop where
  machine : first.toMachine = second.toMachine
  breakpoints : first.breakpoints = second.breakpoints

namespace SameMachine

variable {first second : Debugger}

theorem step (same : SameMachine first second) : SameMachine first.step second.step where
  machine := by rw [toMachine_step, toMachine_step, same.machine]
  breakpoints := by rw [breakpoints_step, breakpoints_step, same.breakpoints]

theorem iterate (same : SameMachine first second) (count : Nat) :
    SameMachine (Debugger.step^[count] first) (Debugger.step^[count] second) := by
  induction count with
  | zero => exact same
  | succ count ih =>
      rw [Function.iterate_succ_apply', Function.iterate_succ_apply']
      exact ih.step

theorem stops (same : SameMachine first second) (count : Nat) :
    first.Stops count ↔ second.Stops count := by
  have reached := same.iterate count
  unfold Stops pc
  dsimp only
  rw [reached.machine, reached.breakpoints]

theorem outcomeAfter (same : SameMachine first second) (count : Nat) :
    (first.outcomeAfter count).1 = (second.outcomeAfter count).1 ∧
      SameMachine (first.outcomeAfter count).2 (second.outcomeAfter count).2 := by
  have reached := same.iterate count
  refine ⟨?_, reached⟩
  unfold Debugger.outcomeAfter pc
  dsimp only
  rw [reached.machine, reached.breakpoints]

theorem runFor (same : SameMachine first second) (limit : Nat) :
    (first.runFor limit).1 = (second.runFor limit).1 ∧
      SameMachine (first.runFor limit).2 (second.runFor limit).2 := by
  obtain ⟨count, least⟩ := exists_isLeast_stop first limit
  have leastSecond := least
  simp only [same.stops] at leastSecond
  rw [runFor_of_isLeast least, runFor_of_isLeast leastSecond]
  exact same.outcomeAfter count

theorem perform (same : SameMachine first second) {command : Command}
    (ends : command.Ends first) :
    (command.perform first).1 = (command.perform second).1 ∧
      SameMachine (command.perform first).2 (command.perform second).2 := by
  cases command with
  | step =>
      have running : (!first.cpu.halted) = !second.cpu.halted := by rw [same.machine]
      exact ⟨congrArg Reply.flag running, same.step⟩
  | runFor limit =>
      obtain ⟨summary, after⟩ := same.runFor limit
      exact ⟨congrArg Reply.ended summary, after⟩
  | run =>
      obtain ⟨limit, stops⟩ := ends rfl
      obtain ⟨summary, after⟩ := same.runFor limit
      rw [← run_of_stops stops, ← run_of_stops ((same.stops limit).mp stops)] at summary after
      exact ⟨congrArg Reply.ended summary, after⟩
  | _ =>
      -- what remains reads and changes one of the shared parts
      cases first
      cases second
      obtain ⟨rfl, rfl⟩ := same
      exact ⟨rfl, rfl, rfl⟩

theorem performAll (same : SameMachine first second) {commands : List Command}
    (ends : Command.AllEnd commands first) :
    Command.AllEnd commands second ∧
      (performAll commands first).1 = (performAll commands second).1 ∧
      SameMachine (performAll commands first).2 (performAll commands second).2 := by
  induction commands generalizing first second with
  | nil => exact ⟨trivial, rfl, same⟩
  | cons command rest ih =>
      obtain ⟨here, later⟩ := ends
      obtain ⟨reply, next⟩ := same.perform here
      obtain ⟨laterSecond, replies, after⟩ := ih next later
      have hereSecond : command.Ends second := fun runs =>
        (here runs).imp fun count => (same.stops count).mp
      refine ⟨⟨hereSecond, laterSecond⟩, ?_, after⟩
      unfold Debugger.performAll
      dsimp only
      rw [reply, replies]

end SameMachine

/-- Restoring the processor state of one debugger into another reproduces it in full.
If memory and breakpoints agree as well, the two answer every sequence of commands
alike and end in the same state, whatever they recorded before. -/
theorem snapshots_are_complete (source target : Debugger) :
    let restored := target.patch (Patch.ofCpu source.cpu)
    restored.cpu = source.cpu ∧
    ((∀ address, target.memory.read address = source.memory.read address) →
      (∀ address,
        target.breakpoints.contains address = source.breakpoints.contains address) →
      ∀ commands, Command.AllEnd commands source →
        let expected := performAll commands source
        let actual := performAll commands restored
        Command.AllEnd commands restored ∧ actual.1 = expected.1 ∧
          actual.2.cpu = expected.2.cpu ∧ actual.2.memory = expected.2.memory ∧
          actual.2.breakpoints = expected.2.breakpoints) := by
  intro restored
  have cpu : restored.cpu = source.cpu := Patch.apply_ofCpu source.cpu target.cpu
  refine ⟨cpu, ?_⟩
  intro cells members commands ends expected actual
  have memory : restored.memory = source.memory := Memory.ext_read cells
  have same : SameMachine source restored := by
    refine ⟨?_, (Breakpoints.ext_contains members).symm⟩
    exact (congr (congrArg Machine.mk cpu) memory).symm
  obtain ⟨restoredEnds, replies, after⟩ := same.performAll ends
  exact ⟨restoredEnds, replies.symm, (congrArg Machine.cpu after.machine).symm,
    (congrArg Machine.memory after.machine).symm, after.breakpoints.symm⟩

/-- A snapshot taken before the second of two loads, restored where more is recorded. -/
theorem snapshots_are_complete_load :
    let loaded := ({} : Debugger).load 0 [0x3E, 0x05, 0x3E, 0x06, 0x76]
    let source := loaded.patch { main := { a := some 5 }, pc := some 2, interruptMode := some 2 }
    let restored := { loaded with executed := 7 }.patch (Patch.ofCpu source.cpu)
    let commands : List Command := [.step, .state, .run]
    Command.AllEnd commands source ∧
      (performAll commands restored).1 = (performAll commands source).1 := by
  intro loaded source restored commands
  have ends : Command.AllEnd commands source :=
    ⟨nofun, nofun, fun _ => ⟨1, by decide⟩, trivial⟩
  have complete := snapshots_are_complete source { loaded with executed := 7 }
  exact ⟨ends, (complete.2 (fun _ => rfl) (fun _ => rfl) commands ends).2.1⟩

end Debugger

end Z80
