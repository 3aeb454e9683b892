import Mathlib.Algebra.Ring.Parity
import Mathlib.Data.List.DropRight
import Mathlib.Data.Set.Card
import Z80.Proofs.Runs

/-!
# Histories of breakpoints

Whether there is a breakpoint at an address is decided by the commands about that address
alone: by the last one that set or cleared it, or cleared all breakpoints, and by how often it
was toggled since.  Whatever else a debugger is asked to do leaves the breakpoints as they are.
-/

namespace Z80

/-- The size of a set of breakpoints is the number of its members. -/
theorem Breakpoints.size_eq_ncard (breakpoints : Breakpoints) :
    breakpoints.size = {address | breakpoints.contains address = true}.ncard := by
  have distinct : breakpoints.addresses.Nodup := breakpoints.ascending.imp UInt16.ne_of_lt
  have listed : {address | breakpoints.contains address = true} =
      (breakpoints.addresses.toFinset : Set UInt16) := by
    ext address
    simp [contains_eq_true]
  rw [listed, Set.ncard_coe_finset, List.toFinset_card_of_nodup distinct]
  rfl

namespace Command

/-- Whether there is a breakpoint at an address after a command that decides it regardless of
what was there. -/
def settles? (command : Command) (address : UInt16) : Option Bool :=
  match command with
  | .setBreakpoint here => if here = address then some true else none
  | .clearBreakpoint here => if here = address then some false else none
  | .clearBreakpoints => some false
  | _ => none

/-- Whether the last command that settled an address left a breakpoint there; at first there
is none. -/
def lastSettled (commands : List Command) (address : UInt16) : Bool :=
  (commands.reverse.findSome? fun command => command.settles? address).getD false

/-- How often an address was toggled since a command settled it, or since the start. -/
def togglesSince (commands : List Command) (address : UInt16) : Nat :=
  (commands.rtakeWhile fun command => (command.settles? address).isNone).count
    (.toggleBreakpoint address)

theorem settles?_setBreakpoint (here address : UInt16) :
    (setBreakpoint here).settles? address = if here = address then some true else none := rfl

theorem settles?_clearBreakpoint (here address : UInt16) :
    (clearBreakpoint here).settles? address = if here = address then some false else none := rfl

variable {commands : List Command} {last : Command} {address : UInt16}

theorem settles?_eq_none (notSet : last ≠ .setBreakpoint address)
    (notCleared : last ≠ .clearBreakpoint address) (notAllCleared : last ≠ .clearBreakpoints) :
    last.settles? address = none := by
  cases last with
  | setBreakpoint here => exact if_neg fun same => notSet (congrArg setBreakpoint same)
  | clearBreakpoint here => exact if_neg fun same => notCleared (congrArg clearBreakpoint same)
  | clearBreakpoints => exact absurd rfl notAllCleared
  | _ => rfl

theorem lastSettled_concat (commands : List Command) (last : Command) (address : UInt16) :
    lastSettled (commands ++ [last]) address =
      (last.settles? address).getD (lastSettled commands address) := by
  unfold lastSettled
  rw [List.reverse_append, List.reverse_singleton, List.singleton_append, List.findSome?_cons]
  cases last.settles? address <;> rfl

theorem togglesSince_concat_of_settles {present : Bool}
    (settles : last.settles? address = some present) :
    togglesSince (commands ++ [last]) address = 0 := by
  rw [togglesSince, List.rtakeWhile_concat_neg _ _ _ (by simp [settles]), List.count_nil]

theorem togglesSince_concat_toggle (commands : List Command) (address : UInt16) :
    togglesSince (commands ++ [.toggleBreakpoint address]) address =
      togglesSince commands address + 1 := by
  rw [togglesSince, List.rtakeWhile_concat_pos _ _ _ rfl, List.count_append,
    List.count_singleton_self]
  rfl

theorem togglesSince_concat_of_ne (unsettled : last.settles? address = none)
    (notToggled : last ≠ .toggleBreakpoint address) :
    togglesSince (commands ++ [last]) address = togglesSince commands address := by
  rw [togglesSince, List.rtakeWhile_concat_pos _ _ _ (by simp [unsettled]), List.count_append,
    List.count_singleton, beq_false_of_ne notToggled]
  rfl

end Command

namespace Debugger

variable {debugger : Debugger} {command : Command} {address : UInt16}

/-! ## One command -/

theorem breakpoints_iterate (debugger : Debugger) (count : Nat) :
    (step^[count] debugger).breakpoints = debugger.breakpoints := by
  induction count with
  | zero => rfl
  | succ count ih => rw [Function.iterate_succ_apply', breakpoints_step, ih]

theorem breakpoints_runFor (debugger : Debugger) (limit : Nat) :
    (debugger.runFor limit).2.breakpoints = debugger.breakpoints := by
  rw [iterate_of_runFor, breakpoints_iterate]

theorem contains_perform_of_settles {present : Bool}
    (settles : command.settles? address = some present) :
    (command.perform debugger).2.breakpoints.contains address = present := by
  cases command with
  | setBreakpoint here =>
      rw [Command.settles?_setBreakpoint, Option.ite_none_right_eq_some,
        Option.some_inj] at settles
      obtain ⟨rfl, rfl⟩ := settles
      change (debugger.breakpoints.insert here).contains here = true
      rw [Breakpoints.contains_insert, beq_self_eq_true, Bool.true_or]
  | clearBreakpoint here =>
      rw [Command.settles?_clearBreakpoint, Option.ite_none_right_eq_some,
        Option.some_inj] at settles
      obtain ⟨rfl, rfl⟩ := settles
      change (debugger.breakpoints.erase here).contains here = false
      rw [Breakpoints.contains_erase, bne_self_eq_false, Bool.false_and]
  | clearBreakpoints =>
      obtain rfl : false = present := Option.some.inj settles
      exact Breakpoints.contains_empty address
  | _ => cases settles

/-- A toggle at an address tells what it leaves there, which is what was not there before. -/
theorem perform_toggleBreakpoint (debugger : Debugger) (address : UInt16) :
    let toggled := (Command.toggleBreakpoint address).perform debugger
    toggled.1 = .flag (!debugger.breakpoints.contains address) ∧
      toggled.2.breakpoints.contains address = !debugger.breakpoints.contains address := by
  have flipped : (debugger.toggleBreakpoint address).breakpoints.contains address =
      !debugger.breakpoints.contains address := by
    rw [toggleBreakpoint, Breakpoints.contains_toggle, beq_self_eq_true, Bool.true_xor]
  exact ⟨congrArg Reply.flag (debugger.breakpoints.fst_toggle address), flipped⟩

/-- A command that neither settles what is at an address nor toggles it changes nothing
there. -/
theorem contains_perform_of_ne (ends : command.Ends debugger)
    (unsettled : command.settles? address = none)
    (notToggled : command ≠ .toggleBreakpoint address) :
    (command.perform debugger).2.breakpoints.contains address =
      debugger.breakpoints.contains address := by
  cases command with
  | setBreakpoint here =>
      rw [Command.settles?_setBreakpoint, ite_eq_right_iff] at unsettled
      have elsewhere : address ≠ here := fun same => nomatch unsettled same.symm
      change (debugger.breakpoints.insert here).contains address = _
      rw [Breakpoints.contains_insert, beq_false_of_ne elsewhere, Bool.false_or]
  | clearBreakpoint here =>
      rw [Command.settles?_clearBreakpoint, ite_eq_right_iff] at unsettled
      have elsewhere : address ≠ here := fun same => nomatch unsettled same.symm
      change (debugger.breakpoints.erase here).contains address = _
      rw [Breakpoints.contains_erase, bne, beq_false_of_ne elsewhere, Bool.not_false,
        Bool.true_and]
  | toggleBreakpoint here =>
      have elsewhere : address ≠ here := fun same =>
        notToggled (congrArg Command.toggleBreakpoint same.symm)
      change (debugger.breakpoints.toggle here).2.contains address = _
      rw [Breakpoints.contains_toggle, beq_false_of_ne elsewhere, Bool.false_xor]
  | clearBreakpoints => cases unsettled
  | step => exact congrArg (Breakpoints.contains · address) debugger.breakpoints_step
  | runFor limit =>
      exact congrArg (Breakpoints.contains · address) (debugger.breakpoints_runFor limit)
  | run =>
      -- only a run that ends is known to be a number of steps
      obtain ⟨limit, stops⟩ := ends rfl
      change debugger.run.2.breakpoints.contains address = _
      rw [run_of_stops stops, breakpoints_runFor]
  | _ => rfl

/-! ## Many commands -/

/-- The reply to a command of many. -/
theorem getElem?_performAll (former latter : List Command) (command : Command)
    (debugger : Debugger) :
    (performAll (former ++ command :: latter) debugger).1[former.length]? =
      some (command.perform (performAll former debugger).2).1 := by
  rw [performAll_append, ← length_performAll former debugger, List.getElem?_append_right le_rfl,
    Nat.sub_self]
  rfl

/-- From a new debugger on, a breakpoint is at an address if the last command that settled it
left it there and it was toggled an even number of times since, or left none there and it was
toggled an odd number of times. -/
theorem contains_performAll {commands : List Command} (ends : Command.AllEnd commands {})
    (address : UInt16) :
    (performAll commands {}).2.breakpoints.contains address = true ↔
      (Command.lastSettled commands address = true ∧
          Even (Command.togglesSince commands address)) ∨
        (Command.lastSettled commands address = false ∧
          Odd (Command.togglesSince commands address)) := by
  -- By the last command, as both sides of the law look back from the end of the history.
  induction commands using List.reverseRecOn with
  | nil => simp [performAll, Command.lastSettled, Command.togglesSince]
  | append_singleton former last ih =>
      obtain ⟨formerEnds, lastEnds, -⟩ := Command.allEnd_append.mp ends
      rw [performAll_append, Command.lastSettled_concat]
      change (last.perform (performAll former {}).2).2.breakpoints.contains address = true ↔ _
      cases settled : last.settles? address with
      | some present =>
          rw [contains_perform_of_settles settled,
            Command.togglesSince_concat_of_settles settled]
          cases present <;> simp
      | none =>
          by_cases toggles : last = .toggleBreakpoint address
          · subst toggles
            rw [(perform_toggleBreakpoint _ address).2, Command.togglesSince_concat_toggle,
              Bool.not_eq_true', ← Bool.not_eq_true, ih formerEnds]
            cases Command.lastSettled former address <;> simp [Nat.even_add_one, Nat.odd_add_one]
          · rw [contains_perform_of_ne lastEnds settled toggles,
              Command.togglesSince_concat_of_ne settled toggles]
            exact ih formerEnds

/-- From a new debugger on, whatever is asked of it, a breakpoint is at an address if the last
command that settled the address and the toggles since say so.  The reply to a toggle is what
it leaves there, the contrary of what was there.  The breakpoints are listed in ascending order
and once each, as many as their number says.  Nothing changes what is at an address but to set,
clear or toggle it, or to clear all. -/
theorem breakpoints_follow_commands (commands : List Command)
    (ends : Command.AllEnd commands {}) :
    let replies := (performAll commands {}).1
    let debugger := (performAll commands {}).2
    let listed := debugger.breakpoints.addresses
    (∀ address,
      debugger.breakpoints.contains address = true ↔
        (Command.lastSettled commands address = true ∧
            Even (Command.togglesSince commands address)) ∨
          (Command.lastSettled commands address = false ∧
            Odd (Command.togglesSince commands address))) ∧
    (∀ former latter address, commands = former ++ .toggleBreakpoint address :: latter →
      let before := (performAll former {}).2
      let after := (performAll (former ++ [.toggleBreakpoint address]) {}).2
      replies[former.length]? = some (.flag (after.breakpoints.contains address)) ∧
        after.breakpoints.contains address = !before.breakpoints.contains address) ∧
    listed.Pairwise (· < ·) ∧
    (∀ address, address ∈ listed ↔ debugger.breakpoints.contains address = true) ∧
    listed.length = debugger.breakpoints.size ∧
    debugger.breakpoints.size =
      {address | debugger.breakpoints.contains address = true}.ncard ∧
    (∀ (command : Command) (address : UInt16), command.Ends debugger →
      command ≠ .setBreakpoint address → command ≠ .clearBreakpoint address →
      command ≠ .toggleBreakpoint address → command ≠ .clearBreakpoints →
        (command.perform debugger).2.breakpoints.contains address =
          debugger.breakpoints.contains address) := by
  intro replies debugger listed
  refine ⟨contains_performAll ends, ?_, debugger.breakpoints.ascending,
    fun _ => Breakpoints.contains_eq_true.symm, rfl, debugger.breakpoints.size_eq_ncard, ?_⟩
  · intro former latter address divided before after
    obtain ⟨reply, flipped⟩ := perform_toggleBreakpoint before address
    have reached : after = ((Command.toggleBreakpoint address).perform before).2 :=
      congrArg Prod.snd (performAll_append former [.toggleBreakpoint address] {})
    rw [← reached] at flipped
    refine ⟨?_, flipped⟩
    rw [flipped, ← reply]
    change (performAll commands {}).1[former.length]? = _
    rw [divided]
    exact getElem?_performAll former latter _ {}
  · intro command address commandEnds notSet notCleared notToggled notAllCleared
    exact contains_perform_of_ne commandEnds
      (Command.settles?_eq_none notSet notCleared notAllCleared) notToggled

/-- Toggles after a run to one of two breakpoints. -/
theorem breakpoints_follow_commands_run :
    let commands : List Command :=
      [.setBreakpoint 2, .setBreakpoint 0xFFFF, .load 0 [0, 0], .run, .toggleBreakpoint 2,
        .clearBreakpoint 0xFFFF, .toggleBreakpoint 0xFFFF, .reset]
    let ended := performAll commands {}
    Command.AllEnd commands {} ∧
      ended.2.breakpoints.contains 2 = false ∧
      ended.2.breakpoints.contains 0xFFFF = true ∧
      ended.1[6]? = some (.flag true) ∧
      (Command.step.perform ended.2).2.breakpoints.contains 0xFFFF = true := by
  intro commands ended
  let loaded := (performAll (commands.take 3) {}).2
  have stops : loaded.Stops 2 := by decide
  have ends : Command.AllEnd commands {} :=
    ⟨nofun, nofun, nofun, fun _ => ⟨2, stops⟩, nofun, nofun, nofun, nofun, trivial⟩
  obtain ⟨members, toggles, -, -, -, -, others⟩ := breakpoints_follow_commands commands ends
  have last : ended.2.breakpoints.contains 0xFFFF = true := (members 0xFFFF).mpr (by decide)
  refine ⟨ends, ?_, last, ?_, ?_⟩
  · apply Bool.eq_false_iff.mpr
    exact (members 2).not.mpr (by decide)
  · obtain ⟨earlierEnds, -⟩ := (@Command.allEnd_append (commands.take 7) [.reset] {}).mp ends
    have earlier := (breakpoints_follow_commands (commands.take 7) earlierEnds).1 0xFFFF
    have answered := (toggles (commands.take 6) [.reset] 0xFFFF rfl).1
    exact answered.trans (congrArg (some ∘ Reply.flag) (earlier.mpr (by decide)))
  · exact (others .step 0xFFFF nofun nofun nofun nofun nofun).trans last

end Debugger

end Z80
