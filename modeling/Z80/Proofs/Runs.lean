import Mathlib.Logic.Function.Iterate
import Mathlib.Order.Bounds.Basic
import Mathlib.Order.Nat
import Z80.Debugger.Command

/-!
# Where runs end

A run ends at the first state in which the machine is halted or, some step
having been made, stands at a breakpoint; a budget only makes it end earlier.
The states are those that repeated single steps lead through.  Running on after
a budget was spent is therefore the same as one run with both budgets.
-/

namespace Z80

namespace Debugger

/-- Whether a run ends after a count of steps, whatever its budget. -/
def Stops (debugger : Debugger) (count : Nat) : Prop :=
  let reached := step^[count] debugger
  reached.cpu.halted = true ∨ 0 < count ∧ reached.breakpoints.contains reached.pc = true

instance (debugger : Debugger) (count : Nat) : Decidable (debugger.Stops count) :=
  inferInstanceAs (Decidable (_ = true ∨ 0 < count ∧ _ = true))

/-- How a run ends that makes a count of steps. -/
def outcomeAfter (debugger : Debugger) (count : Nat) : RunSummary × Debugger :=
  let reached := step^[count] debugger
  let reason :=
    if reached.cpu.halted then .halted
    else if 0 < count ∧ reached.breakpoints.contains reached.pc then
      .breakpoint reached.pc
    else .stepLimit
  (⟨reason, reached.pc, count⟩, reached)

variable {debugger : Debugger}

theorem reason_outcomeAfter (debugger : Debugger) (count : Nat) :
    (debugger.outcomeAfter count).1.reason =
      ((step^[count] debugger).stopReason? count).getD .stepLimit := by
  unfold outcomeAfter stopReason?
  dsimp only
  split
  · rfl
  · by_cases breaks : 0 < count ∧
        (step^[count] debugger).breakpoints.contains (step^[count] debugger).pc
    · rw [if_pos breaks, if_pos (by simpa [Nat.pos_iff_ne_zero] using breaks)]
      rfl
    · rw [if_neg breaks, if_neg (by simpa [Nat.pos_iff_ne_zero] using breaks)]
      rfl

theorem stopReason?_eq_none {count : Nat} :
    (step^[count] debugger).stopReason? count = none ↔ ¬ debugger.Stops count := by
  unfold stopReason? Stops
  dsimp only
  split
  · rename_i halted
    simp [halted]
  · rename_i running
    simp [running, Nat.pos_iff_ne_zero]

/-- A run ends as many steps ahead as nothing stops it. -/
theorem runFrom_iterate {count ahead rest : Nat}
    (onwards : ∀ passed < ahead, ¬ debugger.Stops (count + passed))
    (ends : debugger.Stops (count + ahead) ∨ rest = 0) :
    runFrom count (ahead + rest) (step^[count] debugger) =
      debugger.outcomeAfter (count + ahead) := by
  induction ahead generalizing count with
  | zero =>
      have reason := reason_outcomeAfter debugger count
      rw [Nat.add_zero] at ends
      rw [Nat.zero_add, Nat.add_zero]
      unfold runFrom
      cases stopped : (step^[count] debugger).stopReason? count with
      | some found =>
          rw [stopped] at reason
          exact congrArg (fun last => (RunSummary.mk last _ _, _)) reason.symm
      | none =>
          rw [stopped] at reason
          obtain rfl := ends.resolve_left (stopReason?_eq_none.mp stopped)
          exact congrArg (fun last => (RunSummary.mk last _ _, _)) reason.symm
  | succ ahead ih =>
      have here := stopReason?_eq_none.mpr (onwards 0 (Nat.succ_pos ahead))
      have aheadEq : count + (ahead + 1) = count + 1 + ahead := by omega
      rw [Nat.add_zero] at here
      rw [Nat.add_right_comm, runFrom, here, aheadEq, ← Function.iterate_succ_apply' step]
      apply ih
      · intro passed passedLt
        rw [Nat.add_assoc, Nat.add_comm 1]
        exact onwards (passed + 1) (by omega)
      · rwa [← aheadEq]

theorem runFor_of_isLeast {limit count : Nat}
    (least : IsLeast {count | debugger.Stops count ∨ count = limit} count) :
    debugger.runFor limit = debugger.outcomeAfter count := by
  obtain ⟨ends, earliest⟩ := least
  obtain ⟨rest, rfl⟩ := Nat.exists_eq_add_of_le (earliest (Or.inr rfl) : count ≤ limit)
  have onwards : ∀ passed < count, ¬ debugger.Stops (0 + passed) := by
    intro passed passedLt stops
    rw [Nat.zero_add] at stops
    exact absurd (earliest (Or.inl stops)) (Nat.not_le.mpr passedLt)
  have spent : debugger.Stops (0 + count) ∨ rest = 0 := by
    rw [Nat.zero_add]
    exact ends.imp_right fun _ => by omega
  have result : runFrom 0 (count + rest) debugger = _ := runFrom_iterate onwards spent
  rwa [Nat.zero_add] at result

theorem exists_isLeast_stop (debugger : Debugger) (limit : Nat) :
    ∃ count, IsLeast {count | debugger.Stops count ∨ count = limit} count := by
  classical
  exact ⟨_, Nat.isLeast_find ⟨limit, Or.inr rfl⟩⟩

theorem runOn_eq (count : Nat) (debugger : Debugger) :
    debugger.runOn count =
      match debugger.stopReason? count with
      | some reason => (⟨reason, debugger.pc, count⟩, debugger)
      | none => debugger.step.runOn (count + 1) := by
  unfold runOn
  rw [repeatM_eq_of_monadTail]
  simp only [runOnce, repeatM.body]
  cases debugger.stopReason? count <;> rfl

/-- A run without a budget ends like one whose budget is not spent. -/
theorem runOn_eq_runFrom {count budget : Nat}
    (unspent : (runFrom count budget debugger).1.reason ≠ .stepLimit) :
    debugger.runOn count = runFrom count budget debugger := by
  induction budget generalizing count debugger with
  | zero =>
      rw [runOn_eq]
      unfold runFrom at unspent ⊢
      cases stopped : debugger.stopReason? count with
      | some reason => rfl
      | none => simp [stopped] at unspent
  | succ budget ih =>
      rw [runOn_eq]
      unfold runFrom at unspent ⊢
      cases stopped : debugger.stopReason? count with
      | some reason => rfl
      | none =>
          simp only [stopped] at unspent
          exact ih unspent

theorem reason_ne_of_stops {count : Nat} (stops : debugger.Stops count) :
    (debugger.outcomeAfter count).1.reason ≠ .stepLimit := by
  unfold outcomeAfter
  dsimp only
  split
  · simp
  · rename_i running
    rw [if_pos (stops.resolve_left running)]
    simp

/-- A run that stops ends as it does within any budget that lets it. -/
theorem run_of_isLeast {count limit : Nat}
    (least : IsLeast {count | debugger.Stops count} count) (within : count ≤ limit) :
    debugger.run = debugger.runFor limit := by
  obtain ⟨stops, earliest⟩ := least
  have leastWithin : IsLeast {count | debugger.Stops count ∨ count = limit} count := by
    refine ⟨Or.inl stops, ?_⟩
    rintro other (otherStops | rfl)
    · exact earliest otherStops
    · exact within
  have outcome := runFor_of_isLeast leastWithin
  apply runOn_eq_runFrom
  change (debugger.runFor limit).1.reason ≠ .stepLimit
  rw [outcome]
  exact reason_ne_of_stops stops

theorem iterate_of_runFor (debugger : Debugger) (limit : Nat) :
    (debugger.runFor limit).2 = step^[(debugger.runFor limit).1.instructions] debugger := by
  obtain ⟨count, least⟩ := exists_isLeast_stop debugger limit
  rw [runFor_of_isLeast least]
  rfl

theorem run_of_stops {limit : Nat} (stops : debugger.Stops limit) :
    debugger.run = debugger.runFor limit := by
  classical
  have least : IsLeast {count | debugger.Stops count} _ := Nat.isLeast_find ⟨limit, stops⟩
  exact run_of_isLeast least (least.2 stops)

/-- Where nothing has stopped a run, a new run from there is stopped where the old
one would have been. -/
theorem stops_iterate {first : Nat} (onwards : ¬ debugger.Stops first) (second : Nat) :
    (step^[first] debugger).Stops second ↔ debugger.Stops (first + second) := by
  unfold Stops at *
  rw [← Function.iterate_add_apply, Nat.add_comm second]
  cases second with
  | zero =>
      -- no breakpoint is passed over here, as it would have stopped the old run
      obtain ⟨running, unbroken⟩ := not_or.mp onwards
      simp [running, unbroken]
  | succ second =>
      have later : 0 < first + (second + 1) := by omega
      simp [later]

theorem outcomeAfter_iterate {first : Nat} (onwards : ¬ debugger.Stops first)
    (second : Nat) :
    (step^[first] debugger).outcomeAfter second =
      (⟨(debugger.outcomeAfter (first + second)).1.reason,
        (debugger.outcomeAfter (first + second)).1.pc, second⟩,
        (debugger.outcomeAfter (first + second)).2) := by
  unfold outcomeAfter
  rw [← Function.iterate_add_apply, Nat.add_comm second]
  cases second with
  | zero =>
      obtain ⟨running, unbroken⟩ := not_or.mp onwards
      simp [running, unbroken]
  | succ second =>
      have later : 0 < first + (second + 1) := by omega
      simp [later]

/-- A budget that was spent has stopped the run before anything else did. -/
theorem isLeast_of_spent {limit : Nat}
    (spent : (debugger.runFor limit).1.reason = .stepLimit) :
    IsLeast {count | debugger.Stops count ∨ count = limit} limit ∧ ¬ debugger.Stops limit := by
  obtain ⟨count, least⟩ := exists_isLeast_stop debugger limit
  rw [runFor_of_isLeast least] at spent
  have running : ¬ debugger.Stops count := fun stops => reason_ne_of_stops stops spent
  obtain rfl : count = limit := least.1.resolve_left running
  exact ⟨least, running⟩

/-- Where a second run ends that starts where the budget of a first one was spent. -/
theorem isLeast_add {first second count : Nat}
    (leastFirst : IsLeast {count | debugger.Stops count ∨ count = first} first)
    (onwards : ¬ debugger.Stops first)
    (least : IsLeast {count | (step^[first] debugger).Stops count ∨ count = second} count) :
    IsLeast {count | debugger.Stops count ∨ count = first + second} (first + count) := by
  obtain ⟨ends, earliest⟩ := least
  refine ⟨ends.imp (stops_iterate onwards count).mp (congrArg (first + ·)), ?_⟩
  intro other otherEnds
  have notBefore : first ≤ other := by
    rcases otherEnds with stops | rfl
    · exact leastFirst.2 (Or.inl stops)
    · exact Nat.le_add_right first second
  obtain ⟨rest, rfl⟩ := Nat.exists_eq_add_of_le notBefore
  have restEnds : (step^[first] debugger).Stops rest ∨ rest = second :=
    otherEnds.imp (stops_iterate onwards rest).mpr Nat.add_left_cancel
  exact Nat.add_le_add_left (earliest restEnds) first

/-- Running on after a budget was spent is one run with both budgets. -/
theorem runFor_add {first : Nat} (second : Nat)
    (spent : (debugger.runFor first).1.reason = .stepLimit) :
    let former := debugger.runFor first
    let latter := former.2.runFor second
    let whole := debugger.runFor (first + second)
    latter.2 = whole.2 ∧ latter.1.reason = whole.1.reason ∧ latter.1.pc = whole.1.pc ∧
      former.1.instructions + latter.1.instructions = whole.1.instructions := by
  obtain ⟨leastFirst, onwards⟩ := isLeast_of_spent spent
  obtain ⟨count, least⟩ := exists_isLeast_stop (step^[first] debugger) second
  have former : debugger.runFor first = debugger.outcomeAfter first :=
    runFor_of_isLeast leastFirst
  have latter : (debugger.outcomeAfter first).2.runFor second = _ :=
    (runFor_of_isLeast least).trans (outcomeAfter_iterate onwards count)
  have whole := runFor_of_isLeast (isLeast_add leastFirst onwards least)
  dsimp only
  rw [former, latter, whole]
  exact ⟨rfl, rfl, rfl, rfl⟩

/-- A run with a budget ends at the first state at which something stops it or the
budget is spent, a run without one at the first state at which something stops it,
and slicing a run by its budget changes nothing. -/
theorem runs_end_at_first_stop (debugger : Debugger) :
    (∀ limit, ∃ count, IsLeast {count | debugger.Stops count ∨ count = limit} count ∧
      debugger.runFor limit = debugger.outcomeAfter count) ∧
    (∀ count, IsLeast {count | debugger.Stops count} count →
      ∀ limit, count ≤ limit → debugger.run = debugger.runFor limit) ∧
    (∀ first second, (debugger.runFor first).1.reason = .stepLimit →
      let former := debugger.runFor first
      let latter := former.2.runFor second
      let whole := debugger.runFor (first + second)
      latter.2 = whole.2 ∧ latter.1.reason = whole.1.reason ∧ latter.1.pc = whole.1.pc ∧
        former.1.instructions + latter.1.instructions = whole.1.instructions) := by
  refine ⟨?_, ?_, ?_⟩
  · intro limit
    obtain ⟨count, least⟩ := exists_isLeast_stop debugger limit
    exact ⟨count, least, runFor_of_isLeast least⟩
  · intro count least limit within
    exact run_of_isLeast least within
  · intro first second spent
    exact runFor_add second spent

/-- A sled of empty instructions with a breakpoint at its third one. -/
theorem runs_end_at_first_stop_sled :
    let sled := ({} : Debugger).setBreakpoint 2
    IsLeast {count | sled.Stops count} 2 ∧ sled.run = sled.runFor 7 ∧
      (sled.runFor 1).1.reason = .stepLimit ∧
      ((sled.runFor 1).2.runFor 4).2 = (sled.runFor 5).2 := by
  intro sled
  have least : IsLeast {count | sled.Stops count} 2 := by
    refine ⟨Or.inr ⟨by decide, by decide⟩, ?_⟩
    intro count stops
    match count with
    | 0 => exact absurd stops (by decide)
    | 1 => exact absurd stops (by decide)
    | _ + 2 => exact Nat.le_add_left _ _
  have spent : (sled.runFor 1).1.reason = .stepLimit := by decide
  obtain ⟨-, unlimited, slices⟩ := runs_end_at_first_stop sled
  exact ⟨least, unlimited 2 least 7 (by decide), spent, (slices 1 4 spent).1⟩

end Debugger

namespace Command

/-- Whether a command comes to an end; only a run without a budget may not. -/
def Ends (command : Command) (debugger : Debugger) : Prop :=
  command = .run → ∃ count, debugger.Stops count

/-- Whether commands come to an end that are performed one after another. -/
def AllEnd : List Command → Debugger → Prop
  | [], _ => True
  | command :: rest, debugger =>
      command.Ends debugger ∧ AllEnd rest (command.perform debugger).2

theorem allEnd_append {former latter : List Command} {debugger : Debugger} :
    AllEnd (former ++ latter) debugger ↔
      AllEnd former debugger ∧ AllEnd latter (Debugger.performAll former debugger).2 := by
  induction former generalizing debugger with
  | nil => exact (and_iff_right trivial).symm
  | cons command rest ih =>
      change _ ∧ AllEnd (rest ++ latter) _ ↔ (_ ∧ AllEnd rest _) ∧ _
      rw [ih, and_assoc]
      rfl

end Command

end Z80
