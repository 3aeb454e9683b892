import Z80.CommandLine.Execution
import Z80.Proofs.Runs

/-!
# Single steps

Single stepping ends at the first state in which the machine is halted, or when its budget
is spent.  A run leads through the same states and may only end earlier, at a breakpoint, so
making as many single steps as a run made ends in the same machine.
-/

namespace Z80

namespace Debugger

variable {debugger : Debugger}

theorem stepFrom_iterate {count ahead rest : Nat}
    (running : ∀ passed < ahead, (step^[passed] debugger).cpu.halted = false) :
    stepFrom count (ahead + rest) debugger =
      stepFrom (count + ahead) rest (step^[ahead] debugger) := by
  induction ahead generalizing count debugger with
  | zero => rw [Nat.zero_add]; rfl
  | succ ahead ih =>
      have here : debugger.cpu.halted = false := running 0 (Nat.succ_pos ahead)
      have countEq : count + (ahead + 1) = count + 1 + ahead := by omega
      rw [Nat.add_right_comm, stepFrom, here, if_neg Bool.false_ne_true, countEq]
      exact ih fun passed passedLt => running (passed + 1) (Nat.succ_lt_succ passedLt)

/-- Single stepping ends at the first state that is halted or spends the budget. -/
theorem stepMany_of_isLeast {limit count : Nat}
    (least : IsLeast {count | (step^[count] debugger).cpu.halted = true ∨ count = limit}
      count) :
    debugger.stepMany limit =
      (⟨if count < limit then .halted else .stepLimit, (step^[count] debugger).pc, count⟩,
        step^[count] debugger) := by
  obtain ⟨ends, earliest⟩ := least
  obtain ⟨rest, rfl⟩ := Nat.exists_eq_add_of_le (earliest (Or.inr rfl) : count ≤ limit)
  have running : ∀ passed < count, (step^[passed] debugger).cpu.halted = false := by
    intro passed passedLt
    apply Bool.eq_false_iff.mpr
    intro halted
    exact absurd (earliest (Or.inl halted)) (Nat.not_le.mpr passedLt)
  rw [stepMany, stepFrom_iterate running, Nat.zero_add]
  cases rest with
  | zero => rw [Nat.add_zero, if_neg (Nat.lt_irrefl count)]; rfl
  | succ rest =>
      have unspent : count < count + (rest + 1) := by omega
      have halted := ends.resolve_right (Nat.ne_of_lt unspent)
      rw [stepFrom, if_pos halted, if_pos unspent]

theorem halted_of_reason {count : Nat}
    (reason : (debugger.outcomeAfter count).1.reason = .halted) :
    (step^[count] debugger).cpu.halted = true := by
  by_contra running
  unfold outcomeAfter at reason
  dsimp only at reason
  rw [if_neg running] at reason
  split at reason <;> cases reason

/-- No state is halted that a run passes through before its last. -/
theorem isLeast_halted_or {limit count other : Nat}
    (least : IsLeast {count | debugger.Stops count ∨ count = limit} count)
    (ends : (step^[count] debugger).cpu.halted = true ∨ count = other) (within : count ≤ other) :
    IsLeast {count | (step^[count] debugger).cpu.halted = true ∨ count = other} count := by
  refine ⟨ends, ?_⟩
  rintro earlier (halted | rfl)
  · exact least.2 (Or.inl (Or.inl halted))
  · exact within

/-- Asked for as many single steps as a run made, the debugger ends in the same machine, and
says that it made them.  If the run ended because the machine was halted, any greater number
of single steps ends there too. -/
theorem stepMany_runFor (debugger : Debugger) (limit : Nat) :
    let run := debugger.runFor limit
    let count := run.1.instructions
    debugger.stepMany count = (⟨.stepLimit, run.1.pc, count⟩, run.2) ∧
      (run.1.reason = .halted → ∀ steps, count < steps →
        debugger.stepMany steps = (⟨.halted, run.1.pc, count⟩, run.2)) := by
  obtain ⟨count, least⟩ := exists_isLeast_stop debugger limit
  rw [runFor_of_isLeast least]
  change debugger.stepMany count = _ ∧ (_ → ∀ steps, count < steps → _)
  refine ⟨?_, ?_⟩
  · rw [stepMany_of_isLeast (isLeast_halted_or least (Or.inr rfl) (Nat.le_refl count)),
      if_neg (Nat.lt_irrefl count)]
    rfl
  · intro reason steps more
    have halted := halted_of_reason reason
    rw [stepMany_of_isLeast (isLeast_halted_or least (Or.inl halted) (Nat.le_of_lt more)),
      if_pos more]
    rfl

theorem instructions_runFor_le (debugger : Debugger) (limit : Nat) :
    (debugger.runFor limit).1.instructions ≤ limit := by
  obtain ⟨count, least⟩ := exists_isLeast_stop debugger limit
  rw [runFor_of_isLeast least]
  exact least.2 (Or.inr rfl)

/-- A program that is executed by as many single steps as its run made ends in the same
machine, breakpoints and records included, at the same place; if its run ended because the
machine was halted, so it does by any greater number of single steps, and is halted. -/
theorem execution_modes_agree (debugger : Debugger) (program : Program)
    {settings single : Settings} (runs : settings.step = none)
    (sameBreakpoints : single.breakpoints = settings.breakpoints) :
    let run := debugger.execute settings program
    let count := run.1.instructions
    (single.step = some (UInt64.ofNat count) →
      debugger.execute single program = (⟨.stepLimit, run.1.pc, count⟩, run.2)) ∧
    (run.1.reason = .halted → ∀ steps, single.step = some steps → count < steps.toNat →
      debugger.execute single program = (⟨.halted, run.1.pc, count⟩, run.2)) := by
  intro run count
  have prepared : debugger.prepare single program = debugger.prepare settings program := by
    rw [prepare, prepare, sameBreakpoints]
  have runEq : run = (debugger.prepare settings program).runFor settings.maxSteps.toNat := by
    change debugger.execute settings program = _
    rw [execute, runs]
  have stepsEq : ∀ steps, single.step = some steps → debugger.execute single program =
      (debugger.prepare settings program).stepMany steps.toNat := by
    intro steps asked
    rw [execute, asked, prepared]
  -- The run had a budget of sixty-four bits, so that its steps can be asked for.
  have exactCount : (UInt64.ofNat count).toNat = count := by
    have spent : count ≤ settings.maxSteps.toNat := by
      change run.1.instructions ≤ _
      rw [runEq]
      exact instructions_runFor_le ..
    rw [UInt64.toNat_ofNat', Nat.mod_eq_of_lt]
    exact Nat.lt_of_le_of_lt spent settings.maxSteps.toNat_lt
  obtain ⟨asMany, more⟩ := stepMany_runFor (debugger.prepare settings program)
    settings.maxSteps.toNat
  rw [← runEq] at asMany more
  refine ⟨?_, ?_⟩
  · intro asked
    rw [stepsEq _ asked, exactCount]
    exact asMany
  · intro halted steps asked greater
    rw [stepsEq steps asked]
    exact more halted steps.toNat greater

/-- A program that halts at its second instruction. -/
theorem execution_modes_agree_halting :
    let program : Program := { bytes := [0, 0x76] }
    let run := ({} : Debugger).execute {} program
    run.1 = ⟨.halted, 2, 2⟩ ∧
      ({} : Debugger).execute { step := some 2 } program = (⟨.stepLimit, 2, 2⟩, run.2) ∧
      ({} : Debugger).execute { step := some 7 } program = (⟨.halted, 2, 2⟩, run.2) := by
  intro program run
  have summary : run.1 = ⟨.halted, 2, 2⟩ := by decide
  obtain ⟨asMany, -⟩ := @execution_modes_agree {} program {} { step := some 2 } rfl rfl
  obtain ⟨-, more⟩ := @execution_modes_agree {} program {} { step := some 7 } rfl rfl
  change _ = some (UInt64.ofNat run.1.instructions) →
    _ = (RunSummary.mk _ run.1.pc run.1.instructions, run.2) at asMany
  change run.1.reason = _ → ∀ steps, _ → run.1.instructions < _ →
    _ = (RunSummary.mk _ run.1.pc run.1.instructions, run.2) at more
  rw [summary] at asMany more
  exact ⟨summary, asMany rfl, more rfl 7 rfl (by decide)⟩

end Debugger

end Z80
