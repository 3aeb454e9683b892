import Z80.Proofs.AssembledMeaning
import Z80.Proofs.ImageLayout
import Z80.Proofs.TwoPasses

/-!
# Relative jumps

A relative jump names its target, and its encoding holds the distance to it from the
instruction behind the jump.  The jump therefore leads to the target as long as the
distance fits into a signed byte, and it is refused otherwise, where the second reading
comes to it.
-/

namespace Z80

/-- The jumps that reach their target by a displacement. -/
inductive RelativeJump where
  | always
  /-- Jump if the zero flag has a value. -/
  | ifZero (value : Bool)
  /-- Jump if the carry flag has a value. -/
  | ifCarry (value : Bool)
  /-- Count down in B and jump unless it became zero. -/
  | counting
  deriving DecidableEq, Repr

namespace RelativeJump

def all : List RelativeJump :=
  [.always, .ifZero false, .ifZero true, .ifCarry false, .ifCarry true, .counting]

/-- Whether a processor takes the jump. -/
def taken (cpu : Cpu) : RelativeJump → Bool
  | .always => true
  | .ifZero value => cpu.main.flags.zero == value
  | .ifCarry value => cpu.main.flags.carry == value
  | .counting => cpu.main.b != 1

def mnemonic : RelativeJump → Mnemonic
  | .always | .ifZero _ | .ifCarry _ => .jr
  | .counting => .djnz

/-- The condition that is written before the target. -/
def condition : RelativeJump → List Keyword
  | .always | .counting => []
  | .ifZero value => [if value then .z else .nz]
  | .ifCarry value => [if value then .c else .nc]

def opcode : RelativeJump → UInt8
  | .counting => 0x10
  | .always => 0x18
  | .ifZero value => if value then 0x28 else 0x20
  | .ifCarry value => if value then 0x38 else 0x30

def entry (jump : RelativeJump) : Entry :=
  ⟨.base, jump.opcode, jump.mnemonic, jump.condition.map .keyword ++ [.relative]⟩

/-- The instruction that jumps by a displacement. -/
def instruction (displacement : UInt8) : RelativeJump → Instruction
  | .always => .jumpRelative none displacement
  | .ifZero value => .jumpRelative (some (if value then .zero else .notZero)) displacement
  | .ifCarry value => .jumpRelative (some (if value then .carry else .noCarry)) displacement
  | .counting => .decrementJump displacement

/-- A statement has the mnemonic of a relative jump. -/
def IsNamed (statement : Statement) : Prop :=
  statement.mnemonic = Mnemonic.jr.text ∨ statement.mnemonic = Mnemonic.djnz.text

/-- A statement writes a jump to a target: its operands are the condition of the jump, if
there is one, and the target. -/
structure Writes (jump : RelativeJump) (statement : Statement) (target : Text) : Prop where
  mnemonic : statement.mnemonic = jump.mnemonic.text
  operands : ∃ before, statement.operands = before ++ [target] ∧
    before.map (fun operand => Text.upper (Text.compact operand)) =
      jump.condition.map Keyword.text

theorem mem_all (jump : RelativeJump) : jump ∈ all := by
  cases jump with
  | ifZero value => cases value <;> decide
  | ifCarry value => cases value <;> decide
  | _ => decide

theorem entry_mem_entries (jump : RelativeJump) : jump.entry ∈ Table.entries := by
  have every : ∀ jump ∈ all, jump.entry ∈ Table.entries := by decide +kernel
  exact every jump jump.mem_all

theorem eq_jr_or_eq_djnz {mnemonic : Mnemonic}
    (named : mnemonic.text = Mnemonic.jr.text ∨ mnemonic.text = Mnemonic.djnz.text) :
    mnemonic = .jr ∨ mnemonic = .djnz := by
  have every : ∀ mnemonic ∈ Mnemonic.all,
      mnemonic.text = Mnemonic.jr.text ∨ mnemonic.text = Mnemonic.djnz.text →
        mnemonic = .jr ∨ mnemonic = .djnz := by decide
  exact every mnemonic mnemonic.mem_all named

/-- The table has no further entries for the mnemonics of relative jumps. -/
theorem exists_eq_entry {entry : Entry} (member : entry ∈ Table.entries)
    (named : entry.mnemonic = .jr ∨ entry.mnemonic = .djnz) :
    ∃ jump : RelativeJump, entry = jump.entry := by
  have every : ∀ entry ∈ Table.entries, entry.mnemonic = .jr ∨ entry.mnemonic = .djnz →
      entry ∈ all.map RelativeJump.entry := by decide +kernel
  obtain ⟨jump, _, equal⟩ := List.mem_map.mp (every entry member named)
  exact ⟨jump, equal.symm⟩

theorem length_entry (jump : RelativeJump) : jump.entry.length = 2 := by
  cases jump <;> rfl

theorem encode_entry (jump : RelativeJump) (displacement : UInt8) :
    jump.entry.encode [displacement] = [jump.opcode, displacement] := by
  cases jump <;> rfl

theorem meaning?_entry (jump : RelativeJump) (displacement : UInt8) :
    jump.entry.meaning? [displacement] = some (jump.instruction displacement) := by
  cases jump with
  | ifZero value => cases value <;> rfl
  | ifCarry value => cases value <;> rfl
  | _ => rfl

/-- A processor that takes the jump goes on at the displacement from behind it. -/
theorem pc_execute (jump : RelativeJump) (displacement : UInt8) (cpu : Cpu)
    (memory : Memory) :
    (cpu.execute memory (jump.instruction displacement)).cpu.pc =
      if jump.taken cpu then cpu.pc + signExtend displacement else cpu.pc := by
  rw [Instruction.pc_execute]
  cases jump with
  | always => rfl
  | ifZero value =>
      cases value <;> cases flag : cpu.main.flags.zero <;>
        simp [instruction, taken, Instruction.destination?, Cpu.permits, Condition.holds, flag]
  | ifCarry value =>
      cases value <;> cases flag : cpu.main.flags.carry <;>
        simp [instruction, taken, Instruction.destination?, Cpu.permits, Condition.holds, flag]
  | counting =>
      cases again : cpu.main.b != 1 <;>
        simp [instruction, taken, Instruction.destination?, byte_sub_ne_zero, again]

/-- Where the encoding of a jump stands, a step makes the jump. -/
theorem pc_step {jump : RelativeJump} {cpu : Cpu} {memory : Memory} {displacement : UInt8}
    (running : cpu.halted = false)
    (stored : memory.slice cpu.pc 2 = [jump.opcode, displacement]) :
    (cpu.step memory).cpu.pc =
      if jump.taken cpu then cpu.pc + 2 + signExtend displacement else cpu.pc + 2 := by
  rw [← jump.encode_entry, ← jump.length_entry] at stored
  rw [Cpu.step_of_slice running jump.entry_mem_entries (jump.meaning?_entry displacement)
    (by cases jump <;> rfl) stored, length_entry]
  exact jump.pc_execute displacement (cpu.goto (cpu.pc + 2)) memory

/-- Operands that fit the operands of a jump are its condition and a target. -/
theorem exists_target {scope : Scope} {words : List Keyword} {written : List Text}
    (fit : scope.allFit (words.map Operand.keyword ++ [.relative])
      (written.map Argument.ofText) = true) :
    ∃ before target, written = before ++ [target] ∧
      before.map (fun operand => Text.upper (Text.compact operand)) =
        words.map Keyword.text ∧
      written.map Argument.ofText =
        words.map Argument.keyword ++ [.value (Text.compact target)] := by
  induction words generalizing written with
  | nil =>
      rcases written with _ | ⟨target, _ | ⟨second, others⟩⟩
      · simp [Scope.allFit] at fit
      · have compacted := Argument.compact_of_ofText target
        cases shape : Argument.ofText target with
        | value expression =>
            rw [shape] at compacted
            exact ⟨[], target, rfl, rfl, by simp [shape, compacted]⟩
        | _ => simp [Scope.allFit, Scope.fits, shape] at fit
      · simp [Scope.allFit] at fit
  | cons word words ih =>
      cases written with
      | nil => simp [Scope.allFit] at fit
      | cons first others =>
          simp only [List.map_cons, List.cons_append, Scope.allFit, Bool.and_eq_true] at fit
          obtain ⟨firstFit, othersFit⟩ := fit
          obtain ⟨before, target, rfl, named, shapes⟩ := ih othersFit
          have compacted := Argument.compact_of_ofText first
          cases shape : Argument.ofText first with
          | keyword other =>
              obtain rfl : word = other := by simpa [Scope.fits, shape] using firstFit
              rw [shape] at compacted
              exact ⟨first :: before, target, rfl, by simp [compacted, named],
                by rw [List.map_cons, shape, shapes, List.map_cons, List.cons_append]⟩
          | _ => simp [Scope.fits, shape] at firstFit

end RelativeJump

namespace Scope

theorem payload_relative (scope : Scope) (length : Nat) (words : List Keyword)
    (expression : Text) :
    scope.payload length (words.map Operand.keyword ++ [.relative])
        (words.map Argument.keyword ++ [.value expression]) =
      (scope.relative length expression).map fun displacement => [displacement] := by
  induction words with
  | nil =>
      simp only [List.map_nil, List.nil_append, payload, fill]
      cases scope.relative length expression <;> rfl
  | cons word words ih =>
      simp only [List.map_cons, List.cons_append, payload, fill, ih]
      cases scope.relative length expression <;> rfl

@[simp] theorem relative_compact (scope : Scope) (length : Nat) (expression : Text) :
    scope.relative length (Text.compact expression) = scope.relative length expression := by
  simp only [relative, value, Expression.evaluate_compact]

/-- While bytes are produced, a displacement is the distance from behind the instruction
to the target. -/
theorem relative_eq_ok_iff_signedValue {scope : Scope} (emits : scope.pass = .emit)
    {length : Nat} (short : length ≤ 4) {expression : Text} {displacement : UInt8} :
    scope.relative length expression = .ok displacement ↔
      ∃ target, Expression.evaluate scope.here scope.labels expression = .ok target ∧
        signedValue displacement = target - (scope.here.toNat + length) := by
  rw [relative_eq_ok emits short]
  constructor
  · rintro ⟨target, evaluated, takes, rfl⟩
    exact ⟨target, evaluated, signedValue_ofInt takes.1 takes.2⟩
  · rintro ⟨target, evaluated, offset⟩
    have bounds := signedValue_bounds displacement
    rw [offset] at bounds
    exact ⟨target, evaluated, bounds, by rw [← offset, ofInt_signedValue]⟩

/-- A target out of reach is refused while bytes are produced. -/
theorem relative_eq_error {scope : Scope} (emits : scope.pass = .emit) {length : Nat}
    (short : length ≤ 4) {expression : Text} {target : Int}
    (evaluated : Expression.evaluate scope.here scope.labels expression = .ok target)
    (beyond : ¬Operand.relative.Takes scope.here length target) :
    ∃ offset, scope.relative length expression = .error (.jumpTooFar target offset) := by
  have hereLt := scope.here.toNat_lt
  have outside : ValueRange.displacement.contains
      (Number.wrap (target - (scope.here.toNat + length))) = false := by
    rw [contains_wrap_sub (Expression.fits_of_evaluate evaluated) (by omega) (by omega)]
    exact Bool.eq_false_iff.mpr (mt ValueRange.contains_eq_true.mp beyond)
  refine ⟨Number.wrap (target - (scope.here.toNat + length)), ?_⟩
  rw [relative, (value_eq_ok emits).mpr evaluated]
  change (if scope.pass = .emit ∧ _ then _ else _) = _
  rw [if_pos ⟨emits, by simp [outside]⟩]

end Scope

namespace RelativeJump

/-- A step that takes a jump leads to the address that the displacement is reckoned to. -/
theorem pc_step_of_signedValue {jump : RelativeJump} {cpu : Cpu} {memory : Memory}
    {displacement : UInt8} {target : Int} (running : cpu.halted = false)
    (stored : memory.slice cpu.pc 2 = [jump.opcode, displacement])
    (offset : signedValue displacement = target - (cpu.pc.toNat + 2)) :
    (cpu.step memory).cpu.pc =
      if jump.taken cpu then UInt16.ofInt target else cpu.pc + 2 := by
  have lands : cpu.pc + 2 + signExtend displacement = UInt16.ofInt target := by
    apply UInt16.toNat_inj.mp
    have behind : (cpu.pc + 2).toNat = (cpu.pc.toNat + 2) % 65536 := UInt16.toNat_add _ _
    have moved := toNat_word_ofInt ((cpu.pc + 2).toNat + signedValue displacement)
    have modular := toNat_word_ofInt target
    rw [add_signExtend]
    omega
  rw [jump.pc_step running stored, lands]

/-- Where a statement with the mnemonic of a relative jump has bytes, it writes a jump,
and in every scope it is encoded by the opcode of the jump and the displacement. -/
theorem exists_writes {scope : Scope} {statement : Statement} {bytes : List UInt8}
    (named : IsNamed statement)
    (encoded : scope.instruction statement = .ok bytes) :
    ∃ (jump : RelativeJump) (target : Text), jump.Writes statement target ∧
      ∀ other : Scope, other.instruction statement =
        (other.relative 2 target).map fun displacement => [jump.opcode, displacement] := by
  obtain ⟨entry, _, chosen, _⟩ := Scope.instruction_eq_ok.mp encoded
  obtain ⟨known, knownEq, _⟩ := Scope.select_eq_ok.mp chosen
  obtain ⟨member, mnemonic, fit⟩ := Scope.selected chosen
  unfold IsNamed at named
  have knownNamed := eq_jr_or_eq_djnz (Mnemonic.text_of_ofText? knownEq ▸ named)
  obtain ⟨jump, rfl⟩ := exists_eq_entry member (eq_jr_or_eq_djnz (mnemonic ▸ named))
  obtain ⟨before, target, writtenEq, conditions, shapes⟩ := exists_target fit
  refine ⟨jump, target, ⟨mnemonic.symm, before, writtenEq, conditions⟩, ?_⟩
  intro other
  have plain : known.takesLiteral = false := by
    obtain rfl | rfl := knownNamed <;> rfl
  rw [Scope.select_congr scope other knownEq plain] at chosen
  have payload := other.payload_relative 2 jump.condition (Text.compact target)
  rw [← shapes, Scope.relative_compact] at payload
  simp only [Scope.instruction, chosen, bind, Except.bind, length_entry]
  rw [entry]
  dsimp only
  rw [payload]
  cases other.relative 2 target with
  | error problem => rfl
  | ok displacement => exact congrArg Except.ok (jump.encode_entry displacement)

theorem directive_of_isNamed {statement : Statement} (named : IsNamed statement) :
    statement.directive = .instruction := by
  unfold Statement.directive
  obtain equal | equal := named <;>
    · rw [equal]
      decide

end RelativeJump

namespace Progress

/-- Where the statement of a line cannot be encoded, the second reading stops there. -/
theorem advance_of_statement_error (number : Nat) {progress : Progress} {line : Line}
    {statement : Statement} {problem : Problem} (written : line.statement = some statement)
    (others : statement.directive ≠ .origin)
    (failed : (Scope.mk .emit progress.labels progress.image.here).statement statement =
      .error problem) :
    progress.advance .emit number line = .error ⟨number, progress.image.here, problem⟩ := by
  have stays := arrive_of_not_origin
    (fun _ same => Option.some.inj (written.symm.trans same) ▸ others) progress
  simp only [advance, stays, locate_ok, define_emit, place, written, failed, bind, Except.bind,
    locate_error]

/-- The first reading has encoded the statement of every line that the second one reaches,
and found room for as many bytes. -/
theorem exists_laid_of_reached {front back : List (Nat × Line)} {number : Nat} {line : Line}
    {laidOut before : Progress} {statement : Statement}
    (laid : walk .layout {} (front ++ (number, line) :: back) = .ok laidOut)
    (reached : walk .emit { labels := laidOut.labels } front = .ok before)
    (written : line.statement = some statement) (others : statement.directive ≠ .origin) :
    ∃ (scope : Scope) (bytes : List UInt8) (image next : Image),
      scope.statement statement = .ok bytes ∧ image.append bytes = .ok next ∧
        image.Alike before.image := by
  obtain ⟨former, _, _, advanced, inStep, _⟩ := inStep_of_reached laid reached
  obtain ⟨arrived, defined, arrivedEq, definedEq, placed⟩ := advance_eq_ok.mp advanced
  have stays := arrive_of_not_origin
    (fun _ same => Option.some.inj (written.symm.trans same) ▸ others) former
  obtain rfl := Except.ok.inj (stays.symm.trans arrivedEq)
  rcases place_eq_ok.mp placed with ⟨blank, _⟩ | ⟨other, bytes, next, same, encoded, appended, _⟩
  · rw [written] at blank
    simp at blank
  · obtain rfl := Option.some.inj (written.symm.trans same)
    rw [image_of_define definedEq] at appended
    exact ⟨_, bytes, former.image, next, encoded, appended, inStep.image⟩

/-- Where the statement of a line has bytes, the second reading places them. -/
theorem exists_advance_of_statement {front back : List (Nat × Line)} {number : Nat}
    {line : Line} {laidOut before : Progress} {statement : Statement} {bytes : List UInt8}
    (laid : walk .layout {} (front ++ (number, line) :: back) = .ok laidOut)
    (reached : walk .emit { labels := laidOut.labels } front = .ok before)
    (written : line.statement = some statement) (others : statement.directive ≠ .origin)
    (encoded : (Scope.mk .emit laidOut.labels before.image.here).statement statement =
      .ok bytes) :
    ∃ next, before.advance .emit number line = .ok next ∧
      next.image.bytes.toList = before.image.bytes.toList ++ bytes := by
  obtain ⟨_, laidBytes, _, _, laidEq, laidAppended, alike⟩ :=
    exists_laid_of_reached laid reached written others
  obtain ⟨image, appended, _⟩ :=
    alike.append (Scope.length_of_statement laidEq encoded) laidAppended
  have known := labels_of_walk_emit reached
  rw [← show before.labels = laidOut.labels from known] at encoded
  have stays := arrive_of_not_origin
    (fun _ same => Option.some.inj (written.symm.trans same) ▸ others) before
  have placed : before.place .emit before.image.here line = .ok { before with image := image } :=
    place_eq_ok.mpr (Or.inr ⟨statement, bytes, image, written, encoded, appended, rfl⟩)
  refine ⟨_, advance_eq_ok.mpr ⟨before, before, stays, define_emit _ _, placed⟩, ?_⟩
  rcases Image.append_eq_ok.mp appended with ⟨rfl, rfl⟩ | ⟨_, _, rfl⟩
  · rw [List.append_nil]
  · exact Array.toList_appendList

/-- The second reading places the displacement of a relative jump if it is in reach, and
stops at the jump otherwise. -/
theorem advance_of_relativeJump {front back : List (Nat × Line)} {number : Nat} {line : Line}
    {laidOut before : Progress} {statement : Statement}
    (laid : walk .layout {} (front ++ (number, line) :: back) = .ok laidOut)
    (reached : walk .emit { labels := laidOut.labels } front = .ok before)
    (written : line.statement = some statement) (named : RelativeJump.IsNamed statement) :
    let here := before.image.here
    ∃ (jump : RelativeJump) (target : Text), jump.Writes statement target ∧
      ∀ value, Expression.evaluate here laidOut.labels target = .ok value →
        let offset := value - (here.toNat + 2)
        (-128 ≤ offset ∧ offset ≤ 127 →
          ∃ next displacement,
            before.advance .emit number line = .ok next ∧
            next.image.bytes.toList =
              before.image.bytes.toList ++ [jump.opcode, displacement] ∧
            signedValue displacement = offset) ∧
        (¬(-128 ≤ offset ∧ offset ≤ 127) →
          ∃ problem, problem.kind = .jumpTooFar ∧
            before.advance .emit number line = .error ⟨number, here, problem⟩) := by
  intro here
  have directive := RelativeJump.directive_of_isNamed named
  have others : statement.directive ≠ .origin := by simp [directive]
  obtain ⟨_, _, _, _, laidEq, _⟩ := exists_laid_of_reached laid reached written others
  simp only [Scope.statement, directive] at laidEq
  obtain ⟨jump, target, writes, encodes⟩ := RelativeJump.exists_writes named laidEq
  refine ⟨jump, target, writes, ?_⟩
  intro value evaluated offset
  let scope : Scope := ⟨.emit, laidOut.labels, here⟩
  have encoded : scope.statement statement =
      (scope.relative 2 target).map fun displacement => [jump.opcode, displacement] := by
    rw [Scope.statement, directive]
    exact encodes scope
  constructor
  · intro within
    have offsetEq : signedValue (UInt8.ofInt offset) = offset :=
      signedValue_ofInt within.1 within.2
    have relativeEq : scope.relative 2 target = .ok (UInt8.ofInt offset) :=
      (Scope.relative_eq_ok_iff_signedValue rfl (by decide)).mpr ⟨value, evaluated, offsetEq⟩
    rw [relativeEq] at encoded
    obtain ⟨next, advanced, bytesEq⟩ :=
      exists_advance_of_statement laid reached written others encoded
    exact ⟨next, _, advanced, bytesEq, offsetEq⟩
  · intro beyond
    obtain ⟨distance, relativeEq⟩ : ∃ distance,
        scope.relative 2 target = .error (.jumpTooFar value distance) :=
      Scope.relative_eq_error rfl (by decide) evaluated beyond
    rw [relativeEq] at encoded
    have known := labels_of_walk_emit reached
    exact ⟨_, rfl, advance_of_statement_error number written others
      (by rw [known]; exact encoded)⟩

end Progress

/-- Where the second reading of a source stops, assembling it fails. -/
theorem assemble_eq_error_of_emit {source : String} {lines : List (Nat × Line)}
    {laidOut : Progress} {error : AssemblyError}
    (read : Assembly.readLines 1 (Line.split source.toList) = .ok lines)
    (laid : Progress.walk .layout {} lines = .ok laidOut)
    (failed : Progress.walk .emit { labels := laidOut.labels } lines = .error error) :
    assemble source = .error error := by
  simp only [assemble, Assembly.ofText, read, Assembly.ofLines, laid, failed, bind, Except.bind]

/-- A target that is no number of 64 bits is taken for the one that it wraps around to. -/
example : assemble "JR 9223372036854775807+9223372036854775807+4" = .ok ⟨0, [0x18, 0], []⟩ := by
  rfl

end Z80
