import Mathlib.Data.List.Induction
import Z80.Proofs.NumberForms

/-!
# Command lines in any order

A command line is made up of groups of arguments: the path of the program, an option with
its value, and an option that takes none.  Each group changes the settings by itself, and no
value is taken for a path or an option, so that groups can come in any order.  Breakpoints
add up; of the other options the last one counts.
-/

namespace Z80

namespace Invocation

/-- Arguments that belong together. -/
inductive Group where
  | program (path : String)
  /-- An option with the number that its value stands for and the text of the value. -/
  | option (flag : Flag) (number : Nat) (text : String)
  | trace
  deriving DecidableEq, Repr

/-- The largest number that can be the value of an option. -/
def Flag.largest : Flag → Nat
  | .org | .break => 65535
  | .maxSteps | .step | .trace => CommandLine.largestNumber

namespace Group

def arguments : Group → List String
  | program path => [path]
  | option flag _ text => [flag.name, text]
  | trace => [Flag.trace.name]

/-- The arguments stand for the group: a path does not look like an option, and the value of
an option is a number in one of the forms that the command line knows. -/
def IsWritten : Group → Prop
  | program path => "--".toList.isPrefixOf path.toList = false
  | option flag number text =>
      flag ≠ .trace ∧ number ≤ flag.largest ∧
        ∃ (form : NumberForm) (token : Text), form.isBinary = false ∧
          form.Writes number token ∧ Text.IsPadded token text.toList
  | trace => True

def program? : Group → Option String
  | program path => some path
  | _ => none

/-- The number that a group gives for an option. -/
def number? (flag : Flag) : Group → Option Nat
  | option other number _ => if other = flag then some number else none
  | _ => none

/-- The settings with what a group changes in them. -/
def apply (settings : Settings) : Group → Settings
  | program _ => settings
  | option .org number _ => { settings with origin := some (UInt16.ofNat number) }
  | option .break number _ =>
      { settings with breakpoints := settings.breakpoints ++ [UInt16.ofNat number] }
  | option .maxSteps number _ => { settings with maxSteps := UInt64.ofNat number }
  | option .step number _ => { settings with step := some (UInt64.ofNat number) }
  | option .trace _ _ | trace => { settings with trace := true }

end Group

/-- The numbers that groups give for an option, in their order. -/
def numbers (flag : Flag) (groups : List Group) : List Nat :=
  groups.filterMap (Group.number? flag)

/-! ## One group -/

theorem Flag.ofName?_name (flag : Flag) : ofName? flag.name = some flag := by
  cases flag <;> decide

theorem Flag.ofName?_eq_none {argument : String}
    (path : "--".toList.isPrefixOf argument.toList = false) : ofName? argument = none := by
  refine List.find?_eq_none.mpr fun flag _ named => ?_
  obtain rfl : flag.name = argument := by simpa using named
  revert path
  cases flag <;> decide

theorem readNumber_of_isWritten {flag : Flag} {number : Nat} {text : String}
    (written : (Group.option flag number text).IsWritten) :
    readNumber text = .ok (UInt64.ofNat number) := by
  obtain ⟨_, bounded, form, token, known, writes, padded⟩ := written
  have within : number ≤ CommandLine.largestNumber :=
    Nat.le_trans bounded (by cases flag <;> decide)
  exact readNumber_eq_ok.mpr (NumberForm.readNumber_of_writes known within writes padded)

theorem readAddress_of_isWritten {flag : Flag} {number : Nat} {text : String}
    (written : (Group.option flag number text).IsWritten) (address : flag.largest = 65535) :
    readAddress text = .ok (UInt16.ofNat number) := by
  have small : number < 65536 := by
    have bounded := written.2.1
    omega
  have toNatEq : (UInt64.ofNat number).toNat = number :=
    CommandLine.toNat_ofNat_of_le (Nat.le_trans (Nat.le_of_lt small) (by decide))
  rw [readAddress, readNumber_of_isWritten written]
  change ite _ _ _ = _
  rw [toNatEq, if_pos small]
  congr 1
  apply UInt16.toNat_inj.mp
  rw [UInt64.toNat_toUInt16, toNatEq, UInt16.toNat_ofNat']

theorem set_of_isWritten {flag : Flag} {number : Nat} {text : String}
    (written : (Group.option flag number text).IsWritten) (settings : Settings) :
    set settings flag text = .ok ((Group.option flag number text).apply settings) := by
  cases flag with
  | trace => rfl
  | maxSteps | step =>
      rw [set, readNumber_of_isWritten written]
      rfl
  | _ =>
      rw [set, readAddress_of_isWritten written rfl]
      rfl

/-- One group is read by itself, whatever comes after it. -/
theorem readFrom_group {group : Group} (written : group.IsWritten) {program : Option String}
    (alone : group.program?.isSome → program = none) (settings : Settings)
    (rest : List String) :
    readFrom program settings (group.arguments ++ rest) =
      readFrom (group.program?.or program) (group.apply settings) rest := by
  cases group with
  | program path =>
      obtain rfl := alone rfl
      have isPath : "--".toList.isPrefixOf path.toList = false := written
      simp only [Group.arguments, List.singleton_append, readFrom, Flag.ofName?_eq_none isPath,
        isPath]
      rfl
  | option flag number text =>
      have isSet := set_of_isWritten written settings
      have valued : flag ≠ .trace := written.1
      simp only [Group.arguments, List.cons_append, List.nil_append, readFrom,
        Flag.ofName?_name]
      cases flag with
      | trace => exact absurd rfl valued
      | _ =>
          simp only [isSet]
          rfl
  | trace => rfl

/-! ## All groups -/

/-- With at most one path, the groups change the settings one after another. -/
theorem readFrom_groups (program : Option String) {groups : List Group}
    (written : ∀ group ∈ groups, group.IsWritten)
    (single : (program.toList ++ groups.filterMap Group.program?).length ≤ 1)
    (settings : Settings) :
    readFrom program settings (groups.flatMap Group.arguments) =
      .ok ((program.toList ++ groups.filterMap Group.program?).head?,
        groups.foldl Group.apply settings) := by
  induction groups generalizing program settings with
  | nil =>
      rw [List.filterMap_nil, List.append_nil, Option.head?_toList]
      rfl
  | cons group rest ih =>
      obtain ⟨isWritten, restWritten⟩ := List.forall_mem_cons.mp written
      have alone : group.program?.isSome → program = none := by
        intro named
        obtain ⟨path, isPath⟩ := Option.isSome_iff_exists.mp named
        cases program with
        | none => rfl
        | some other => simp [isPath] at single
      have samePaths : program.toList ++ (group :: rest).filterMap Group.program? =
          (group.program?.or program).toList ++ rest.filterMap Group.program? := by
        cases isPath : group.program? with
        | none => rw [List.filterMap_cons_none isPath, Option.none_or]
        | some path =>
            rw [List.filterMap_cons_some isPath, alone (by rw [isPath]; rfl)]
            rfl
      rw [samePaths] at single ⊢
      rw [List.flatMap_cons, readFrom_group isWritten alone, ih _ restWritten single,
        List.foldl_cons]

theorem numbers_append (flag : Flag) (front back : List Group) :
    numbers flag (front ++ back) = numbers flag front ++ numbers flag back :=
  List.filterMap_append

theorem numbers_singleton (flag : Flag) (group : Group) :
    numbers flag [group] = (group.number? flag).toList := by
  rw [numbers]
  cases isNumber : group.number? flag with
  | none => exact List.filterMap_cons_none isNumber
  | some number => exact List.filterMap_cons_some isNumber

/-- What groups say about settings.  The last of several numbers counts, and breakpoints add
up. -/
structure Follows (settings : Settings) (groups : List Group) : Prop where
  origin : settings.origin.map UInt16.toNat = (numbers .org groups).getLast?
  breakpoints : settings.breakpoints.map UInt16.toNat = numbers .break groups
  maxSteps : settings.maxSteps.toNat = (numbers .maxSteps groups).getLast?.getD 1000000
  step : settings.step.map UInt64.toNat = (numbers .step groups).getLast?
  trace : settings.trace = true ↔ Group.trace ∈ groups

theorem follows_nil : Follows {} [] where
  origin := rfl
  breakpoints := rfl
  maxSteps := rfl
  step := rfl
  trace := by simp

/-- One group: it says the last word on its option and nothing on the others. -/
theorem Follows.apply {settings : Settings} {groups : List Group} {group : Group}
    (follows : Follows settings groups) (written : group.IsWritten) :
    Follows (group.apply settings) (groups ++ [group]) := by
  obtain ⟨origin, breakpoints, maxSteps, step, trace⟩ := follows
  cases group with
  | program path =>
      constructor <;> simp [numbers_append, numbers_singleton, Group.number?, Group.apply, *]
  | trace =>
      constructor <;> simp [numbers_append, numbers_singleton, Group.number?, Group.apply, *]
  | option flag number text =>
      have bounded := written.2.1
      cases flag with
      | trace => exact absurd rfl written.1
      | maxSteps | step =>
          have stored := CommandLine.toNat_ofNat_of_le bounded
          constructor <;> simp [numbers_append, numbers_singleton, Group.number?, Group.apply, *]
      | _ =>
          have small : number < 65536 := Nat.lt_succ_of_le bounded
          have stored : (UInt16.ofNat number).toNat = number := by
            rw [UInt16.toNat_ofNat', Nat.mod_eq_of_lt small]
          constructor <;> simp [numbers_append, numbers_singleton, Group.number?, Group.apply, *]

/-- All groups: the settings that are read are those that the groups speak of. -/
theorem follows_foldl {groups : List Group} (written : ∀ group ∈ groups, group.IsWritten) :
    Follows (groups.foldl Group.apply {}) groups := by
  induction groups using List.reverseRecOn with
  | nil => exact follows_nil
  | append_singleton groups group ih =>
      rw [List.foldl_append]
      exact (ih fun other member => written other (List.mem_append_left _ member)).apply
        (written group (List.mem_append_right _ (List.mem_singleton_self group)))

/-- Groups leave no choice between settings. -/
theorem Follows.unique {first second : Settings} {groups : List Group}
    (firstFollows : Follows first groups) (secondFollows : Follows second groups) :
    first = second := by
  have word : Function.Injective UInt16.toNat := fun _ _ => UInt16.toNat_inj.mp
  have longWord : Function.Injective UInt64.toNat := fun _ _ => UInt64.toNat_inj.mp
  have origin := Option.map_injective word (firstFollows.origin.trans secondFollows.origin.symm)
  have breakpoints := List.map_injective_iff.mpr word
    (firstFollows.breakpoints.trans secondFollows.breakpoints.symm)
  have maxSteps := longWord (firstFollows.maxSteps.trans secondFollows.maxSteps.symm)
  have step := Option.map_injective longWord (firstFollows.step.trans secondFollows.step.symm)
  have trace := Bool.eq_iff_iff.mpr (firstFollows.trace.trans secondFollows.trace.symm)
  cases first
  cases second
  simp only at origin breakpoints maxSteps step trace
  rw [origin, breakpoints, maxSteps, step, trace]

/-- Groups with one path among them are read as that path with the settings that they speak
of. -/
theorem read_groups {groups : List Group} (written : ∀ group ∈ groups, group.IsWritten)
    {path : String} (single : groups.filterMap Group.program? = [path]) :
    ∃ settings, read (groups.flatMap Group.arguments) = .ok ⟨path, settings⟩ ∧
      Follows settings groups := by
  refine ⟨groups.foldl Group.apply {}, ?_, follows_foldl written⟩
  have isRead := readFrom_groups none written (by rw [single]; exact Nat.le_refl 1) {}
  rw [single] at isRead
  rw [read, isRead]
  rfl

/-! ## Written invocations -/

/-- The groups write an invocation: its path, each option that it has and its breakpoints one
after another.  A maximum of steps that is not written is the usual one. -/
structure Writes (invocation : Invocation) (groups : List Group) : Prop where
  written : ∀ group ∈ groups, group.IsWritten
  program : groups.filterMap Group.program? = [invocation.program]
  origin : numbers .org groups = (invocation.settings.origin.map UInt16.toNat).toList
  breakpoints : numbers .break groups = invocation.settings.breakpoints.map UInt16.toNat
  maxSteps : numbers .maxSteps groups = [invocation.settings.maxSteps.toNat] ∨
    numbers .maxSteps groups = [] ∧ invocation.settings.maxSteps = 1000000
  step : numbers .step groups = (invocation.settings.step.map UInt64.toNat).toList
  trace : Group.trace ∈ groups ↔ invocation.settings.trace = true

theorem Writes.follows {invocation : Invocation} {groups : List Group}
    (writes : Writes invocation groups) : Follows invocation.settings groups where
  origin := by
    rw [writes.origin]
    cases invocation.settings.origin <;> rfl
  breakpoints := writes.breakpoints.symm
  maxSteps := by
    rcases writes.maxSteps with isWritten | ⟨omitted, usual⟩
    · rw [isWritten]
      rfl
    · rw [omitted, usual]
      rfl
  step := by
    rw [writes.step]
    cases invocation.settings.step <;> rfl
  trace := writes.trace.symm

theorem eq_of_perm_toList {α : Type} {list : List α} {value : Option α}
    (reordered : list.Perm value.toList) : list = value.toList := by
  cases value with
  | none => exact List.perm_nil.mp reordered
  | some element => exact List.perm_singleton.mp reordered

/-- Only the order of the breakpoints among themselves matters. -/
theorem Writes.of_perm {invocation : Invocation} {groups other : List Group}
    (writes : Writes invocation groups) (reordered : other.Perm groups)
    (inOrder : numbers .break other = numbers .break groups) : Writes invocation other := by
  have same (flag : Flag) : (numbers flag other).Perm (numbers flag groups) :=
    reordered.filterMap _
  constructor
  · exact fun group member => writes.written group (reordered.mem_iff.mp member)
  · have paths := reordered.filterMap Group.program?
    rw [writes.program] at paths
    exact List.perm_singleton.mp paths
  · exact eq_of_perm_toList (writes.origin ▸ same .org)
  · rw [inOrder, writes.breakpoints]
  · have steps := same .maxSteps
    rcases writes.maxSteps with isWritten | ⟨omitted, usual⟩
    · rw [isWritten] at steps
      exact Or.inl (List.perm_singleton.mp steps)
    · rw [omitted] at steps
      exact Or.inr ⟨List.perm_nil.mp steps, usual⟩
  · exact eq_of_perm_toList (writes.step ▸ same .step)
  · rw [reordered.mem_iff, writes.trace]

/-- The group of an option with its number in decimal. -/
def Group.ofNumber (flag : Flag) (number : Nat) : Group :=
  option flag number (String.ofList (Nat.toDigits 10 number))

theorem Group.isWritten_ofNumber {flag : Flag} (valued : flag ≠ .trace) {number : Nat}
    (bounded : number ≤ flag.largest) : (ofNumber flag number).IsWritten := by
  have lowered : Text.lower (Nat.toDigits 10 number) = Nat.toDigits 10 number := by
    refine (List.map_congr_left fun character member => ?_).trans (List.map_id _)
    have isDigit := Nat.isDigit_of_mem_toDigits (by decide) (by decide) member
    rcases toLower_eq_or character with same | small
    · exact same
    · revert isDigit
      apply of_codes character small
      decide
  refine ⟨valued, bounded, .decimal, Nat.toDigits 10 number, rfl, ⟨0, ?_⟩, [], [], by decide,
    by decide, ?_⟩
  · rw [lowered, NumberForm.written_eq]
    rfl
  · rw [String.toList_ofList, List.nil_append, List.append_nil]

/-- An invocation as arguments with every number in decimal. -/
def groups (invocation : Invocation) : List Group :=
  [.program invocation.program] ++
    (invocation.settings.origin.map UInt16.toNat).toList.map (.ofNumber .org) ++
    (invocation.settings.breakpoints.map UInt16.toNat).map (.ofNumber .break) ++
    [.ofNumber .maxSteps invocation.settings.maxSteps.toNat] ++
    (invocation.settings.step.map UInt64.toNat).toList.map (.ofNumber .step) ++
    if invocation.settings.trace then [.trace] else []

theorem numbers_ofNumber (flag other : Flag) (values : List Nat) :
    numbers flag (values.map (.ofNumber other)) = if other = flag then values else [] := by
  rw [numbers, List.filterMap_map]
  split
  · rename_i same
    have all : Group.number? flag ∘ Group.ofNumber other = some := funext fun _ => if_pos same
    rw [all, List.filterMap_some]
  · rename_i differs
    refine List.filterMap_eq_nil_iff.mpr fun number _ => ?_
    exact if_neg differs

theorem program?_ofNumber (flag : Flag) (values : List Nat) :
    (values.map (Group.ofNumber flag)).filterMap Group.program? = [] := by
  rw [List.filterMap_map]
  exact List.filterMap_eq_nil_iff.mpr fun _ _ => rfl

/-- Every invocation can be written, unless its path looks like an option. -/
theorem writes_groups {invocation : Invocation}
    (path : "--".toList.isPrefixOf invocation.program.toList = false) :
    Writes invocation invocation.groups := by
  have traceAlone (flag : Flag) :
      numbers flag (if invocation.settings.trace then [.trace] else []) = [] := by
    split <;> rfl
  have noPath : (if invocation.settings.trace then [Group.trace] else []).filterMap
      Group.program? = [] := by
    split <;> rfl
  constructor
  · intro group member
    simp only [groups, List.mem_append, List.mem_map, List.mem_singleton, Option.mem_toList,
      Option.map_eq_some_iff] at member
    rcases member with ((((rfl | ⟨_, ⟨word, _, rfl⟩, rfl⟩) | ⟨_, ⟨word, _, rfl⟩, rfl⟩) | rfl) |
      ⟨_, ⟨word, _, rfl⟩, rfl⟩) | isTrace
    · exact path
    · exact Group.isWritten_ofNumber (by decide) (Nat.le_of_lt_succ word.toNat_lt)
    · exact Group.isWritten_ofNumber (by decide) (Nat.le_of_lt_succ word.toNat_lt)
    · exact Group.isWritten_ofNumber (by decide) (Nat.le_of_lt_succ (UInt64.toNat_lt _))
    · exact Group.isWritten_ofNumber (by decide) (Nat.le_of_lt_succ word.toNat_lt)
    · split at isTrace
      · rw [List.mem_singleton.mp isTrace]
        trivial
      · cases isTrace
  · simp only [groups, List.filterMap_append, program?_ofNumber, noPath]
    rfl
  all_goals simp only [groups, numbers_append, numbers_singleton, numbers_ofNumber, traceAlone]
  · simp [Group.number?, Group.ofNumber]
  · simp [Group.number?, Group.ofNumber]
  · simp [Group.number?, Group.ofNumber]
  · simp [Group.number?, Group.ofNumber]
  · simp [Group.ofNumber]

/-- Every invocation can be written as arguments, unless its path looks like an option.
Whatever the forms of the numbers in them, it is read back from the groups that write it, and
from these in any order that leaves the breakpoints in theirs.  Where an option other than
`--break` is given several times, the last of its numbers counts. -/
theorem arguments_in_any_order :
    (∀ invocation : Invocation, "--".toList.isPrefixOf invocation.program.toList = false →
      Writes invocation invocation.groups) ∧
    (∀ (invocation : Invocation) (groups other : List Group), Writes invocation groups →
      other.Perm groups → numbers .break other = numbers .break groups →
        Writes invocation other ∧ read (other.flatMap Group.arguments) = .ok invocation) ∧
    ∀ (groups : List Group) (path : String),
      (∀ group ∈ groups, group.IsWritten) → groups.filterMap Group.program? = [path] →
        ∃ settings, read (groups.flatMap Group.arguments) = .ok ⟨path, settings⟩ ∧
          Follows settings groups := by
  refine ⟨fun invocation path => writes_groups path, ?_,
    fun groups path written single => read_groups written single⟩
  intro invocation groups other writes reordered inOrder
  have rewritten := writes.of_perm reordered inOrder
  obtain ⟨settings, isRead, follows⟩ := read_groups rewritten.written rewritten.program
  refine ⟨rewritten, ?_⟩
  rw [isRead, follows.unique rewritten.follows]

/-- The path may stand between the options, and a second origin replaces the first. -/
theorem arguments_in_any_order_mixed :
    let invocation : Invocation :=
      ⟨"prog.asm", { origin := some 0x8000, breakpoints := [0x8003, 0x10], trace := true }⟩
    let groups : List Group :=
      [.option .break 0x8003 "$8003", .trace, .program "prog.asm", .option .org 0x8000 "08000H",
        .option .break 0x10 "0x10"]
    let other : List Group :=
      [.program "prog.asm", .option .break 0x8003 "$8003", .option .break 0x10 "0x10",
        .option .org 0x8000 "08000H", .trace]
    let later : List Group := groups ++ [.option .org 5 "5"]
    "--".toList.isPrefixOf invocation.program.toList = false ∧
      Writes invocation invocation.groups ∧ Writes invocation groups ∧
      other.Perm groups ∧ numbers .break other = numbers .break groups ∧
      read ["prog.asm", "--break", "$8003", "--break", "0x10", "--org", "08000H", "--trace"] =
        .ok invocation ∧
      read ["--break", "$8003", "--trace", "prog.asm", "--org", "08000H", "--break", "0x10"] =
        .ok invocation ∧
      (∀ group ∈ later, group.IsWritten) ∧ later.filterMap Group.program? = ["prog.asm"] ∧
      ∃ settings, read (later.flatMap Group.arguments) = .ok ⟨"prog.asm", settings⟩ ∧
        Follows settings later := by
  intro invocation groups other later
  have dollar : (Group.option .break 0x8003 "$8003").IsWritten :=
    ⟨by decide, by decide, .dollar, "$8003".toList, rfl, ⟨0, by decide⟩, [], [], by decide,
      by decide, rfl⟩
  have suffixed : (Group.option .org 0x8000 "08000H").IsWritten :=
    ⟨by decide, by decide, .suffixed, "08000H".toList, rfl, ⟨1, by decide⟩, [], [], by decide,
      by decide, rfl⟩
  have zeroX : (Group.option .break 0x10 "0x10").IsWritten :=
    ⟨by decide, by decide, .zeroX, "0x10".toList, rfl, ⟨0, by decide⟩, [], [], by decide,
      by decide, rfl⟩
  have decimal : (Group.option .org 5 "5").IsWritten :=
    ⟨by decide, by decide, .decimal, "5".toList, rfl, ⟨0, by decide⟩, [], [], by decide,
      by decide, rfl⟩
  have path : (Group.program "prog.asm").IsWritten := by
    change "--".toList.isPrefixOf "prog.asm".toList = false
    decide
  have written : ∀ group ∈ groups, group.IsWritten := by
    simp only [groups, List.forall_mem_cons, List.not_mem_nil, false_implies, implies_true,
      and_true]
    exact ⟨dollar, trivial, path, suffixed, zeroX⟩
  have laterWritten : ∀ group ∈ later, group.IsWritten := by
    rw [List.forall_mem_append, List.forall_mem_singleton]
    exact ⟨written, decimal⟩
  have writes : Writes invocation groups :=
    ⟨written, rfl, rfl, rfl, Or.inr ⟨rfl, rfl⟩, rfl, by decide⟩
  have reordered : other.Perm groups := by decide
  obtain ⟨every, any, last⟩ := arguments_in_any_order
  exact ⟨path, every invocation path, writes, reordered, rfl,
    (any invocation groups other writes reordered rfl).2,
    (any invocation groups groups writes (.refl groups) rfl).2, laterWritten, rfl,
    last later _ laterWritten rfl⟩

end Invocation

end Z80
