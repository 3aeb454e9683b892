import Z80.Proofs.SourceReading

/-!
# The two readings agree

The second reading of a source is in step with the first.  It comes to every
line with an image of the same extent, although its bytes differ, and it knows
every label that the first reading has found so far, with the same address.  A
step that the first reading has taken can therefore fail in the second one only
for the value of an expression.
-/

namespace Z80

namespace Labels

/-- Every label of the first has the same address in the second. -/
def Within (first second : Labels) : Prop :=
  ∀ name address, first.lookup name = some address → second.lookup name = some address

theorem Within.refl (labels : Labels) : Within labels labels :=
  fun _ _ known => known

theorem Within.trans {first second third : Labels} (left : Within first second)
    (right : Within second third) : Within first third :=
  fun name address known => right name address (left name address known)

theorem within_cons {labels : Labels} {name : Text} (fresh : labels.lookup name = none)
    (address : UInt16) : Within labels ((name, address) :: labels) := by
  intro other found known
  have distinct : (other == name) = false := by
    apply beq_false_of_ne
    rintro rfl
    rw [fresh] at known
    simp at known
  rw [List.lookup_cons, distinct]
  exact known

end Labels

namespace Expression

theorem termValue_of_within {here : UInt16} {first second : Labels}
    (within : Labels.Within first second) {term : Text} {value : Int}
    (valued : termValue here (fun name => first.lookup name) term = .ok value) :
    termValue here (fun name => second.lookup name) term = .ok value := by
  unfold termValue at valued ⊢
  split
  · simp_all
  · rename_i nonempty
    rw [if_neg nonempty] at valued
    split
    · rename_i isHere
      rwa [if_pos isHere] at valued
    · rename_i notHere
      rw [if_neg notHere] at valued
      split
      · rename_i number isNumber
        simpa only [isNumber] using valued
      · rename_i notNumber
        simp only [notNumber] at valued
        split at valued
        · rename_i isName
          rw [if_pos isName]
          split at valued
          · rename_i address known
            simpa only [within term address known] using valued
          · simp at valued
        · simp at valued

theorem sumFrom_of_within {here : UInt16} {first second : Labels}
    (within : Labels.Within first second) {terms : List Term} {total value : Int}
    (summed : sumFrom here (fun name => first.lookup name) total terms = .ok value) :
    sumFrom here (fun name => second.lookup name) total terms = .ok value := by
  induction terms generalizing total with
  | nil => exact summed
  | cons term terms ih =>
      simp only [sumFrom, bind_eq_ok] at summed ⊢
      obtain ⟨number, valued, restSummed⟩ := summed
      exact ⟨number, termValue_of_within within valued, ih restSummed⟩

/-- An expression keeps its value when more labels become known. -/
theorem evaluate_of_within {here : UInt16} {first second : Labels}
    (within : Labels.Within first second) {text : Text} {value : Int}
    (valued : evaluate here first text = .ok value) :
    evaluate here second text = .ok value := by
  unfold evaluate evaluateWith at valued ⊢
  dsimp only at valued ⊢
  split
  · simp_all
  · rename_i nonempty
    rw [if_neg nonempty] at valued
    exact sumFrom_of_within within valued

end Expression

namespace Image

/-- Two images have the same extent. -/
structure Alike (first second : Image) : Prop where
  origin? : first.origin? = second.origin?
  address : first.address = second.address
  size : first.bytes.size = second.bytes.size

theorem Alike.refl (image : Image) : Alike image image :=
  ⟨rfl, rfl, rfl⟩

theorem Alike.origin {first second : Image} (alike : Alike first second) :
    first.origin = second.origin := by
  rw [Image.origin, Image.origin, alike.origin?]

theorem Alike.here {first second : Image} (alike : Alike first second) :
    first.here = second.here := by
  rw [Image.here, Image.here, alike.address]

theorem size_resize (bytes : Array UInt8) (size : Nat) : (resize bytes size).size = size := by
  rw [resize, Array.size_append, Array.take_eq_extract, Array.size_extract, Array.size_replicate]
  omega

theorem Alike.moveTo {first second next : Image} (alike : Alike first second)
    {target : UInt16} (moved : first.moveTo target = .ok next) :
    ∃ image, second.moveTo target = .ok image ∧ Alike next image := by
  unfold Image.moveTo at moved ⊢
  rw [← alike.origin?, ← alike.address]
  split at moved
  · obtain rfl := Except.ok.inj moved
    exact ⟨_, rfl, rfl, rfl, alike.size⟩
  · split at moved
    · simp at moved
    · rename_i onwards
      obtain rfl := Except.ok.inj moved
      rw [if_neg onwards]
      exact ⟨_, rfl, rfl, rfl, by simp only [size_resize]⟩

theorem Alike.append {first second next : Image} (alike : Alike first second)
    {firstBytes secondBytes : List UInt8}
    (lengthEq : firstBytes.length = secondBytes.length)
    (appended : first.append firstBytes = .ok next) :
    ∃ image, second.append secondBytes = .ok image ∧ Alike next image := by
  rcases append_eq_ok.mp appended with ⟨rfl, rfl⟩ | ⟨nonempty, inside, rfl⟩
  · obtain rfl := List.length_eq_zero_iff.mp lengthEq.symm
    exact ⟨second, append_eq_ok.mpr (Or.inl ⟨rfl, rfl⟩), alike⟩
  · rw [alike.address, lengthEq] at inside
    have otherNonempty : secondBytes ≠ [] := by
      rw [← List.length_pos_iff, ← lengthEq]
      exact List.length_pos_iff.mpr nonempty
    refine ⟨_, append_eq_ok.mpr (Or.inr ⟨otherNonempty, inside, rfl⟩), ?_, ?_, ?_⟩
    · exact congrArg some alike.origin
    · rw [alike.address, lengthEq]
    · rw [size_bytes_append, size_bytes_append, alike.size, lengthEq]

end Image

/-- Whether a problem lies in the value of an expression, on which the two readings
may differ. -/
def Problem.concernsValue : Problem → Bool
  | .expression _ | .outOfRange _ _ _ | .jumpTooFar _ _ | .invalidOperands _ _ => true
  | _ => false

namespace Scope

theorem concernsValue_of_value {scope : Scope} {expression : Text} {problem : Problem}
    (failed : scope.value expression = .error problem) : problem.concernsValue = true := by
  unfold value at failed
  split at failed
  · simp at failed
  · simp at failed
  · rw [← Except.error.inj failed]
    rfl

theorem concernsValue_of_valueIn {scope : Scope} {range : ValueRange} {expression : Text}
    {problem : Problem} (failed : scope.valueIn range expression = .error problem) :
    problem.concernsValue = true := by
  simp only [valueIn, bind_eq_error] at failed
  rcases failed with unvalued | ⟨value, _, outside⟩
  · exact concernsValue_of_value unvalued
  · split at outside
    · rw [← Except.error.inj outside]
      rfl
    · simp at outside

theorem concernsValue_of_relative {scope : Scope} {length : Nat} {expression : Text}
    {problem : Problem} (failed : scope.relative length expression = .error problem) :
    problem.concernsValue = true := by
  simp only [relative, bind_eq_error] at failed
  rcases failed with unvalued | ⟨target, _, outside⟩
  · exact concernsValue_of_value unvalued
  · split at outside
    · rw [← Except.error.inj outside]
      rfl
    · simp at outside

theorem concernsValue_of_fill {scope : Scope} {length : Nat} {operand : Operand}
    {argument : Argument} {problem : Problem}
    (failed : scope.fill length operand argument = .error problem) :
    problem.concernsValue = true := by
  unfold fill at failed
  split at failed <;> simp only [map_eq_error, reduceCtorEq] at failed
  · exact concernsValue_of_valueIn (map_eq_error.mp failed)
  · exact concernsValue_of_valueIn (map_eq_error.mp failed)
  · exact concernsValue_of_valueIn (map_eq_error.mp failed)
  · exact concernsValue_of_relative failed
  · exact concernsValue_of_valueIn (map_eq_error.mp failed)

theorem concernsValue_of_payload {scope : Scope} {length : Nat} {operands : List Operand}
    {arguments : List Argument} {problem : Problem}
    (failed : scope.payload length operands arguments = .error problem) :
    problem.concernsValue = true := by
  induction operands generalizing arguments with
  | nil => simp [payload] at failed
  | cons operand operands ih =>
      cases arguments with
      | nil => simp [payload] at failed
      | cons argument arguments =>
          simp only [payload, bind_eq_error] at failed
          rcases failed with unfilled | ⟨_, _, restFailed | ⟨_, _, last⟩⟩
          · exact concernsValue_of_fill unfilled
          · exact ih restFailed
          · simp [pure, Except.pure] at last

theorem concernsValue_of_instruction {scope other : Scope} {statement : Statement}
    {bytes : List UInt8} {problem : Problem}
    (encoded : other.instruction statement = .ok bytes)
    (failed : scope.instruction statement = .error problem) :
    problem.concernsValue = true := by
  obtain ⟨entry, _, chosen, _, _⟩ := instruction_eq_ok.mp encoded
  obtain ⟨mnemonic, known, _⟩ := select_eq_ok.mp chosen
  simp only [instruction, bind_eq_error] at failed
  rcases failed with unselected | ⟨_, _, unfilled | ⟨_, _, last⟩⟩
  · simp only [select, known] at unselected
    split at unselected
    · simp at unselected
    · rw [← Except.error.inj unselected]
      rfl
  · exact concernsValue_of_payload unfilled
  · simp [pure, Except.pure] at last

theorem concernsValue_of_datum {scope other : Scope} {operand : Text}
    {bytes : List UInt8} {problem : Problem} (placed : other.datum operand = .ok bytes)
    (failed : scope.datum operand = .error problem) : problem.concernsValue = true := by
  unfold datum at placed failed
  split at failed
  · rename_i content quoted
    simp only [quoted, failed] at placed
    simp at placed
  · exact concernsValue_of_valueIn (map_eq_error.mp (map_eq_error.mp failed))

theorem concernsValue_of_dataBytes {scope other : Scope} {operands : List Text}
    {bytes : List UInt8} {problem : Problem}
    (placed : other.dataBytes operands = .ok bytes)
    (failed : scope.dataBytes operands = .error problem) :
    problem.concernsValue = true := by
  induction operands generalizing bytes with
  | nil => simp [dataBytes] at failed
  | cons operand operands ih =>
      simp only [dataBytes, bind_eq_ok] at placed
      obtain ⟨_, first, _, rest, _⟩ := placed
      simp only [dataBytes, bind_eq_error] at failed
      rcases failed with firstFailed | ⟨_, _, restFailed | ⟨_, _, last⟩⟩
      · exact concernsValue_of_datum first firstFailed
      · exact ih rest restFailed
      · simp [pure, Except.pure] at last

theorem concernsValue_of_dataWords {scope : Scope} {operands : List Text}
    {problem : Problem} (failed : scope.dataWords operands = .error problem) :
    problem.concernsValue = true := by
  induction operands with
  | nil => simp [dataWords] at failed
  | cons operand operands ih =>
      simp only [dataWords, bind_eq_error] at failed
      rcases failed with firstFailed | ⟨_, _, restFailed | ⟨_, _, last⟩⟩
      · exact concernsValue_of_valueIn (map_eq_error.mp firstFailed)
      · exact ih restFailed
      · simp [pure, Except.pure] at last

/-- A statement that has bytes in one scope fails in another only for the value of
an expression. -/
theorem concernsValue_of_statement {scope other : Scope} {statement : Statement}
    {bytes : List UInt8} {problem : Problem}
    (placed : other.statement statement = .ok bytes)
    (failed : scope.statement statement = .error problem) :
    problem.concernsValue = true := by
  unfold Scope.statement at placed failed
  cases directive : statement.directive with
  | origin => simp [directive] at failed
  | bytes =>
      simp only [directive] at placed failed
      split at failed
      · rename_i missing
        simp [missing] at placed
      · rename_i operands
        rw [if_neg operands] at placed
        exact concernsValue_of_dataBytes placed failed
  | words =>
      simp only [directive] at placed failed
      split at failed
      · rename_i missing
        simp [missing] at placed
      · exact concernsValue_of_dataWords failed
  | instruction =>
      simp only [directive] at placed failed
      exact concernsValue_of_instruction placed failed

end Scope

theorem Scope.word_of_within {here : UInt16} {first second : Labels}
    (within : Labels.Within first second) {expression : Text} {word : UInt16}
    (valued : (Scope.mk .emit first here).word expression = .ok word) :
    (Scope.mk .emit second here).word expression = .ok word := by
  simp only [Scope.word, Scope.valueIn, map_eq_ok, bind_eq_ok] at valued ⊢
  obtain ⟨inside, ⟨value, valueEq, checked⟩, wordEq⟩ := valued
  refine ⟨inside, ⟨value, ?_, checked⟩, wordEq⟩
  unfold Scope.value at valueEq ⊢
  dsimp only at valueEq ⊢
  split at valueEq
  · rename_i known
    rw [Expression.evaluate_of_within within known]
    exact valueEq
  · rename_i impossible
    simp at impossible
  · simp at valueEq

namespace Progress

/-- The first reading only finds further labels. -/
theorem within_of_advance {progress next : Progress} {number : Nat} {line : Line}
    (advanced : progress.advance .layout number line = .ok next) :
    Labels.Within progress.labels next.labels := by
  obtain ⟨arrived, defined, arrivedEq, definedEq, placed⟩ := advance_eq_ok.mp advanced
  rw [labels_of_place placed, ← labels_of_arrive arrivedEq]
  rcases define_layout_eq_ok.mp definedEq with ⟨_, rfl⟩ | ⟨name, _, fresh, rfl⟩
  · exact Labels.Within.refl _
  · exact Labels.within_cons fresh _

theorem within_of_walk {progress last : Progress} {lines : List (Nat × Line)}
    (walked : walk .layout progress lines = .ok last) :
    Labels.Within progress.labels last.labels := by
  induction lines generalizing progress with
  | nil =>
      rw [← Except.ok.inj walked]
      exact Labels.Within.refl _
  | cons first rest ih =>
      obtain ⟨next, advanced, finished⟩ := walk_cons_eq_ok.mp walked
      exact (within_of_advance advanced).trans (ih finished)

/-- The first reading gives the label of a line the address at which it arrives. -/
theorem lookup_of_advance {progress arrived next : Progress} {number : Nat} {line : Line}
    {name : Text} (labelled : line.label = some name)
    (arrivedEq : progress.arrive line = .ok arrived)
    (advanced : progress.advance .layout number line = .ok next) :
    next.labels.lookup name = some arrived.image.here := by
  obtain ⟨other, defined, otherEq, definedEq, placed⟩ := advance_eq_ok.mp advanced
  obtain rfl := Except.ok.inj (arrivedEq.symm.trans otherEq)
  rw [labels_of_place placed]
  rcases define_layout_eq_ok.mp definedEq with ⟨unlabelled, _⟩ | ⟨given, same, _, rfl⟩
  · rw [labelled] at unlabelled
    simp at unlabelled
  · obtain rfl := Option.some.inj (labelled.symm.trans same)
    simp

/-- Every label that the first reading finds stands on a line. -/
theorem exists_line_of_lookup {progress last : Progress} {lines : List (Nat × Line)}
    {name : Text} {address : UInt16} (fresh : progress.labels.lookup name = none)
    (walked : walk .layout progress lines = .ok last)
    (known : last.labels.lookup name = some address) :
    ∃ front number line back,
      lines = front ++ (number, line) :: back ∧ line.label = some name := by
  induction lines generalizing progress with
  | nil =>
      rw [Except.ok.inj walked, known] at fresh
      simp at fresh
  | cons first rest ih =>
      obtain ⟨number, line⟩ := first
      obtain ⟨next, advanced, finished⟩ := walk_cons_eq_ok.mp walked
      by_cases labelled : line.label = some name
      · exact ⟨[], number, line, rest, rfl, labelled⟩
      · obtain ⟨arrived, defined, arrivedEq, definedEq, placed⟩ :=
          advance_eq_ok.mp advanced
        have nextFresh : next.labels.lookup name = none := by
          rw [labels_of_place placed]
          rcases define_layout_eq_ok.mp definedEq with ⟨_, rfl⟩ | ⟨given, same, _, rfl⟩
          · rw [labels_of_arrive arrivedEq, fresh]
          · have distinct : (name == given) = false := by
              apply beq_false_of_ne
              rintro rfl
              exact labelled same
            rw [List.lookup_cons, distinct, labels_of_arrive arrivedEq]
            exact fresh
        obtain ⟨front, other, found, back, rfl, foundLabel⟩ := ih nextFresh finished
        exact ⟨(number, line) :: front, other, found, back, rfl, foundLabel⟩

/-- The second reading, which knows all labels from the start, has come as far as
the first. -/
structure InStep (labels : Labels) (laid emitted : Progress) : Prop where
  image : laid.image.Alike emitted.image
  known : emitted.labels = labels
  within : Labels.Within laid.labels labels

theorem InStep.moveOrigin {labels : Labels} {laid emitted next : Progress}
    (inStep : InStep labels laid emitted) {statement : Statement}
    (moved : laid.moveOrigin statement = .ok next) :
    ∃ arrived, emitted.moveOrigin statement = .ok arrived ∧
      InStep labels next arrived := by
  obtain ⟨operand, target, image, single, valued, movedTo, rfl⟩ := moveOrigin_eq_ok.mp moved
  obtain ⟨other, otherMoved, alike⟩ := inStep.image.moveTo movedTo
  have revalued := Scope.word_of_within inStep.within valued
  rw [inStep.image.here, ← inStep.known] at revalued
  exact ⟨{ emitted with image := other },
    moveOrigin_eq_ok.mpr ⟨operand, target, other, single, revalued, otherMoved, rfl⟩,
    alike, inStep.known, inStep.within⟩

theorem InStep.arrive {labels : Labels} {laid emitted next : Progress}
    (inStep : InStep labels laid emitted) {line : Line}
    (arrivedEq : laid.arrive line = .ok next) :
    ∃ arrived, emitted.arrive line = .ok arrived ∧ InStep labels next arrived := by
  unfold Progress.arrive at arrivedEq ⊢
  split at arrivedEq
  · split at arrivedEq
    · rename_i origin
      rw [if_pos origin]
      exact inStep.moveOrigin arrivedEq
    · rename_i other
      obtain rfl := Except.ok.inj arrivedEq
      rw [if_neg other]
      exact ⟨emitted, rfl, inStep⟩
  · obtain rfl := Except.ok.inj arrivedEq
    exact ⟨emitted, rfl, inStep⟩

theorem InStep.place {labels : Labels} {laid emitted next : Progress}
    (inStep : InStep labels laid emitted) {here : UInt16} {line : Line}
    (placed : laid.place .layout here line = .ok next) :
    (∃ after, emitted.place .emit here line = .ok after ∧ InStep labels next after) ∨
      ∃ problem, emitted.place .emit here line = .error problem ∧
        problem.concernsValue = true := by
  rcases place_eq_ok.mp placed with
    ⟨blank, rfl⟩ | ⟨statement, bytes, image, written, bytesEq, appended, rfl⟩
  · exact Or.inl ⟨emitted, place_eq_ok.mpr (Or.inl ⟨blank, rfl⟩), inStep⟩
  · cases emittedEq : (Scope.mk .emit emitted.labels here).statement statement with
    | error problem =>
        refine Or.inr ⟨problem, ?_, Scope.concernsValue_of_statement bytesEq emittedEq⟩
        simp only [Progress.place, written, emittedEq]
        rfl
    | ok others =>
        obtain ⟨other, otherAppended, alike⟩ :=
          inStep.image.append (Scope.length_of_statement bytesEq emittedEq) appended
        exact Or.inl ⟨{ emitted with image := other },
          place_eq_ok.mpr (Or.inr ⟨statement, others, other, written, emittedEq,
            otherAppended, rfl⟩),
          alike, inStep.known, inStep.within⟩

/-- One line keeps the readings in step, or the second one stops at a value. -/
theorem InStep.advance {labels : Labels} {laid emitted next : Progress}
    (inStep : InStep labels laid emitted) {number : Nat} {line : Line}
    (advanced : laid.advance .layout number line = .ok next)
    (within : Labels.Within next.labels labels) :
    (∃ after, emitted.advance .emit number line = .ok after ∧
        InStep labels next after) ∨
      ∃ error, emitted.advance .emit number line = .error error ∧
        error.problem.concernsValue = true := by
  obtain ⟨arrived, defined, arrivedEq, definedEq, placed⟩ := advance_eq_ok.mp advanced
  obtain ⟨others, othersEq, arrivedInStep⟩ := inStep.arrive arrivedEq
  -- The first reading may define a label here, which the second one knows already.
  have definedInStep : InStep labels defined others := by
    refine ⟨?_, arrivedInStep.known, ?_⟩
    · rw [image_of_define definedEq]
      exact arrivedInStep.image
    · rw [← labels_of_place placed]
      exact within
  rcases definedInStep.place placed with ⟨after, afterEq, afterInStep⟩ |
    ⟨problem, failed, concerns⟩
  · rw [inStep.image.here] at afterEq
    exact Or.inl ⟨after, advance_eq_ok.mpr ⟨others, others, othersEq, define_emit _ _,
      afterEq⟩, afterInStep⟩
  · refine Or.inr ⟨⟨number, emitted.image.here, problem⟩, ?_, concerns⟩
    rw [inStep.image.here] at failed
    simp only [Progress.advance, othersEq, define_emit, locate_ok, locate_error, failed,
      bind, Except.bind]

theorem InStep.walk {labels : Labels} {laid emitted laidLast emittedLast : Progress}
    (inStep : InStep labels laid emitted) {lines : List (Nat × Line)}
    (laidEq : Progress.walk .layout laid lines = .ok laidLast)
    (within : Labels.Within laidLast.labels labels)
    (emittedEq : Progress.walk .emit emitted lines = .ok emittedLast) :
    InStep labels laidLast emittedLast := by
  induction lines generalizing laid emitted with
  | nil =>
      obtain rfl := Except.ok.inj laidEq
      obtain rfl := Except.ok.inj emittedEq
      exact inStep
  | cons first rest ih =>
      obtain ⟨laidNext, laidAdvanced, laidRest⟩ := walk_cons_eq_ok.mp laidEq
      obtain ⟨emittedNext, emittedAdvanced, emittedRest⟩ := walk_cons_eq_ok.mp emittedEq
      have nextWithin := (within_of_walk laidRest).trans within
      rcases inStep.advance laidAdvanced nextWithin with
        ⟨after, afterEq, nextInStep⟩ | ⟨_, failed, _⟩
      · obtain rfl := Except.ok.inj (emittedAdvanced.symm.trans afterEq)
        exact ih nextInStep laidRest emittedRest
      · rw [emittedAdvanced] at failed
        simp at failed

/-- The readings come to every line that the second one reaches in step. -/
theorem inStep_of_reached {front back : List (Nat × Line)} {number : Nat} {line : Line}
    {laidOut emitted : Progress}
    (laid : Progress.walk .layout {} (front ++ (number, line) :: back) = .ok laidOut)
    (reached : Progress.walk .emit { labels := laidOut.labels } front = .ok emitted) :
    ∃ before after,
      Progress.walk .layout {} front = .ok before ∧
      before.advance .layout number line = .ok after ∧
      InStep laidOut.labels before emitted ∧
      Labels.Within after.labels laidOut.labels := by
  obtain ⟨before, laidFront, laidRest⟩ := walk_append_eq_ok.mp laid
  obtain ⟨after, advanced, laidBack⟩ := walk_cons_eq_ok.mp laidRest
  have afterWithin := within_of_walk laidBack
  have started : InStep laidOut.labels {} { labels := laidOut.labels } := by
    refine ⟨Image.Alike.refl _, rfl, ?_⟩
    intro name address known
    simp at known
  exact ⟨before, after, laidFront, advanced,
    started.walk laidFront ((within_of_advance advanced).trans afterWithin) reached,
    afterWithin⟩

/-- The label of a line stands for the address at which the second reading arrives
there. -/
theorem lookup_of_reached {front back : List (Nat × Line)} {number : Nat} {line : Line}
    {laidOut emitted : Progress} {name : Text}
    (laid : Progress.walk .layout {} (front ++ (number, line) :: back) = .ok laidOut)
    (reached : Progress.walk .emit { labels := laidOut.labels } front = .ok emitted)
    (labelled : line.label = some name) :
    ∃ arrived, emitted.arrive line = .ok arrived ∧
      laidOut.labels.lookup name = some arrived.image.here := by
  obtain ⟨before, after, _, advanced, inStep, within⟩ := inStep_of_reached laid reached
  obtain ⟨laidArrived, _, laidEq, _, _⟩ := advance_eq_ok.mp advanced
  obtain ⟨arrived, arrivedEq, arrivedInStep⟩ := inStep.arrive laidEq
  refine ⟨arrived, arrivedEq, ?_⟩
  rw [← arrivedInStep.image.here]
  exact within _ _ (lookup_of_advance labelled laidEq advanced)

theorem lookup_labels_iff {lines : List (Nat × Line)} {laidOut emitted : Progress}
    (laid : Progress.walk .layout {} lines = .ok laidOut)
    (emittedEq : Progress.walk .emit { labels := laidOut.labels } lines = .ok emitted)
    (name : Text) (address : UInt16) :
    laidOut.labels.lookup name = some address ↔
      ∃ front number line back before arrived,
        lines = front ++ (number, line) :: back ∧
        line.label = some name ∧
        Progress.walk .emit { labels := laidOut.labels } front = .ok before ∧
        before.arrive line = .ok arrived ∧
        arrived.image.here = address := by
  constructor
  · intro known
    obtain ⟨front, number, line, back, rfl, labelled⟩ := exists_line_of_lookup rfl laid known
    obtain ⟨before, reached, _⟩ := walk_append_eq_ok.mp emittedEq
    obtain ⟨arrived, arrivedEq, lookedUp⟩ := lookup_of_reached laid reached labelled
    exact ⟨front, number, line, back, before, arrived, rfl, labelled, reached, arrivedEq,
      Option.some.inj (lookedUp.symm.trans known)⟩
  · rintro ⟨front, number, line, back, before, arrived, rfl, labelled, reached,
      arrivedEq, rfl⟩
    obtain ⟨other, otherEq, lookedUp⟩ := lookup_of_reached laid reached labelled
    obtain rfl := Except.ok.inj (arrivedEq.symm.trans otherEq)
    exact lookedUp

end Progress

private theorem kind_of_concernsValue {problem : Problem}
    (concerns : problem.concernsValue = true) :
    problem.kind ≠ .originBackwards ∧ problem.kind ≠ .duplicateLabel ∧
      problem.kind ≠ .unknownInstruction ∧ problem ≠ .pastEnd := by
  cases problem with
  | expression flaw => cases flaw <;> simp [Problem.kind]
  | invalidOperands => simp [Problem.kind]
  | outOfRange => simp [Problem.kind]
  | jumpTooFar => simp [Problem.kind]
  | _ => simp [Problem.concernsValue] at concerns

/-- Once the first reading has laid out a source, the second one comes to each of its
lines at the same address, and gives it as many bytes; it fails neither for an
address, a label or a mnemonic, nor for want of room.  Every label stands for the
address at which the second reading arrives on its line. -/
theorem readings_agree {source : String} {lines : List (Nat × Line)} {laidOut : Progress}
    (read : Assembly.readLines 1 (Line.split source.toList) = .ok lines)
    (laid : Progress.walk .layout {} lines = .ok laidOut) :
    let start : Progress := { labels := laidOut.labels }
    (∀ front number line back emitted,
      lines = front ++ (number, line) :: back →
      Progress.walk .emit start front = .ok emitted →
      ∃ before after,
        Progress.walk .layout {} front = .ok before ∧
        before.advance .layout number line = .ok after ∧
        before.image.address = emitted.image.address ∧
        (∀ next, emitted.advance .emit number line = .ok next →
          after.image.address = next.image.address) ∧
        (∀ statement bytes, line.statement = some statement →
          (Scope.mk .emit laidOut.labels emitted.image.here).statement statement =
            .ok bytes →
          ∃ placed,
            (Scope.mk .layout after.labels before.image.here).statement statement =
              .ok placed ∧
            placed.length = bytes.length)) ∧
    (∀ error, Progress.walk .emit start lines = .error error →
      error.problem.kind ≠ .originBackwards ∧ error.problem.kind ≠ .duplicateLabel ∧
      error.problem.kind ≠ .unknownInstruction ∧ error.problem ≠ .pastEnd) ∧
    (∀ assembly, assemble source = .ok assembly →
      ∀ name address, assembly.labels.lookup name = some address ↔
        ∃ front number line back before arrived,
          lines = front ++ (number, line) :: back ∧
          line.label = some name ∧
          Progress.walk .emit start front = .ok before ∧
          before.arrive line = .ok arrived ∧
          arrived.image.here = address) := by
  intro start
  refine ⟨?_, ?_, ?_⟩
  · rintro front number line back emitted rfl reached
    obtain ⟨before, after, laidFront, advanced, inStep, within⟩ :=
      Progress.inStep_of_reached laid reached
    refine ⟨before, after, laidFront, advanced, inStep.image.address, ?_, ?_⟩
    · intro next nextEq
      rcases inStep.advance advanced within with ⟨other, otherEq, nextInStep⟩ |
        ⟨_, failed, _⟩
      · obtain rfl := Except.ok.inj (nextEq.symm.trans otherEq)
        exact nextInStep.image.address
      · rw [nextEq] at failed
        simp at failed
    · intro statement bytes written bytesEq
      obtain ⟨_, defined, _, _, placed⟩ := Progress.advance_eq_ok.mp advanced
      have labels := Progress.labels_of_place placed
      rcases Progress.place_eq_ok.mp placed with
        ⟨blank, _⟩ | ⟨other, laidBytes, _, same, laidBytesEq, _, _⟩
      · rw [written] at blank
        simp at blank
      · obtain rfl := Option.some.inj (written.symm.trans same)
        rw [← labels] at laidBytesEq
        exact ⟨laidBytes, laidBytesEq, Scope.length_of_statement laidBytesEq bytesEq⟩
  · intro error failed
    obtain ⟨front, number, line, back, emitted, rfl, reached, stops⟩ :=
      Progress.exists_of_walk_eq_error failed
    obtain ⟨before, after, _, advanced, inStep, within⟩ :=
      Progress.inStep_of_reached laid reached
    rcases inStep.advance advanced within with ⟨other, otherEq, _⟩ |
      ⟨other, otherEq, concerns⟩
    · rw [stops] at otherEq
      simp at otherEq
    · obtain rfl := Except.error.inj (stops.symm.trans otherEq)
      exact kind_of_concernsValue concerns
  · intro assembly assembled name address
    obtain ⟨others, otherLaid, emitted, otherRead, otherLaidEq, emittedEq, rfl⟩ :=
      assemble_eq_ok.mp assembled
    obtain rfl := Except.ok.inj (read.symm.trans otherRead)
    obtain rfl := Except.ok.inj (laid.symm.trans otherLaidEq)
    exact Progress.lookup_labels_iff laid emittedEq name address

/-- The readings select different entries where a bit number stands ahead of its
label, and agree on the address of the label. -/
theorem readings_agree_bit_ahead :
    let lines : List (Nat × Line) :=
      [(1, ⟨none, some ⟨['B', 'I', 'T'], [['k'], ['A']]⟩⟩), (2, ⟨some ['k'], none⟩)]
    let laidOut : Progress := ⟨⟨some 0, 2, #[0xCB, 0x47]⟩, [(['k'], 2)]⟩
    Assembly.readLines 1 (Line.split "BIT k,A\nk:".toList) = .ok lines ∧
      Progress.walk .layout {} lines = .ok laidOut ∧
      assemble "BIT k,A\nk:" = .ok ⟨0, [0xCB, 0x57], [(['k'], 2)]⟩ ∧
      ∃ front number line back before arrived,
        lines = front ++ (number, line) :: back ∧
        line.label = some ['k'] ∧
        Progress.walk .emit { labels := laidOut.labels } front = .ok before ∧
        before.arrive line = .ok arrived ∧
        arrived.image.here = 2 := by
  intro lines laidOut
  have read : Assembly.readLines 1 (Line.split "BIT k,A\nk:".toList) = .ok lines := rfl
  have laid : Progress.walk .layout {} lines = .ok laidOut := rfl
  have assembled : assemble "BIT k,A\nk:" = .ok ⟨0, [0xCB, 0x57], [(['k'], 2)]⟩ := rfl
  obtain ⟨_, _, labelled⟩ := readings_agree read laid
  exact ⟨read, laid, assembled, (labelled _ assembled ['k'] 2).mp rfl⟩

end Z80
