import Z80.Assembler.Assembly
import Z80.Proofs.StatementLength

/-!
# Reading a source

What each part of the processing of a line leaves alone, what it takes for a
reading to succeed, and where it stops.
-/

namespace Z80

namespace Image

theorem size_bytes_append (bytes : Array UInt8) (others : List UInt8) :
    (bytes ++ others).size = bytes.size + others.length := by
  rw [← Array.length_toList, Array.toList_appendList, List.length_append,
    Array.length_toList]

theorem here_eq_ofNat (image : Image) : image.here = UInt16.ofNat image.address.toNat :=
  rfl

/-- The address behind bytes is a sum of numbers as long as it has 32 bits. -/
theorem toNat_address_add {address : UInt32} {length : Nat}
    (small : address.toNat + length < 0x100000000) :
    (address + UInt32.ofNat length).toNat = address.toNat + length := by
  rw [UInt32.toNat_add, UInt32.toNat_ofNat', Nat.add_mod_mod, Nat.mod_eq_of_lt small]

theorem append_eq_ok {image next : Image} {bytes : List UInt8} :
    image.append bytes = .ok next ↔
      (bytes = [] ∧ next = image) ∨
      (bytes ≠ [] ∧ image.address + UInt32.ofNat bytes.length ≤ 0x10000 ∧
        next = ⟨some image.origin, image.address + UInt32.ofNat bytes.length,
          image.bytes ++ bytes⟩) := by
  unfold append
  split
  · rename_i nothing
    simp [nothing, eq_comm]
  · rename_i something
    dsimp only
    split
    · rename_i beyond
      simp only [something, false_and, false_or, reduceCtorEq, false_iff]
      exact fun ⟨_, inside, _⟩ => UInt32.not_le.mpr beyond inside
    · rename_i inside
      simp only [something, false_and, false_or, Except.ok.injEq, ne_eq, not_false_iff,
        true_and, UInt32.not_lt.mp inside]
      exact eq_comm

/-- Bytes for which there is room are put at the end of an image. -/
theorem append_of_inside {image : Image} {bytes : List UInt8} (nonempty : bytes ≠ [])
    (inside : image.address.toNat + bytes.length ≤ 65536) :
    image.append bytes =
      .ok ⟨some image.origin, image.address + UInt32.ofNat bytes.length,
        image.bytes ++ bytes⟩ := by
  refine append_eq_ok.mpr (Or.inr ⟨nonempty, ?_, rfl⟩)
  rw [UInt32.le_iff_toNat_le, toNat_address_add (by omega)]
  exact inside

theorem moveTo_eq_ok {image next : Image} {target : UInt16} :
    image.moveTo target = .ok next ↔
      (image.origin? = none ∧
        next = { image with origin? := some target, address := target.toUInt32 }) ∨
      ∃ origin, image.origin? = some origin ∧ image.address ≤ target.toUInt32 ∧
        next = { image with
          address := target.toUInt32
          bytes := resize image.bytes (target.toUInt32 - origin.toUInt32).toNat } := by
  unfold moveTo
  split
  · rename_i unsettled
    simp [unsettled, eq_comm]
  · rename_i origin settled
    simp only [settled, reduceCtorEq, false_and, false_or, Option.some.injEq,
      exists_eq_left']
    split
    · rename_i backwards
      simp only [reduceCtorEq, false_iff]
      exact fun ⟨onwards, _⟩ => UInt32.not_le.mpr backwards onwards
    · rename_i onwards
      simp only [Except.ok.injEq, UInt32.not_lt.mp onwards, true_and]
      exact eq_comm

end Image

namespace Progress

@[simp] theorem locate_ok {α : Type} (number : Nat) (address : UInt16) (value : α) :
    locate number address (.ok value) = .ok value :=
  rfl

@[simp] theorem locate_error {α : Type} (number : Nat) (address : UInt16)
    (problem : Problem) :
    locate number address (.error problem : Except Problem α) =
      .error ⟨number, address, problem⟩ :=
  rfl

theorem locate_eq_ok {α : Type} {number : Nat} {address : UInt16}
    {result : Except Problem α} {value : α} :
    locate number address result = .ok value ↔ result = .ok value := by
  cases result <;> simp

theorem moveOrigin_eq_ok {progress next : Progress} {statement : Statement} :
    progress.moveOrigin statement = .ok next ↔
      ∃ operand target image,
        statement.operands = [operand] ∧
        (Scope.mk .emit progress.labels progress.image.here).word operand = .ok target ∧
        progress.image.moveTo target = .ok image ∧
        next = { progress with image := image } := by
  unfold moveOrigin
  split
  · rename_i operand operands
    simp only [operands, bind_eq_ok]
    constructor
    · rintro ⟨target, targetEq, image, moved, last⟩
      exact ⟨operand, target, image, rfl, targetEq, moved, (Except.ok.inj last).symm⟩
    · rintro ⟨other, target, image, same, targetEq, moved, rfl⟩
      obtain rfl : operand = other := by simpa using same
      exact ⟨target, targetEq, image, moved, rfl⟩
  · rename_i several
    constructor
    · simp
    · rintro ⟨operand, _, _, single, _⟩
      exact absurd single (several operand)

theorem arrive_of_origin {line : Line} {statement : Statement}
    (written : line.statement = some statement) (origin : statement.directive = .origin)
    (progress : Progress) : progress.arrive line = progress.moveOrigin statement := by
  simp [arrive, written, origin]

/-- A line without `ORG` is processed where the line before it ends. -/
theorem arrive_of_not_origin {line : Line}
    (others : ∀ statement, line.statement = some statement →
      statement.directive ≠ .origin)
    (progress : Progress) : progress.arrive line = .ok progress := by
  unfold arrive
  split
  · rename_i statement written
    exact if_neg (others statement written)
  · rfl

theorem labels_of_arrive {progress next : Progress} {line : Line}
    (arrived : progress.arrive line = .ok next) : next.labels = progress.labels := by
  unfold arrive at arrived
  split at arrived
  · split at arrived
    · obtain ⟨_, _, _, _, _, _, rfl⟩ := moveOrigin_eq_ok.mp arrived
      rfl
    · rw [Except.ok.inj arrived]
  · rw [Except.ok.inj arrived]

@[simp] theorem define_emit (progress : Progress) (label : Option Text) :
    progress.define .emit label = .ok progress := by
  cases label <;> rfl

@[simp] theorem define_none (progress : Progress) (pass : Pass) :
    progress.define pass none = .ok progress := by
  cases pass <;> rfl

theorem define_layout_eq_ok {progress next : Progress} {label : Option Text} :
    progress.define .layout label = .ok next ↔
      (label = none ∧ next = progress) ∨
      ∃ name, label = some name ∧ progress.labels.lookup name = none ∧
        next = { progress with
          labels := (name, progress.image.here) :: progress.labels } := by
  cases label with
  | none =>
      constructor
      · intro defined
        exact Or.inl ⟨rfl, (Except.ok.inj defined).symm⟩
      · rintro (⟨_, rfl⟩ | ⟨_, labelled, _⟩)
        · rfl
        · simp at labelled
  | some name =>
      cases known : progress.labels.lookup name with
      | none =>
          have defines : progress.define .layout (some name) = .ok { progress with
              labels := (name, progress.image.here) :: progress.labels } := by
            simp only [define, known, Option.isSome_none, Bool.false_eq_true, if_false]
          rw [defines]
          constructor
          · intro defined
            exact Or.inr ⟨name, rfl, known, (Except.ok.inj defined).symm⟩
          · rintro (⟨labelled, _⟩ | ⟨other, labelled, _, rfl⟩)
            · simp at labelled
            · rw [Option.some.inj labelled]
      | some address =>
          constructor
          · intro defined
            simp [define, known] at defined
          · rintro (⟨labelled, _⟩ | ⟨other, labelled, fresh, _⟩)
            · simp at labelled
            · rw [← Option.some.inj labelled, known] at fresh
              simp at fresh

theorem image_of_define {progress next : Progress} {pass : Pass} {label : Option Text}
    (defined : progress.define pass label = .ok next) : next.image = progress.image := by
  cases pass with
  | emit => rw [← Except.ok.inj ((define_emit progress label).symm.trans defined)]
  | layout =>
      obtain ⟨_, rfl⟩ | ⟨_, _, _, rfl⟩ := define_layout_eq_ok.mp defined <;> rfl

theorem place_eq_ok {progress next : Progress} {pass : Pass} {here : UInt16}
    {line : Line} :
    progress.place pass here line = .ok next ↔
      (line.statement = none ∧ next = progress) ∨
      ∃ statement bytes image,
        line.statement = some statement ∧
        (Scope.mk pass progress.labels here).statement statement = .ok bytes ∧
        progress.image.append bytes = .ok image ∧
        next = { progress with image := image } := by
  unfold place
  split
  · rename_i blank
    simp [blank, eq_comm]
  · rename_i statement written
    simp only [written, bind_eq_ok]
    constructor
    · rintro ⟨bytes, bytesEq, image, appended, last⟩
      exact Or.inr ⟨statement, bytes, image, rfl, bytesEq, appended,
        (Except.ok.inj last).symm⟩
    · rintro (⟨blank, _⟩ | ⟨other, bytes, image, same, bytesEq, appended, rfl⟩)
      · simp at blank
      · obtain rfl := Option.some.inj same
        exact ⟨bytes, bytesEq, image, appended, rfl⟩

theorem labels_of_place {progress next : Progress} {pass : Pass} {here : UInt16}
    {line : Line} (placed : progress.place pass here line = .ok next) :
    next.labels = progress.labels := by
  obtain ⟨_, rfl⟩ | ⟨_, _, _, _, _, _, rfl⟩ := place_eq_ok.mp placed <;> rfl

theorem advance_eq_ok {progress next : Progress} {pass : Pass} {number : Nat}
    {line : Line} :
    progress.advance pass number line = .ok next ↔
      ∃ arrived defined,
        progress.arrive line = .ok arrived ∧
        arrived.define pass line.label = .ok defined ∧
        defined.place pass progress.image.here line = .ok next := by
  simp only [advance, bind_eq_ok, locate_eq_ok]
  constructor
  · rintro ⟨arrived, arrivedEq, defined, definedEq, placed⟩
    exact ⟨arrived, defined, arrivedEq, definedEq, placed⟩
  · rintro ⟨arrived, defined, arrivedEq, definedEq, placed⟩
    exact ⟨arrived, arrivedEq, defined, definedEq, placed⟩

theorem walk_cons_eq_ok {progress last : Progress} {pass : Pass} {number : Nat}
    {line : Line} {rest : List (Nat × Line)} :
    walk pass progress ((number, line) :: rest) = .ok last ↔
      ∃ next, progress.advance pass number line = .ok next ∧
        walk pass next rest = .ok last := by
  simp only [walk, bind_eq_ok]

theorem walk_append_eq_ok {progress last : Progress} {pass : Pass}
    {front back : List (Nat × Line)} :
    walk pass progress (front ++ back) = .ok last ↔
      ∃ middle, walk pass progress front = .ok middle ∧
        walk pass middle back = .ok last := by
  induction front generalizing progress with
  | nil => simp [walk]
  | cons first front ih =>
      obtain ⟨number, line⟩ := first
      simp only [List.cons_append, walk_cons_eq_ok, ih]
      constructor
      · rintro ⟨next, advanced, middle, walked, finished⟩
        exact ⟨middle, ⟨next, advanced, walked⟩, finished⟩
      · rintro ⟨middle, ⟨next, advanced, walked⟩, finished⟩
        exact ⟨next, advanced, middle, walked, finished⟩

/-- A reading that fails stops at a line, which it reaches. -/
theorem exists_of_walk_eq_error {progress : Progress} {pass : Pass}
    {lines : List (Nat × Line)} {error : AssemblyError}
    (failed : walk pass progress lines = .error error) :
    ∃ front number line back reached,
      lines = front ++ (number, line) :: back ∧
      walk pass progress front = .ok reached ∧
      reached.advance pass number line = .error error := by
  induction lines generalizing progress with
  | nil => simp [walk] at failed
  | cons first rest ih =>
      obtain ⟨number, line⟩ := first
      cases advanced : progress.advance pass number line with
      | error problem =>
          simp only [walk, advanced] at failed
          obtain rfl := Except.error.inj failed
          exact ⟨[], number, line, rest, progress, rfl, rfl, advanced⟩
      | ok next =>
          simp only [walk, advanced] at failed
          obtain ⟨front, other, stopped, back, reached, rfl, walked, stops⟩ := ih failed
          exact ⟨(number, line) :: front, other, stopped, back, reached, rfl,
            walk_cons_eq_ok.mpr ⟨next, advanced, walked⟩, stops⟩

end Progress

/-- Lines are numbered one after another. -/
theorem Assembly.number_of_readLines {start number : Nat} {texts : List Text} {line : Line}
    {front back : List (Nat × Line)}
    (read : readLines start texts = .ok (front ++ (number, line) :: back)) :
    number = start + front.length := by
  induction texts generalizing start front with
  | nil => simp [readLines] at read
  | cons text texts ih =>
      simp only [readLines, bind_eq_ok] at read
      obtain ⟨first, _, rest, restRead, joined⟩ := read
      have linesEq := Except.ok.inj joined
      cases front with
      | nil =>
          obtain ⟨numbered, _⟩ := List.cons.inj linesEq
          exact (Prod.mk.inj numbered).1.symm
      | cons other front =>
          obtain ⟨_, rfl⟩ := List.cons.inj linesEq
          rw [ih restRead, List.length_cons]
          omega

/-- A source assembles if its lines can be read and both readings succeed. -/
theorem assemble_eq_ok {source : String} {assembly : Assembly} :
    assemble source = .ok assembly ↔
      ∃ lines laidOut emitted,
        Assembly.readLines 1 (Line.split source.toList) = .ok lines ∧
        Progress.walk .layout {} lines = .ok laidOut ∧
        Progress.walk .emit { labels := laidOut.labels } lines = .ok emitted ∧
        assembly = ⟨emitted.image.origin, emitted.image.bytes.toList, laidOut.labels⟩ := by
  simp only [assemble, Assembly.ofText, Assembly.ofLines, bind_eq_ok]
  constructor
  · rintro ⟨lines, read, laidOut, laid, emitted, walked, last⟩
    exact ⟨lines, laidOut, emitted, read, laid, walked, (Except.ok.inj last).symm⟩
  · rintro ⟨lines, laidOut, emitted, read, laid, walked, rfl⟩
    exact ⟨lines, read, laidOut, laid, emitted, walked, rfl⟩

end Z80
