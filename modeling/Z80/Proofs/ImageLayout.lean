import Mathlib.Data.List.Basic
import Z80.Proofs.PlacedBytes

/-!
# The layout of an image

The lines of an assembled source go to consecutive stretches of memory.  This
file names the stretch of each line and shows that the image is made up of them:
every line's bytes stand where the line is, no two lines overlap, and what lies
between them are the gaps that `ORG` skips, filled with zeros.
-/

namespace Z80

/-- Where a line of a source went. -/
structure Placement where
  number : Nat
  line : Line
  /-- Where the line before ends. -/
  start : Nat
  /-- Where the bytes of the line begin, past the gap that an `ORG` leaves. -/
  address : Nat
  bytes : List UInt8

namespace Placement

def source (placement : Placement) : Nat × Line :=
  (placement.number, placement.line)

/-- Where the bytes of the line end. -/
def finish (placement : Placement) : Nat :=
  placement.address + placement.bytes.length

def isOrigin (placement : Placement) : Bool :=
  placement.line.statement.any fun statement => statement.directive = .origin

theorem isOrigin_eq_false {placement : Placement} :
    placement.isOrigin = false ↔
      ∀ statement, placement.line.statement = some statement →
        statement.directive ≠ .origin := by
  unfold isOrigin
  cases placement.line.statement <;> simp

/-- Whether the line settles the origin of an image if none before it does. -/
def settles (placement : Placement) : Bool :=
  placement.isOrigin || !placement.bytes.isEmpty

/-- The origin that the line settles: the target of an `ORG`, and otherwise zero. -/
def origin (placement : Placement) : Nat :=
  if placement.isOrigin then placement.address else 0

/-- The line went where it has to: an `ORG` to its target, another line where the
line before ends, in either case with the bytes of its statement. -/
structure Laid (labels : Labels) (placement : Placement) : Prop where
  target : ∀ statement, placement.line.statement = some statement →
    statement.directive = .origin →
      ∃ operand target, statement.operands = [operand] ∧
        (Scope.mk .emit labels (UInt16.ofNat placement.start)).word operand = .ok target ∧
        placement.address = target.toNat
  stays : placement.isOrigin = false → placement.address = placement.start
  blank : placement.line.statement = none → placement.bytes = []
  encoded : ∀ statement, placement.line.statement = some statement →
    (Scope.mk .emit labels (UInt16.ofNat placement.start)).statement statement =
      .ok placement.bytes

end Placement

/-- Lines that go to consecutive stretches from address zero to an end. -/
inductive Chained : List Placement → Nat → Prop
  | nil : Chained [] 0
  | snoc {placements : List Placement} {last : Placement} :
      Chained placements last.start → last.start ≤ last.address →
        Chained (placements ++ [last]) last.finish

namespace Chained

variable {placements : List Placement} {finish : Nat}

theorem finish_le (chained : Chained placements finish) :
    ∀ placement ∈ placements, placement.finish ≤ finish := by
  induction chained with
  | nil => simp
  | snoc former onwards ih =>
      rename_i placements last
      intro placement member
      rcases List.mem_append.mp member with earlier | final
      · have before := ih placement earlier
        unfold Placement.finish at before ⊢
        omega
      · exact Nat.le_of_eq (congrArg Placement.finish (List.mem_singleton.mp final))

/-- No line begins before an earlier one ends. -/
theorem pairwise (chained : Chained placements finish) :
    placements.Pairwise fun former latter => former.finish ≤ latter.address := by
  induction chained with
  | nil => exact List.Pairwise.nil
  | snoc former onwards ih =>
      rename_i placements last
      refine List.pairwise_append.mpr ⟨ih, List.pairwise_singleton _ _, ?_⟩
      intro placement earlier other final
      rw [List.mem_singleton.mp final]
      exact Nat.le_trans (former.finish_le placement earlier) onwards

end Chained

namespace Image

theorem Sound.length_toList {image : Image} (sound : image.Sound) :
    image.origin.toNat + image.bytes.toList.length = image.address.toNat := by
  rw [Array.length_toList, sound.extent]

/-- The image has bytes for an address on. -/
def Stores (image : Image) (address : Nat) (bytes : List UInt8) : Prop :=
  image.origin.toNat ≤ address ∧
    (image.bytes.toList.drop (address - image.origin.toNat)).take bytes.length = bytes

theorem Continues.origin_eq {image later : Image} (continues : image.Continues later)
    (settled : image.origin?.isSome) : later.origin = image.origin := by
  obtain ⟨origin, originEq⟩ := Option.isSome_iff_exists.mp settled
  rw [Image.origin, Image.origin, originEq, continues.origin origin originEq]

theorem Stores.of_continues {image later : Image} {address : Nat} {bytes : List UInt8}
    (stores : image.Stores address bytes) (sound : image.Sound)
    (continues : image.Continues later) (settled : image.origin?.isSome)
    (inside : address + bytes.length ≤ image.address.toNat) : later.Stores address bytes := by
  obtain ⟨behind, stored⟩ := stores
  obtain ⟨rest, bytesEq⟩ := continues.bytes
  have sizeEq : image.bytes.toList.length = image.bytes.size := Array.length_toList
  have extent := sound.extent
  refine ⟨by rwa [continues.origin_eq settled], ?_⟩
  rw [continues.origin_eq settled, ← bytesEq, List.drop_append_of_le_length (by omega),
    List.take_append_of_le_length (by rw [List.length_drop]; omega)]
  exact stored

end Image

/-- What an image is made up of: the lines that went into it. -/
structure Describes (labels : Labels) (placements : List Placement) (image : Image) :
    Prop where
  sound : image.Sound
  chained : Chained placements image.address.toNat
  laid : ∀ placement ∈ placements, placement.Laid labels
  origin : image.origin?.map UInt16.toNat =
    (placements.find? Placement.settles).map Placement.origin
  stored : ∀ placement ∈ placements, placement.bytes ≠ [] →
    image.Stores placement.address placement.bytes
  covered : ∀ index < image.bytes.size,
    let position := image.origin.toNat + index
    (∃ placement ∈ placements,
      placement.address ≤ position ∧ position < placement.finish) ∨
    (image.bytes.toList[index]? = some 0 ∧ ∃ placement ∈ placements,
      placement.isOrigin ∧ placement.start ≤ position ∧ position < placement.address)

namespace Describes

variable {labels : Labels} {placements : List Placement} {image next : Image}
  {last : Placement}

theorem empty (labels : Labels) : Describes labels [] {} where
  sound := Image.sound_empty
  chained := Chained.nil
  laid := by simp
  origin := rfl
  stored := by simp
  covered := by simp

theorem settled_of_mem (describes : Describes labels placements image)
    {placement : Placement} (member : placement ∈ placements)
    (filled : placement.bytes ≠ []) : image.origin?.isSome := by
  have found : (placements.find? Placement.settles).isSome := by
    rw [List.find?_isSome]
    exact ⟨placement, member, by simp [Placement.settles, filled]⟩
  rw [← Option.isSome_map (f := UInt16.toNat), describes.origin, Option.isSome_map]
  exact found

theorem settled_of_lt (describes : Describes labels placements image) {index : Nat}
    (inside : index < image.bytes.size) : image.origin?.isSome := by
  cases unsettled : image.origin? with
  | some origin => rfl
  | none =>
      have nothing := describes.sound.size_eq_zero unsettled
      omega

/-- What is known of the earlier lines stays true while the image grows. -/
theorem snoc (describes : Describes labels placements image)
    (continues : image.Continues next) (start : last.start = image.address.toNat)
    (onwards : last.start ≤ last.address) (finish : last.finish = next.address.toNat)
    (laid : last.Laid labels)
    (origin : next.origin?.map UInt16.toNat =
      ((placements.find? Placement.settles).or ([last].find? Placement.settles)).map
        Placement.origin)
    (stored : last.bytes ≠ [] → next.Stores last.address last.bytes)
    (covered : ∀ index < next.bytes.size, image.bytes.size ≤ index →
      let position := next.origin.toNat + index
      (last.address ≤ position ∧ position < last.finish) ∨
      (next.bytes.toList[index]? = some 0 ∧
        last.isOrigin ∧ last.start ≤ position ∧ position < last.address)) :
    Describes labels (placements ++ [last]) next where
  sound := continues.sound
  chained := by
    rw [← finish]
    exact Chained.snoc (start ▸ describes.chained) onwards
  laid := by
    intro placement member
    rcases List.mem_append.mp member with earlier | final
    · exact describes.laid placement earlier
    · exact List.mem_singleton.mp final ▸ laid
  origin := by rw [List.find?_append, origin]
  stored := by
    intro placement member filled
    rcases List.mem_append.mp member with earlier | final
    · exact (describes.stored placement earlier filled).of_continues describes.sound continues
        (describes.settled_of_mem earlier filled)
        (describes.chained.finish_le placement earlier)
    · obtain rfl := List.mem_singleton.mp final
      exact stored filled
  covered := by
    -- the image only grows at its end, so a position is an old one or one of the last line
    intro index inside
    by_cases former : index < image.bytes.size
    · have settled := describes.settled_of_lt former
      rw [continues.origin_eq settled]
      obtain ⟨rest, bytesEq⟩ := continues.bytes
      have kept : next.bytes.toList[index]? = image.bytes.toList[index]? := by
        rw [← bytesEq, List.getElem?_append_left (by rwa [Array.length_toList])]
      rw [kept]
      rcases describes.covered index former with
        ⟨placement, member, within⟩ | ⟨zero, placement, member, gap⟩
      · exact Or.inl ⟨placement, List.mem_append_left _ member, within⟩
      · exact Or.inr ⟨zero, placement, List.mem_append_left _ member, gap⟩
    · rcases covered index inside (Nat.le_of_not_lt former) with within | ⟨zero, gap⟩
      · exact Or.inl ⟨last, List.mem_append_right _ (List.mem_singleton_self last), within⟩
      · exact Or.inr ⟨zero, last, List.mem_append_right _ (List.mem_singleton_self last), gap⟩

theorem find?_eq_none (describes : Describes labels placements image)
    (unsettled : image.origin? = none) : placements.find? Placement.settles = none := by
  have nothing := describes.origin
  rw [unsettled, Option.map_none] at nothing
  exact Option.map_eq_none_iff.mp nothing.symm

theorem origin_or (describes : Describes labels placements image)
    (settled : image.origin?.isSome) (other : Option Placement) :
    image.origin?.map UInt16.toNat =
      ((placements.find? Placement.settles).or other).map Placement.origin := by
  rw [describes.origin]
  cases found : placements.find? Placement.settles with
  | some placement => rfl
  | none =>
      have nothing := describes.origin
      rw [found, Option.map_none, Option.map_eq_none_iff] at nothing
      simp [nothing] at settled

theorem moveTo (describes : Describes labels placements image) {target : UInt16}
    (moved : image.moveTo target = .ok next) (start : last.start = image.address.toNat)
    (address : last.address = target.toNat) (bytes : last.bytes = [])
    (isOrigin : last.isOrigin = true) (laid : last.Laid labels) :
    Describes labels (placements ++ [last]) next := by
  have continues := Image.Continues.of_moveTo describes.sound moved
  have finish : last.finish = target.toNat := by
    rw [Placement.finish, address, bytes, List.length_nil, Nat.add_zero]
  have unfilled : last.bytes ≠ [] → next.Stores last.address last.bytes :=
    fun filled => absurd bytes filled
  rcases describes.sound.moveTo_cases moved with
    ⟨unsettled, nothing, rfl⟩ | ⟨origin, settled, onwards, rfl⟩
  · -- the first `ORG` settles the origin: its gap lies before the image
    have before : image.address.toNat = 0 := by
      rw [describes.sound.unsettled unsettled, UInt32.toNat_zero]
    have found : [last].find? Placement.settles = some last := by
      simp [Placement.settles, isOrigin]
    refine describes.snoc continues start (by omega) ?_ laid ?_ unfilled ?_
    · rw [finish, UInt16.toNat_toUInt32]
    · rw [describes.find?_eq_none unsettled, found, Option.none_or, Option.map_some,
        Option.map_some, Placement.origin, if_pos isOrigin, address]
    · intro index inside
      rw [nothing] at inside
      omega
  · -- a later one fills its gap with zeros
    have extent := describes.sound.extent
    have isSettled : image.origin?.isSome := by simp [settled]
    refine describes.snoc continues start (by omega) ?_ laid ?_ unfilled ?_
    · rw [finish, UInt16.toNat_toUInt32]
    · rw [← describes.origin_or isSettled, settled]
    · intro index inside former
      rw [Array.size_append, Array.size_replicate] at inside
      refine Or.inr ⟨?_, isOrigin, ?_⟩
      · rw [Array.toList_append, List.getElem?_append_right (by simpa using former),
          Array.toList_replicate, List.getElem?_replicate_of_lt]
        rw [Array.length_toList]
        omega
      · simp only [Image.origin, settled, Option.getD_some] at start extent ⊢
        omega

theorem append (describes : Describes labels placements image)
    (short : last.bytes.length < Image.limit) (appended : image.append last.bytes = .ok next)
    (start : last.start = image.address.toNat) (address : last.address = last.start)
    (others : last.isOrigin = false) (laid : last.Laid labels) :
    Describes labels (placements ++ [last]) next := by
  have continues := Image.Continues.of_append describes.sound short appended
  have extent := describes.sound.extent
  rcases describes.sound.append_cases short appended with
    ⟨nothing, rfl⟩ | ⟨filled, inside, rfl⟩
  · -- a line without bytes does not even settle the origin
    refine describes.snoc continues start (by omega) ?_ laid ?_ ?_ ?_
    · simp [Placement.finish, nothing, address, start]
    · simp [Placement.settles, others, nothing, describes.origin]
    · exact fun filled => absurd nothing filled
    · omega
  · have begins : last.address = image.origin.toNat + image.bytes.size := by
      rw [address, start, extent]
    refine describes.snoc continues start (by omega) ?_ laid ?_ ?_ ?_
    · rw [Placement.finish, begins, extent, Image.toNat_address_add (by omega)]
    · cases settled : image.origin? with
      | some origin =>
          rw [← describes.origin_or (by simp [settled]), settled, Image.origin, settled]
          rfl
      | none =>
          have found : [last].find? Placement.settles = some last := by
            simp [Placement.settles, filled]
          rw [describes.find?_eq_none settled, found, Option.none_or, Option.map_some,
            Option.map_some, Placement.origin, others, Image.origin, settled]
          rfl
    · intro _
      refine ⟨begins ▸ Nat.le_add_right _ _, ?_⟩
      have offset : last.address - image.origin.toNat = image.bytes.toList.length := by
        rw [begins, Nat.add_sub_cancel_left, Array.length_toList]
      change ((image.bytes ++ last.bytes).toList.drop
        (last.address - image.origin.toNat)).take last.bytes.length = last.bytes
      rw [offset, Array.toList_appendList, List.drop_left, List.take_length]
    · intro index inside former
      rw [Image.size_bytes_append] at inside
      refine Or.inl ⟨?_, ?_⟩
      · change last.address ≤ image.origin.toNat + index
        omega
      · change image.origin.toNat + index < last.finish
        rw [Placement.finish]
        omega

end Describes

namespace Progress

/-- What the second reading does on a line: an `ORG` moves the image, and any other
line puts the bytes of its statement at the next address. -/
theorem advance_emit_cases {progress next : Progress} {number : Nat} {line : Line}
    (advanced : progress.advance .emit number line = .ok next) :
    (∃ statement operand target,
      line.statement = some statement ∧ statement.directive = .origin ∧
      statement.operands = [operand] ∧
      (Scope.mk .emit progress.labels progress.image.here).word operand = .ok target ∧
      progress.image.moveTo target = .ok next.image) ∨
    ((∀ statement, line.statement = some statement → statement.directive ≠ .origin) ∧
      ∃ bytes, (line.statement = none → bytes = []) ∧
        (∀ statement, line.statement = some statement →
          (Scope.mk .emit progress.labels progress.image.here).statement statement =
            .ok bytes) ∧
        progress.image.append bytes = .ok next.image) := by
  obtain ⟨arrived, defined, arrivedEq, definedEq, placed⟩ := advance_eq_ok.mp advanced
  obtain rfl := Except.ok.inj ((define_emit arrived _).symm.trans definedEq)
  have labels := labels_of_arrive arrivedEq
  cases written : line.statement with
  | none =>
      have stays : progress.arrive line = .ok progress :=
        arrive_of_not_origin (by simp [written]) progress
      obtain rfl := Except.ok.inj (stays.symm.trans arrivedEq)
      obtain ⟨_, rfl⟩ | ⟨_, _, _, same, _⟩ := place_eq_ok.mp placed
      · exact Or.inr ⟨by simp, [], fun _ => rfl, by simp, rfl⟩
      · simp [written] at same
  | some statement =>
      obtain ⟨blank, _⟩ | ⟨other, bytes, image, same, bytesEq, appended, rfl⟩ :=
        place_eq_ok.mp placed
      · simp [written] at blank
      · obtain rfl := Option.some.inj (written.symm.trans same)
        rw [labels] at bytesEq
        by_cases origin : statement.directive = .origin
        · rw [arrive_of_origin written origin] at arrivedEq
          obtain ⟨operand, target, moved, single, targetEq, movedEq, rfl⟩ :=
            moveOrigin_eq_ok.mp arrivedEq
          have nothing : bytes = [] := by
            simp only [Scope.statement, origin, Except.ok.injEq] at bytesEq
            exact bytesEq.symm
          rw [nothing] at appended
          obtain rfl := Except.ok.inj appended
          exact Or.inl ⟨statement, operand, target, rfl, origin, single, targetEq, movedEq⟩
        · have stays := arrive_of_not_origin
            (fun _ same => Option.some.inj (written.symm.trans same) ▸ origin) progress
          obtain rfl := Except.ok.inj (stays.symm.trans arrivedEq)
          refine Or.inr ⟨?_, bytes, by simp, ?_, appended⟩
          · rintro _ ⟨⟩
            exact origin
          · rintro _ ⟨⟩
            exact bytesEq

end Progress

namespace Describes

variable {labels : Labels} {placements : List Placement} {progress : Progress}

/-- The second reading places one more line. -/
theorem advance {next : Progress} {number : Nat} {line : Line} (short : line.IsShort)
    (describes : Describes labels placements progress.image) (known : progress.labels = labels)
    (advanced : progress.advance .emit number line = .ok next) :
    ∃ last : Placement, last.source = (number, line) ∧
      Describes labels (placements ++ [last]) next.image := by
  subst known
  rcases Progress.advance_emit_cases advanced with
    ⟨statement, operand, target, written, origin, single, targetEq, moved⟩ |
    ⟨others, bytes, blank, encoded, appended⟩
  · let last : Placement := ⟨number, line, progress.image.address.toNat, target.toNat, []⟩
    have isOrigin : last.isOrigin = true := by simp [last, Placement.isOrigin, written, origin]
    refine ⟨last, rfl, describes.moveTo moved rfl rfl rfl isOrigin ?_⟩
    refine ⟨?_, ?_, fun _ => rfl, ?_⟩
    · intro other same _
      obtain rfl := Option.some.inj (written.symm.trans same)
      exact ⟨operand, target, single, targetEq, rfl⟩
    · simp [isOrigin]
    · intro other same
      obtain rfl := Option.some.inj (written.symm.trans same)
      simp [Scope.statement, origin, last]
  · let last : Placement :=
      ⟨number, line, progress.image.address.toNat, progress.image.address.toNat, bytes⟩
    have notOrigin : last.isOrigin = false := Placement.isOrigin_eq_false.mpr others
    have few : bytes.length < Image.limit := by
      cases written : line.statement with
      | none =>
          rw [blank written]
          decide
      | some statement => exact short statement written _ bytes (encoded statement written)
    refine ⟨last, rfl, describes.append few appended rfl rfl notOrigin ?_⟩
    refine ⟨?_, fun _ => rfl, blank, encoded⟩
    intro statement written origin
    exact absurd origin (others statement written)

/-- The second reading places all lines. -/
theorem walk {last : Progress} {lines : List (Nat × Line)}
    (short : ∀ line ∈ lines, line.2.IsShort)
    (describes : Describes labels placements progress.image) (known : progress.labels = labels)
    (walked : Progress.walk .emit progress lines = .ok last) :
    ∃ added : List Placement, added.map Placement.source = lines ∧
      Describes labels (placements ++ added) last.image := by
  induction lines generalizing progress placements with
  | nil =>
      obtain rfl := Except.ok.inj walked
      exact ⟨[], rfl, by rwa [List.append_nil]⟩
  | cons first rest ih =>
      obtain ⟨firstShort, restShort⟩ := List.forall_mem_cons.mp short
      obtain ⟨next, advanced, finished⟩ := Progress.walk_cons_eq_ok.mp walked
      obtain ⟨placement, sourceEq, nextDescribes⟩ := advance firstShort describes known advanced
      have walkedOne : Progress.walk .emit progress [first] = .ok next :=
        Progress.walk_cons_eq_ok.mpr ⟨next, advanced, rfl⟩
      have nextKnown := (Progress.labels_of_walk_emit walkedOne).trans known
      obtain ⟨added, sources, finalDescribes⟩ := ih restShort nextDescribes nextKnown finished
      refine ⟨placement :: added, ?_, ?_⟩
      · rw [List.map_cons, sourceEq, sources]
      · rwa [List.append_assoc] at finalDescribes

end Describes

/-- How an assembled program lies in memory, line by line. -/
structure Layout (assembly : Assembly) (placements : List Placement) : Prop where
  /-- The lines go to consecutive stretches of memory, up to the end of the image. -/
  chained : Chained placements (assembly.origin.toNat + assembly.bytes.length)
  laid : ∀ placement ∈ placements, placement.Laid assembly.labels
  /-- The first `ORG` settles the origin unless bytes come before it. -/
  origin : assembly.origin.toNat =
    ((placements.find? Placement.settles).map Placement.origin).getD 0
  inside : assembly.origin.toNat + assembly.bytes.length ≤ 65536
  /-- The addresses of lines do not decrease, and no line reaches into a later one. -/
  ordered : placements.Pairwise fun former latter => former.finish ≤ latter.address
  /-- The bytes of a line stand in the image at the distance of the line from the origin. -/
  stored : ∀ placement ∈ placements, placement.bytes ≠ [] →
    assembly.origin.toNat ≤ placement.address ∧
      (assembly.bytes.drop (placement.address - assembly.origin.toNat)).take
        placement.bytes.length = placement.bytes
  /-- Every byte of the image is a byte of a line or a zero in the gap of an `ORG`. -/
  covered : ∀ index < assembly.bytes.length,
    let position := assembly.origin.toNat + index
    (∃ placement ∈ placements,
      placement.address ≤ position ∧ position < placement.finish) ∨
    (assembly.bytes[index]? = some 0 ∧ ∃ placement ∈ placements,
      placement.isOrigin ∧ placement.start ≤ position ∧ position < placement.address)
  /-- Loading the image puts the bytes of each line at the address of the line. -/
  loaded : ∀ memory : Memory, ∀ placement ∈ placements,
    (memory.load assembly.origin assembly.bytes).slice (UInt16.ofNat placement.address)
      placement.bytes.length = placement.bytes
  /-- Loading the image leaves the cells before and behind it alone. -/
  others : ∀ (memory : Memory) (address : UInt16),
    address.toNat < assembly.origin.toNat ∨
      assembly.origin.toNat + assembly.bytes.length ≤ address.toNat →
    (memory.load assembly.origin assembly.bytes).read address = memory.read address

/-- The image that the second reading ends with is laid out by lines. -/
theorem Describes.layout {labels : Labels} {placements : List Placement} {image : Image}
    (describes : Describes labels placements image) :
    Layout ⟨image.origin, image.bytes.toList, labels⟩ placements where
  chained := by
    rw [describes.sound.length_toList]
    exact describes.chained
  laid := describes.laid
  origin := by
    rw [← describes.origin, Image.origin]
    cases image.origin? <;> rfl
  inside := by
    rw [describes.sound.length_toList]
    exact describes.sound.inside
  ordered := describes.chained.pairwise
  stored := describes.stored
  covered := describes.covered
  loaded := by
    intro memory placement member
    by_cases filled : placement.bytes = []
    · rw [filled]
      rfl
    · obtain ⟨behind, stored⟩ := describes.stored placement member filled
      have before := describes.chained.finish_le placement member
      have inside := describes.sound.inside
      have extent := describes.sound.length_toList
      unfold Placement.finish at before
      have address : UInt16.ofNat placement.address =
          image.origin + UInt16.ofNat (placement.address - image.origin.toNat) := by
        calc UInt16.ofNat placement.address
            = UInt16.ofNat
                (image.origin.toNat + (placement.address - image.origin.toNat)) := by
              rw [Nat.add_sub_cancel' behind]
          _ = _ := by rw [UInt16.ofNat_add, UInt16.ofNat_toNat]
      dsimp only
      rw [address, Memory.slice_load memory _ (by omega) (by omega)]
      exact stored
  others := by
    intro memory address outside
    apply Memory.read_load_of_forall_ne
    intro index indexLt equal
    have inside := describes.sound.inside
    have extent := describes.sound.length_toList
    have position := congrArg UInt16.toNat equal
    simp only [UInt16.toNat_add, UInt16.toNat_ofNat'] at position
    dsimp only at outside indexLt
    omega

namespace Progress

/-- A reading stops at the first line that it cannot process. -/
theorem walk_eq_error {pass : Pass} {progress before : Progress} {number : Nat} {line : Line}
    {front back : List (Nat × Line)} {error : AssemblyError}
    (reached : walk pass progress front = .ok before)
    (stops : before.advance pass number line = .error error) :
    walk pass progress (front ++ (number, line) :: back) = .error error := by
  induction front generalizing progress with
  | nil =>
      obtain rfl := Except.ok.inj reached
      rw [List.nil_append, walk, stops]
      rfl
  | cons first front ih =>
      obtain ⟨next, advanced, later⟩ := walk_cons_eq_ok.mp reached
      rw [List.cons_append, walk, advanced]
      exact ih later

/-- An `ORG` below the current address is refused. -/
theorem advance_backwards {pass : Pass} {progress : Progress} {number : Nat} {line : Line}
    {statement : Statement} {operand : Text} {target : UInt16}
    (sound : progress.image.Sound) (written : line.statement = some statement)
    (origin : statement.directive = .origin) (single : statement.operands = [operand])
    (targetEq :
      (Scope.mk .emit progress.labels progress.image.here).word operand = .ok target)
    (backwards : target.toNat < progress.image.address.toNat) :
    progress.advance pass number line =
      .error ⟨number, progress.image.here,
        .originBackwards target progress.image.address.toNat⟩ := by
  have refused : progress.image.moveTo target =
      .error (.originBackwards target progress.image.address.toNat) := by
    unfold Image.moveTo
    cases settled : progress.image.origin? with
    | some origin =>
        apply if_pos
        rwa [UInt32.lt_iff_toNat_lt, UInt16.toNat_toUInt32]
    | none =>
        rw [sound.unsettled settled, UInt32.toNat_zero] at backwards
        omega
  have arrives : progress.arrive line =
      .error (.originBackwards target progress.image.address.toNat) := by
    rw [arrive_of_origin written origin, moveOrigin, single]
    dsimp only
    rw [targetEq]
    change (progress.image.moveTo target >>= _) = _
    rw [refused]
    rfl
  rw [advance, arrives, locate_error]
  rfl

/-- Bytes past the last address are refused. -/
theorem advance_pastEnd {pass : Pass} {progress defined : Progress} {number : Nat}
    {line : Line} {statement : Statement} {bytes : List UInt8}
    (sound : progress.image.Sound) (short : bytes.length < Image.limit)
    (written : line.statement = some statement) (others : statement.directive ≠ .origin)
    (definedEq : progress.define pass line.label = .ok defined)
    (bytesEq :
      (Scope.mk pass defined.labels progress.image.here).statement statement = .ok bytes)
    (beyond : 65536 < progress.image.address.toNat + bytes.length) :
    progress.advance pass number line =
      .error ⟨number, progress.image.here, .pastEnd⟩ := by
  have inside := sound.inside
  have filled : bytes ≠ [] := by
    rintro rfl
    rw [List.length_nil] at beyond
    omega
  have past : 0x10000 < progress.image.address + UInt32.ofNat bytes.length := by
    rw [Image.limit] at short
    rw [UInt32.lt_iff_toNat_lt, Image.toNat_address_add (by omega)]
    exact beyond
  have refused : defined.image.append bytes = .error .pastEnd := by
    rw [image_of_define definedEq, Image.append, if_neg filled]
    exact if_pos past
  have stays := arrive_of_not_origin
    (fun _ same => Option.some.inj (written.symm.trans same) ▸ others) progress
  have placed : defined.place pass progress.image.here line = .error .pastEnd := by
    rw [place, written]
    dsimp only
    rw [bytesEq]
    change (defined.image.append bytes >>= _) = _
    rw [refused]
    rfl
  rw [advance, stays, locate_ok]
  change (locate number progress.image.here (progress.define pass line.label) >>= _) = _
  rw [definedEq, locate_ok]
  change locate number progress.image.here (defined.place pass progress.image.here line) = _
  rw [placed, locate_error]

end Progress

/-- Where the first reading of a source fails, so does assembling it. -/
theorem assemble_eq_error {source : String} {lines : List (Nat × Line)}
    {error : AssemblyError}
    (read : Assembly.readLines 1 (Line.split source.toList) = .ok lines)
    (failed : Progress.walk .layout {} lines = .error error) :
    assemble source = .error error := by
  rw [assemble, Assembly.ofText, read]
  change Assembly.ofLines lines = _
  rw [Assembly.ofLines, failed]
  rfl

end Z80
