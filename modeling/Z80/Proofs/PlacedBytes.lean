import Z80.Proofs.LineLength
import Z80.Proofs.MemoryBlocks

/-!
# Where the bytes of a line go

An image only grows, and its address stays the one behind its bytes as long as it does
not wrap around.  So the bytes of a line stand in the assembled program at the distance of
the line from the origin, and loading the program puts them at the address of the line.
-/

namespace Z80

namespace Image

/-- The address is the one behind the bytes and lies in the memory or just past it, and
there are no bytes before the origin is settled. -/
structure Sound (image : Image) : Prop where
  unsettled : image.origin? = none → image.address = 0
  extent : image.origin.toNat + image.bytes.size = image.address.toNat
  inside : image.address.toNat ≤ 65536

/-- A later image keeps the origin and the bytes of an earlier one. -/
structure Continues (image later : Image) : Prop where
  sound : later.Sound
  origin : ∀ origin, image.origin? = some origin → later.origin? = some origin
  bytes : image.bytes.toList <+: later.bytes.toList

theorem sound_empty : Sound {} :=
  ⟨fun _ => rfl, rfl, by decide⟩

@[simp] theorem resize_of_le {bytes : Array UInt8} {size : Nat} (larger : bytes.size ≤ size) :
    resize bytes size = bytes ++ Array.replicate (size - bytes.size) 0 := by
  rw [resize, Array.take_eq_extract, Array.extract_eq_self_of_le larger]

namespace Sound

variable {image next : Image}

theorem size_eq_zero (sound : image.Sound) (unsettled : image.origin? = none) :
    image.bytes.size = 0 := by
  have extent := sound.extent
  rw [sound.unsettled unsettled, UInt32.toNat_zero] at extent
  omega

/-- A sound image is moved by settling its origin, or it is filled up with as many zeros
as there are addresses to skip. -/
theorem moveTo_cases (sound : image.Sound) {target : UInt16}
    (moved : image.moveTo target = .ok next) :
    (image.origin? = none ∧ image.bytes.size = 0 ∧
        next = ⟨some target, target.toUInt32, image.bytes⟩) ∨
      ∃ origin, image.origin? = some origin ∧ image.address.toNat ≤ target.toNat ∧
        next = ⟨some origin, target.toUInt32,
          image.bytes ++ Array.replicate (target.toNat - image.address.toNat) 0⟩ := by
  rcases moveTo_eq_ok.mp moved with ⟨unsettled, rfl⟩ | ⟨origin, settled, onwards, rfl⟩
  · exact Or.inl ⟨unsettled, sound.size_eq_zero unsettled, rfl⟩
  · have extent := sound.extent
    rw [Image.origin, settled, Option.getD_some] at extent
    rw [UInt32.le_iff_toNat_le, UInt16.toNat_toUInt32] at onwards
    have skipped : (target.toUInt32 - origin.toUInt32).toNat = target.toNat - origin.toNat := by
      rw [UInt32.toNat_sub_of_le, UInt16.toNat_toUInt32, UInt16.toNat_toUInt32]
      rw [UInt32.le_iff_toNat_le, UInt16.toNat_toUInt32, UInt16.toNat_toUInt32]
      omega
    refine Or.inr ⟨origin, settled, onwards, ?_⟩
    rw [skipped, resize_of_le (by omega), settled, Nat.sub_sub, extent]

/-- A sound image takes bytes that leave it inside the memory. -/
theorem append_cases (sound : image.Sound) {bytes : List UInt8}
    (short : bytes.length < limit) (appended : image.append bytes = .ok next) :
    (bytes = [] ∧ next = image) ∨
      (bytes ≠ [] ∧ image.address.toNat + bytes.length ≤ 65536 ∧
        next = ⟨some image.origin, image.address + UInt32.ofNat bytes.length,
          image.bytes ++ bytes⟩) := by
  refine (append_eq_ok.mp appended).imp_right fun ⟨nonempty, within, nextEq⟩ =>
    ⟨nonempty, ?_, nextEq⟩
  have inside := sound.inside
  rw [limit] at short
  rw [UInt32.le_iff_toNat_le, toNat_address_add (by omega)] at within
  exact within

end Sound

namespace Continues

theorem refl {image : Image} (sound : image.Sound) : Continues image image :=
  ⟨sound, fun _ => id, List.prefix_refl _⟩

theorem trans {first second third : Image} (left : Continues first second)
    (right : Continues second third) : Continues first third :=
  ⟨right.sound, fun origin => right.origin origin ∘ left.origin origin,
    left.bytes.trans right.bytes⟩

theorem of_moveTo {image next : Image} (sound : image.Sound) {target : UInt16}
    (moved : image.moveTo target = .ok next) : Continues image next := by
  have targetLt := target.toNat_lt
  rcases sound.moveTo_cases moved with
    ⟨unsettled, nothing, rfl⟩ | ⟨origin, settled, onwards, rfl⟩
  · refine ⟨⟨by simp, ?_, ?_⟩, by simp [unsettled], List.prefix_refl _⟩
    · simp [Image.origin, nothing]
    · rw [UInt16.toNat_toUInt32]
      omega
  · have extent := sound.extent
    refine ⟨⟨by simp, ?_, ?_⟩, ?_, ?_⟩
    · simp only [Image.origin, settled, Option.getD_some, Array.size_append,
        Array.size_replicate, UInt16.toNat_toUInt32] at extent ⊢
      omega
    · rw [UInt16.toNat_toUInt32]
      omega
    · intro other originEq
      exact settled.symm.trans originEq
    · simp

theorem of_append {image next : Image} (sound : image.Sound) {bytes : List UInt8}
    (short : bytes.length < limit) (appended : image.append bytes = .ok next) :
    Continues image next := by
  rcases sound.append_cases short appended with ⟨_, rfl⟩ | ⟨_, inside, rfl⟩
  · exact refl sound
  · have addressEq : (image.address + UInt32.ofNat bytes.length).toNat =
        image.address.toNat + bytes.length := toNat_address_add (by omega)
    have extent := sound.extent
    refine ⟨⟨by simp, ?_, ?_⟩, ?_, ?_⟩
    · simp only [addressEq, size_bytes_append, Image.origin, Option.getD_some] at extent ⊢
      omega
    · rw [addressEq]
      exact inside
    · intro settled originEq
      simp [Image.origin, originEq]
    · simp

end Continues

end Image

namespace Progress

/-- One line keeps an image sound and only adds to it. -/
theorem continues_of_advance {pass : Pass} {progress next : Progress} {number : Nat}
    {line : Line} (sound : progress.image.Sound) (short : line.IsShort)
    (advanced : progress.advance pass number line = .ok next) :
    progress.image.Continues next.image := by
  obtain ⟨arrived, defined, arrivedEq, definedEq, placed⟩ := advance_eq_ok.mp advanced
  have arrives : progress.image.Continues arrived.image := by
    unfold arrive at arrivedEq
    split at arrivedEq
    · split at arrivedEq
      · obtain ⟨_, _, _, _, _, moved, rfl⟩ := moveOrigin_eq_ok.mp arrivedEq
        exact Image.Continues.of_moveTo sound moved
      · obtain rfl := Except.ok.inj arrivedEq
        exact Image.Continues.refl sound
    · obtain rfl := Except.ok.inj arrivedEq
      exact Image.Continues.refl sound
  have definedSound : defined.image.Sound := image_of_define definedEq ▸ arrives.sound
  have places : defined.image.Continues next.image := by
    rcases place_eq_ok.mp placed with
      ⟨_, rfl⟩ | ⟨statement, bytes, _, written, bytesEq, appended, rfl⟩
    · exact Image.Continues.refl definedSound
    · exact Image.Continues.of_append definedSound
        (short statement written _ bytes bytesEq) appended
  rw [image_of_define definedEq] at places
  exact arrives.trans places

theorem continues_of_walk {pass : Pass} {progress last : Progress}
    {lines : List (Nat × Line)} (sound : progress.image.Sound)
    (short : ∀ line ∈ lines, line.2.IsShort) (walked : walk pass progress lines = .ok last) :
    progress.image.Continues last.image := by
  induction lines generalizing progress with
  | nil =>
      obtain rfl := Except.ok.inj walked
      exact Image.Continues.refl sound
  | cons first rest ih =>
      obtain ⟨next, advanced, finished⟩ := walk_cons_eq_ok.mp walked
      obtain ⟨firstShort, restShort⟩ := List.forall_mem_cons.mp short
      have onwards := continues_of_advance sound firstShort advanced
      exact onwards.trans (ih onwards.sound restShort finished)

/-- The second reading finds no labels. -/
theorem labels_of_walk_emit {progress last : Progress} {lines : List (Nat × Line)}
    (walked : walk .emit progress lines = .ok last) : last.labels = progress.labels := by
  induction lines generalizing progress with
  | nil => rw [Except.ok.inj walked]
  | cons first rest ih =>
      obtain ⟨next, advanced, finished⟩ := walk_cons_eq_ok.mp walked
      obtain ⟨arrived, defined, arrivedEq, definedEq, placed⟩ := advance_eq_ok.mp advanced
      obtain rfl := Except.ok.inj ((define_emit arrived _).symm.trans definedEq)
      rw [ih finished, labels_of_place placed, labels_of_arrive arrivedEq]

end Progress

namespace Image

theorem here_eq {image : Image} (sound : image.Sound) :
    image.here = image.origin + UInt16.ofNat image.bytes.size := by
  rw [here_eq_ofNat, ← sound.extent, UInt16.ofNat_add, UInt16.ofNat_toNat]

/-- Bytes that were put at the end of an image are found there once the finished
image is loaded. -/
theorem slice_load_of_append {image next last : Image} {bytes : List UInt8}
    (sound : image.Sound) (short : bytes.length < limit)
    (appended : image.append bytes = .ok next) (continues : next.Continues last)
    (memory : Memory) :
    (memory.load last.origin last.bytes.toList).slice image.here bytes.length = bytes := by
  -- A sound image ends within the memory, so that loading it overwrites nothing twice.
  have lastSound := continues.sound
  rcases sound.append_cases short appended with ⟨rfl, _⟩ | ⟨_, _, rfl⟩
  · rfl
  · have originEq : last.origin = image.origin := by
      rw [origin, continues.origin image.origin rfl]
      rfl
    obtain ⟨rest, bytesEq⟩ := continues.bytes
    rw [Array.toList_appendList] at bytesEq
    have bounded : last.bytes.toList.length ≤ 65536 := by
      have extent := lastSound.extent
      have inside := lastSound.inside
      rw [Array.length_toList]
      omega
    rw [here_eq sound, ← originEq, Memory.slice_load memory _ bounded]
    · rw [← bytesEq, List.append_assoc, ← Array.length_toList, List.drop_left,
        List.take_left]
    · have lengthEq := congrArg List.length bytesEq
      simp only [List.length_append, Array.length_toList] at lengthEq ⊢
      omega

end Image

/-- Each line with a statement stands at its address in the loaded program. -/
theorem exists_bytes_of_line {lines front back : List (Nat × Line)} {number : Nat}
    {line : Line} {statement : Statement} {labels : Labels} {emitted : Progress}
    (short : ∀ line ∈ lines, line.2.IsShort)
    (linesEq : lines = front ++ (number, line) :: back)
    (written : line.statement = some statement) (placed : statement.directive ≠ .origin)
    (walked : Progress.walk .emit { labels := labels } lines = .ok emitted) :
    ∃ before bytes,
      Progress.walk .emit { labels := labels } front = .ok before ∧
      (Scope.mk .emit labels before.image.here).statement statement = .ok bytes ∧
      ∀ memory : Memory,
        (memory.load emitted.image.origin emitted.image.bytes.toList).slice
          before.image.here bytes.length = bytes := by
  subst linesEq
  obtain ⟨frontShort, lineShort, backShort⟩ :
      (∀ line ∈ front, line.2.IsShort) ∧ line.IsShort ∧ ∀ line ∈ back, line.2.IsShort := by
    simpa [or_imp, forall_and] using short
  obtain ⟨before, reached, rest⟩ := Progress.walk_append_eq_ok.mp walked
  obtain ⟨after, advanced, finished⟩ := Progress.walk_cons_eq_ok.mp rest
  have sound := (Progress.continues_of_walk Image.sound_empty frontShort reached).sound
  have onwards := Progress.continues_of_advance sound lineShort advanced
  obtain ⟨arrived, defined, arrivedEq, definedEq, placedEq⟩ :=
    Progress.advance_eq_ok.mp advanced
  have stays := Progress.arrive_of_not_origin
    (fun other same => Option.some.inj (written.symm.trans same) ▸ placed) before
  obtain rfl := Except.ok.inj (stays.symm.trans arrivedEq)
  obtain rfl := Except.ok.inj ((Progress.define_emit before _).symm.trans definedEq)
  rcases Progress.place_eq_ok.mp placedEq with
    ⟨blank, _⟩ | ⟨other, bytes, image, same, bytesEq, appended, rfl⟩
  · rw [written] at blank
    simp at blank
  · obtain rfl := Option.some.inj (written.symm.trans same)
    have few := lineShort statement written _ bytes bytesEq
    rw [Progress.labels_of_walk_emit reached] at bytesEq
    refine ⟨before, bytes, reached, bytesEq, fun memory => ?_⟩
    exact Image.slice_load_of_append sound few appended
      (Progress.continues_of_walk onwards.sound backShort finished) memory

end Z80
