import Z80.Memory

/-!
# Blocks of memory

Consecutive cells wrap past the last address.  This file divides a block of
cells into shorter blocks, and shows that a block that was loaded without
lapping the memory reads back byte by byte.
-/

namespace Z80

namespace Memory

private theorem add_one_add_ofNat (start : UInt16) (count : Nat) :
    start + 1 + UInt16.ofNat count = start + UInt16.ofNat (count + 1) := by
  rw [UInt16.ofNat_add, UInt16.add_assoc, UInt16.add_comm 1]
  rfl

theorem slice_append (memory : Memory) (start : UInt16) (first second : Nat) :
    memory.slice start (first + second) =
      memory.slice start first ++ memory.slice (start + UInt16.ofNat first) second := by
  induction first generalizing start with
  | zero => simp [slice]
  | succ first ih =>
      have lengthEq : first + 1 + second = first + second + 1 := by omega
      rw [lengthEq]
      simp only [slice, ih, List.cons_append, add_one_add_ofNat]

theorem take_slice (memory : Memory) (start : UInt16) {count total : Nat}
    (within : count ≤ total) :
    (memory.slice start total).take count = memory.slice start count := by
  obtain ⟨rest, rfl⟩ := Nat.exists_eq_add_of_le within
  rw [slice_append, List.take_left' (length_slice ..)]

theorem drop_slice (memory : Memory) (start : UInt16) {count total : Nat}
    (within : count ≤ total) :
    (memory.slice start total).drop count =
      memory.slice (start + UInt16.ofNat count) (total - count) := by
  obtain ⟨rest, rfl⟩ := Nat.exists_eq_add_of_le within
  rw [slice_append, List.drop_left' (length_slice ..), Nat.add_sub_cancel_left]

theorem getElem?_slice (memory : Memory) (start : UInt16) {index count : Nat}
    (inside : index < count) :
    (memory.slice start count)[index]? =
      some (memory.read (start + UInt16.ofNat index)) := by
  induction count generalizing start index with
  | zero => omega
  | succ count ih =>
      cases index with
      | zero => simp [slice]
      | succ index =>
          rw [slice, List.getElem?_cons_succ, ih (start + 1) (by omega),
            add_one_add_ofNat]

theorem slice_eq_of_read_eq {first second : Memory} {start : UInt16} {count : Nat}
    (equal : ∀ index < count,
      first.read (start + UInt16.ofNat index) = second.read (start + UInt16.ofNat index)) :
    first.slice start count = second.slice start count := by
  induction count generalizing start with
  | zero => rfl
  | succ count ih =>
      have here := equal 0 (Nat.succ_pos count)
      rw [show start + UInt16.ofNat 0 = start from UInt16.add_zero start] at here
      rw [slice, slice, here, ih]
      intro index indexLt
      rw [add_one_add_ofNat]
      exact equal (index + 1) (Nat.succ_lt_succ indexLt)

/-- A loaded block leaves the other cells alone. -/
theorem read_load_of_forall_ne (memory : Memory) (start address : UInt16)
    (bytes : List UInt8)
    (outside : ∀ index < bytes.length, start + UInt16.ofNat index ≠ address) :
    (memory.load start bytes).read address = memory.read address := by
  induction bytes generalizing memory start with
  | nil => rfl
  | cons byte rest ih =>
      have first : address ≠ start := by
        intro equal
        apply outside 0 (by simp)
        rw [equal]
        exact UInt16.add_zero start
      rw [load, ih, read_write, if_neg first]
      intro index indexLt
      rw [add_one_add_ofNat]
      exact outside (index + 1) (by simpa using indexLt)

private theorem add_one_add_ofNat_ne (start : UInt16) {count : Nat}
    (bounded : count < 65535) : start + 1 + UInt16.ofNat count ≠ start := by
  intro equal
  have values := congrArg UInt16.toNat equal
  have startLt := start.toNat_lt
  simp only [add_one_add_ofNat, UInt16.toNat_add, UInt16.toNat_ofNat'] at values
  omega

/-- A loaded block that does not lap the memory reads back byte by byte. -/
theorem read_load (memory : Memory) (start : UInt16) {bytes : List UInt8}
    (bounded : bytes.length ≤ 65536) (index : Nat) (inside : index < bytes.length) :
    (memory.load start bytes).read (start + UInt16.ofNat index) = bytes[index] := by
  induction bytes generalizing memory start index with
  | nil => simp at inside
  | cons byte rest ih =>
      have restBounded : rest.length ≤ 65535 := by
        rw [List.length_cons] at bounded
        omega
      cases index with
      | zero =>
          have address : start + UInt16.ofNat 0 = start := UInt16.add_zero start
          rw [address, load, read_load_of_forall_ne, read_write_same]
          · rfl
          · intro other otherLt
            exact add_one_add_ofNat_ne start (by omega)
      | succ index =>
          rw [← add_one_add_ofNat, load, ih _ _ (by omega)]
          · rfl

theorem slice_load (memory : Memory) (start : UInt16) {bytes : List UInt8}
    (bounded : bytes.length ≤ 65536) {offset count : Nat}
    (inside : offset + count ≤ bytes.length) :
    (memory.load start bytes).slice (start + UInt16.ofNat offset) count =
      (bytes.drop offset).take count := by
  apply List.ext_getElem?
  intro index
  by_cases indexLt : index < count
  · have address : start + UInt16.ofNat offset + UInt16.ofNat index =
        start + UInt16.ofNat (offset + index) := by
      rw [UInt16.ofNat_add, UInt16.add_assoc]
    rw [getElem?_slice _ _ indexLt, address,
      read_load memory start bounded (offset + index) (by omega),
      List.getElem?_take_of_lt indexLt, List.getElem?_drop,
      List.getElem?_eq_getElem (by omega)]
  · rw [List.getElem?_eq_none (by rw [length_slice]; omega),
      List.getElem?_eq_none (by rw [List.length_take]; omega)]

/-- Loading the bytes that a block already holds changes nothing. -/
theorem load_slice (memory : Memory) (start : UInt16) (count : Nat) :
    memory.load start (memory.slice start count) = memory := by
  induction count generalizing start with
  | zero => rfl
  | succ count ih =>
      have same : memory.write start (memory.read start) = memory := by
        apply ext_read
        intro address
        rw [read_write]
        split
        · rename_i equal
          rw [equal]
        · rfl
      rw [slice, load, same, ih]

end Memory

end Z80
