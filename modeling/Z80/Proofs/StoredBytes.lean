import Mathlib.Data.List.Induction
import Mathlib.Data.Set.Basic
import Mathlib.Order.Bounds.Defs
import Z80.Cpu.Execute
import Z80.Proofs.MemoryBlocks
import Z80.Proofs.WordValues

/-!
# What memory holds

Bytes and words are stored by requests to the memory and by the writes of a processor, and
whole programs are loaded, which may be longer than the memory and lap it.  A cell holds the
byte that was stored in it last, whichever way, and a word is read from the bytes that were
stored last in its two cells.
-/

namespace Z80

/-- A way to store bytes. -/
inductive Store where
  | load (start : UInt16) (bytes : List UInt8)
  | write (address : UInt16) (byte : UInt8)
  | writeWord (address word : UInt16)
  /-- A write of a processor. -/
  | busWrite (address : UInt16) (byte : UInt8)
  /-- The writes by which a processor keeps a word. -/
  | busWriteWord (address word : UInt16)
  deriving DecidableEq, Repr

namespace Store

def apply (memory : Memory) : Store → Memory
  | .load start bytes => memory.load start bytes
  | .write address byte => memory.write address byte
  | .writeWord address word => memory.writeWord address word
  | .busWrite address byte => memory.perform [⟨address, byte⟩]
  | .busWriteWord address word => memory.perform (Write.word address word)

/-- The bytes that are stored and their addresses, one after another. -/
def writes : Store → List Write
  | .load start bytes =>
      bytes.zipIdx.map fun (byte, index) => ⟨UInt16.ofNat (start.toNat + index), byte⟩
  | .write address byte | .busWrite address byte => [⟨address, byte⟩]
  | .writeWord address word | .busWriteWord address word =>
      [⟨address, UInt8.ofNat (word.toNat % 256)⟩,
        ⟨address + 1, UInt8.ofNat (word.toNat / 256)⟩]

end Store

namespace Memory

/-- The positions in a list of bytes that fall on an address when the list is loaded. -/
def landings (start : UInt16) (count : Nat) (address : UInt16) : Set Nat :=
  {index | index < count ∧ (start.toNat + index) % 65536 = address.toNat}

/-- The byte that was stored last at an address, or the one that was there before. -/
def mostRecent (memory : Memory) (history : List Write) (address : UInt16) : UInt8 :=
  ((history.reverse.find? fun write => write.address == address).map Write.byte).getD
    (memory.read address)

theorem add_ofNat_eq_iff {start address : UInt16} {index : Nat} :
    start + UInt16.ofNat index = address ↔
      (start.toNat + index) % 65536 = address.toNat := by
  rw [← UInt16.toNat_inj, UInt16.toNat_add, UInt16.toNat_ofNat', Nat.add_mod_mod]

/-! ## Loaded programs -/

/-- The cell of a loaded byte keeps it unless a later byte falls on the cell too. -/
theorem read_load_append_cons (memory : Memory) (start : UInt16) (front : List UInt8)
    (byte : UInt8) (back : List UInt8)
    (last : ∀ index < back.length,
      start + UInt16.ofNat front.length + 1 + UInt16.ofNat index ≠
        start + UInt16.ofNat front.length) :
    (memory.load start (front ++ byte :: back)).read (start + UInt16.ofNat front.length) =
      byte := by
  rw [load_append, load, read_load_of_forall_ne _ _ _ _ last, read_write_same]

theorem read_load_of_isGreatest (memory : Memory) {start address : UInt16}
    {bytes : List UInt8} {index : Nat}
    (greatest : IsGreatest (landings start bytes.length address) index) :
    bytes[index]? = some ((memory.load start bytes).read address) := by
  obtain ⟨⟨inside, lands⟩, bound⟩ := greatest
  obtain rfl := add_ofNat_eq_iff.mpr lands
  have front : (bytes.take index).length = index := List.length_take_of_le (Nat.le_of_lt inside)
  have divided : bytes.take index ++ bytes[index] :: bytes.drop (index + 1) = bytes := by
    rw [← List.drop_eq_getElem_cons inside, List.take_append_drop]
  have kept := read_load_append_cons memory start (bytes.take index) bytes[index]
    (bytes.drop (index + 1))
  rw [divided, front] at kept
  rw [List.getElem?_eq_getElem inside, kept]
  intro further furtherLt same
  rw [List.length_drop] at furtherLt
  have landsAgain : index + 1 + further ∈
      landings start bytes.length (start + UInt16.ofNat index) := by
    refine ⟨by omega, add_ofNat_eq_iff.mp ?_⟩
    rw [← same, UInt16.ofNat_add, UInt16.ofNat_add, ← UInt16.add_assoc, ← UInt16.add_assoc]
    rfl
  have least := bound landsAgain
  omega

theorem read_load_of_landings_eq_empty (memory : Memory) {start address : UInt16}
    {bytes : List UInt8} (nowhere : landings start bytes.length address = ∅) :
    (memory.load start bytes).read address = memory.read address := by
  apply read_load_of_forall_ne
  intro index inside same
  have lands : index ∈ landings start bytes.length address :=
    ⟨inside, add_ofNat_eq_iff.mp same⟩
  rw [nowhere] at lands
  exact lands

/-! ## Sequences of stores -/

theorem perform_append (memory : Memory) (former later : List Write) :
    memory.perform (former ++ later) = (memory.perform former).perform later :=
  List.foldl_append

/-- After writes, a cell holds the byte of the last write to it. -/
theorem read_perform (memory : Memory) (history : List Write) (address : UInt16) :
    (memory.perform history).read address = memory.mostRecent history address := by
  induction history using List.reverseRecOn with
  | nil => rfl
  | append_singleton former last ih =>
      rw [perform_append]
      change ((memory.perform former).write last.address last.byte).read address = _
      rw [read_write, mostRecent, List.reverse_append, List.reverse_singleton,
        List.singleton_append, List.find?_cons]
      by_cases here : address = last.address
      · rw [if_pos here, here, beq_self_eq_true]
        rfl
      · rw [if_neg here, beq_false_of_ne (Ne.symm here), ih, mostRecent]

theorem load_eq_perform (memory : Memory) (start : UInt16) (bytes : List UInt8) :
    memory.load start bytes = memory.perform (Store.load start bytes).writes := by
  induction bytes using List.reverseRecOn generalizing memory with
  | nil => rfl
  | append_singleton front last ih =>
      have addressEq : start + UInt16.ofNat front.length =
          UInt16.ofNat (start.toNat + front.length) := by
        rw [UInt16.ofNat_add, UInt16.ofNat_toNat]
      have oneMore : (Store.load start (front ++ [last])).writes =
          (Store.load start front).writes ++ [⟨start + UInt16.ofNat front.length, last⟩] := by
        simp only [Store.writes, List.zipIdx_append, List.map_append, Nat.zero_add, addressEq]
        rfl
      rw [load_append, ih, oneMore, perform_append]
      rfl

end Memory

/-- The bytes of a word by division. -/
theorem ofNat_toNat_word (word : UInt16) :
    UInt8.ofNat (word.toNat % 256) = lowByte word ∧
      UInt8.ofNat (word.toNat / 256) = highByte word := by
  have joined := toNat_lowByte_add_highByte word
  have lowBound := (lowByte word).toNat_lt
  have highBound := (highByte word).toNat_lt
  constructor
  · apply UInt8.toNat_inj.mp
    rw [UInt8.toNat_ofNat']
    omega
  · apply UInt8.toNat_inj.mp
    rw [UInt8.toNat_ofNat']
    omega

namespace Store

/-- The ways to store bytes come down to the same writes. -/
theorem apply_eq_perform (memory : Memory) (store : Store) :
    store.apply memory = memory.perform store.writes := by
  cases store with
  | load start bytes => exact memory.load_eq_perform start bytes
  | write address byte => rfl
  | busWrite address byte => rfl
  | writeWord address word =>
      rw [writes, (ofNat_toNat_word word).1, (ofNat_toNat_word word).2]
      rfl
  | busWriteWord address word =>
      rw [writes, (ofNat_toNat_word word).1, (ofNat_toNat_word word).2]
      rfl

theorem foldl_apply (memory : Memory) (stores : List Store) :
    stores.foldl apply memory = memory.perform (stores.flatMap writes) := by
  induction stores generalizing memory with
  | nil => rfl
  | cons store rest ih =>
      rw [List.foldl_cons, ih, apply_eq_perform, List.flatMap_cons, Memory.perform_append]

end Store

/-- A loaded program leaves in each cell the last of its bytes that falls on the cell, and
keeps the others.  After any stores a word is read from the bytes stored last in a cell and
the one after it, by a request and by a processor alike. -/
theorem last_store_counts :
    (∀ (memory : Memory) (start : UInt16) (bytes : List UInt8) (address : UInt16),
      (∀ index, IsGreatest (Memory.landings start bytes.length address) index →
        bytes[index]? = some ((memory.load start bytes).read address)) ∧
      (Memory.landings start bytes.length address = ∅ →
        (memory.load start bytes).read address = memory.read address)) ∧
    ∀ (memory : Memory) (stores : List Store) (address : UInt16),
      let last := stores.foldl Store.apply memory
      let history := stores.flatMap Store.writes
      let value := (memory.mostRecent history address).toNat +
        256 * (memory.mostRecent history (address + 1)).toNat
      (last.readWord address).toNat = value ∧
        ∀ cpu : Cpu, (cpu.wordFrom last (.place (.cells address))).toNat = value := by
  refine ⟨fun memory start bytes address =>
    ⟨fun _ => memory.read_load_of_isGreatest, memory.read_load_of_landings_eq_empty⟩, ?_⟩
  intro memory stores address last history value
  have read : (last.readWord address).toNat = value := by
    rw [Memory.readWord, toNat_wordOfBytes]
    simp only [last, history, value, Store.foldl_apply, Memory.read_perform]
  refine ⟨read, fun cpu => ?_⟩
  rw [Cpu.wordFrom, Memory.busReadWord_eq_readWord]
  exact read

/-- A program of one byte more than the memory has cells lands on its first byte. -/
theorem last_store_counts_lapped :
    (Memory.zero.load 0xFFFF (List.replicate 65536 1 ++ [7])).read 0xFFFF = 7 ∧
      (Memory.zero.load 0xFFFF [1, 2]).read 1 = 0 ∧
      (([.writeWord 0xFFFF 0x1234, .busWrite 0 0x56] : List Store).foldl Store.apply
        Memory.zero).readWord 0xFFFF = 0x5634 := by
  obtain ⟨loaded, stored⟩ := last_store_counts
  refine ⟨?_, ?_, ?_⟩
  · have greatest : IsGreatest
        (Memory.landings 0xFFFF (List.replicate 65536 (1 : UInt8) ++ [7]).length 0xFFFF)
        65536 := by
      rw [List.length_append, List.length_replicate]
      exact ⟨⟨by decide, by decide⟩, fun index lands => Nat.le_of_lt_succ lands.1⟩
    have landed := (loaded Memory.zero 0xFFFF _ 0xFFFF).1 65536 greatest
    rw [List.getElem?_append_right (by rw [List.length_replicate]), List.length_replicate] at landed
    exact (Option.some.inj landed).symm
  · refine (loaded Memory.zero 0xFFFF [1, 2] 1).2 ?_
    rw [Set.eq_empty_iff_forall_notMem]
    rintro index ⟨inside, lands⟩
    have small : index = 0 ∨ index = 1 := by
      rw [List.length_cons, List.length_singleton] at inside
      omega
    obtain rfl | rfl := small <;> exact absurd lands (by decide)
  · apply UInt16.toNat_inj.mp
    rw [(stored Memory.zero [.writeWord 0xFFFF 0x1234, .busWrite 0 0x56] 0xFFFF).1]
    rfl

end Z80
