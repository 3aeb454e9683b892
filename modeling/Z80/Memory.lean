import Z80.Word

/-!
# Memory

Sixty-four kilobytes of cells, one for each word.  Every access lies inside the
memory, and accesses of more than one cell wrap from the last address to the
first.  Words are stored with the less significant byte first.
-/

namespace Z80

/-- A memory, with one byte for each address. -/
structure Memory where
  cells : Vector UInt8 65536

namespace Memory

def size : Nat := 65536

def zero : Memory where
  cells := Vector.replicate 65536 0

def read (memory : Memory) (address : UInt16) : UInt8 :=
  memory.cells[address.toFin]

/-- Put a byte into a cell. -/
def write (memory : Memory) (address : UInt16) (byte : UInt8) : Memory where
  cells := memory.cells.set address.toNat byte address.toNat_lt

/-- The word in a cell and the one after it. -/
def readWord (memory : Memory) (address : UInt16) : UInt16 :=
  wordOfBytes (memory.read (address + 1)) (memory.read address)

/-- Put a word into a cell and the one after it. -/
def writeWord (memory : Memory) (address : UInt16) (word : UInt16) : Memory :=
  (memory.write address (lowByte word)).write (address + 1) (highByte word)

/-- Put bytes into consecutive cells. -/
def load (memory : Memory) (start : UInt16) : List UInt8 → Memory
  | [] => memory
  | byte :: rest => (memory.write start byte).load (start + 1) rest

/-- The bytes in consecutive cells. -/
def slice (memory : Memory) (start : UInt16) : Nat → List UInt8
  | 0 => []
  | count + 1 => memory.read start :: memory.slice (start + 1) count

/-- The one-line summary of a memory, which shows its size and no cell. -/
def summary (_memory : Memory) : String :=
  "Memory \x7b size: " ++ toString size ++ ", .. \x7d"

@[simp] theorem read_zero (address : UInt16) : zero.read address = 0 := by
  simp [read, zero]

@[simp] theorem read_write_same (memory : Memory) (address : UInt16) (byte : UInt8) :
    (memory.write address byte).read address = byte := by
  simp [read, write]

theorem read_write (memory : Memory) (address other : UInt16) (byte : UInt8) :
    (memory.write address byte).read other =
      if other = address then byte else memory.read other := by
  by_cases same : other = address
  · subst same
    simp
  · have distinct : address.toNat ≠ other.toNat :=
      fun equal => same (UInt16.toNat_inj.mp equal).symm
    simp [read, write, same, Vector.getElem_set_ne, distinct]

/-- Memories with the same byte at every address are equal. -/
theorem ext_read {first second : Memory}
    (equal : ∀ address, first.read address = second.read address) :
    first = second := by
  cases first with
  | mk firstCells =>
    cases second with
    | mk secondCells =>
      congr 1
      apply Vector.ext
      intro index bound
      have index_eq : index % UInt16.size = index := Nat.mod_eq_of_lt bound
      simpa [read, index_eq] using equal (UInt16.ofNat index)

@[simp] theorem length_slice (memory : Memory) (start : UInt16) (count : Nat) :
    (memory.slice start count).length = count := by
  induction count generalizing start with
  | zero => rfl
  | succ count ih => simp [slice, ih]

theorem load_append (memory : Memory) (start : UInt16) (first second : List UInt8) :
    memory.load start (first ++ second) =
      (memory.load start first).load (start + UInt16.ofNat first.length) second := by
  induction first generalizing memory start with
  | nil => simp [load]
  | cons byte rest ih =>
      have shift : start + 1 + UInt16.ofNat rest.length =
          start + UInt16.ofNat (rest.length + 1) := by
        rw [UInt16.add_assoc]
        congr 1
        rw [UInt16.ofNat_add, UInt16.add_comm]
        rfl
      simp only [List.cons_append, load, ih, List.length_cons, shift]

end Memory

end Z80
