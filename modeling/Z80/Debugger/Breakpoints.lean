import Z80.Word

/-!
# Breakpoints

A set of addresses at which a run stops, kept in strictly ascending order.  The
main statements say which addresses are members after each change.
-/

namespace Z80

/-- A set of addresses, as an ascending list. -/
structure Breakpoints where
  addresses : List UInt16 := []
  ascending : addresses.Pairwise (· < ·) := by exact List.Pairwise.nil

namespace Breakpoints

/-- Put an address in its place in an ascending list. -/
def insertAscending (address : UInt16) : List UInt16 → List UInt16
  | [] => [address]
  | first :: rest =>
      if address < first then address :: first :: rest
      else if address = first then first :: rest
      else first :: insertAscending address rest

theorem mem_insertAscending {address other : UInt16} {addresses : List UInt16} :
    other ∈ insertAscending address addresses ↔ other = address ∨ other ∈ addresses := by
  induction addresses with
  | nil => simp [insertAscending]
  | cons first rest ih =>
      by_cases before : address < first
      · simp [insertAscending, before]
      · by_cases same : address = first
        · simp [insertAscending, same]
        · simp only [insertAscending, before, same, if_false, List.mem_cons, ih, or_left_comm]

theorem pairwise_insertAscending {address : UInt16} {addresses : List UInt16}
    (ascending : addresses.Pairwise (· < ·)) :
    (insertAscending address addresses).Pairwise (· < ·) := by
  induction addresses with
  | nil => simp [insertAscending]
  | cons first rest ih =>
      obtain ⟨least, restAscending⟩ := List.pairwise_cons.mp ascending
      by_cases before : address < first
      · simp only [insertAscending, before, if_true]
        refine List.pairwise_cons.mpr ⟨?_, ascending⟩
        intro other member
        rcases List.mem_cons.mp member with equal | later
        · exact equal ▸ before
        · exact UInt16.lt_trans before (least other later)
      · by_cases same : address = first
        · simpa [insertAscending, before, same] using ascending
        · simp only [insertAscending, before, same, if_false]
          refine List.pairwise_cons.mpr ⟨?_, ih restAscending⟩
          intro other member
          rcases mem_insertAscending.mp member with equal | later
          · rw [equal]
            have distinct : address.toNat ≠ first.toNat := fun toNat_eq =>
              same (UInt16.toNat_inj.mp toNat_eq)
            have notBefore : ¬ address.toNat < first.toNat := fun less =>
              before (UInt16.lt_iff_toNat_lt.mpr less)
            exact UInt16.lt_iff_toNat_lt.mpr (by omega)
          · exact least other later

instance : Membership UInt16 Breakpoints where
  mem breakpoints address := address ∈ breakpoints.addresses

instance (address : UInt16) (breakpoints : Breakpoints) :
    Decidable (address ∈ breakpoints) :=
  inferInstanceAs (Decidable (address ∈ breakpoints.addresses))

def contains (breakpoints : Breakpoints) (address : UInt16) : Bool :=
  breakpoints.addresses.contains address

def empty : Breakpoints := {}

def insert (breakpoints : Breakpoints) (address : UInt16) : Breakpoints where
  addresses := insertAscending address breakpoints.addresses
  ascending := pairwise_insertAscending breakpoints.ascending

def erase (breakpoints : Breakpoints) (address : UInt16) : Breakpoints where
  addresses := breakpoints.addresses.filter (· != address)
  ascending := breakpoints.ascending.filter _

/-- Remove an address that is a member, and add one that is not; tell which was done. -/
def toggle (breakpoints : Breakpoints) (address : UInt16) : Bool × Breakpoints :=
  if breakpoints.contains address then (false, breakpoints.erase address)
  else (true, breakpoints.insert address)

def size (breakpoints : Breakpoints) : Nat :=
  breakpoints.addresses.length

@[simp] theorem contains_empty (address : UInt16) : empty.contains address = false := rfl

theorem contains_eq_true {breakpoints : Breakpoints} {address : UInt16} :
    breakpoints.contains address = true ↔ address ∈ breakpoints.addresses := by
  simp [contains]

@[simp] theorem contains_insert (breakpoints : Breakpoints) (address other : UInt16) :
    (breakpoints.insert address).contains other =
      (other == address || breakpoints.contains other) := by
  rw [Bool.eq_iff_iff]
  simp [contains_eq_true, insert, mem_insertAscending]

@[simp] theorem contains_erase (breakpoints : Breakpoints) (address other : UInt16) :
    (breakpoints.erase address).contains other =
      (other != address && breakpoints.contains other) := by
  rw [Bool.eq_iff_iff]
  simp [contains_eq_true, erase, and_comm]

@[simp] theorem contains_toggle (breakpoints : Breakpoints) (address other : UInt16) :
    (breakpoints.toggle address).2.contains other =
      ((other == address) ^^ breakpoints.contains other) := by
  unfold toggle
  by_cases same : other = address
  · subst same
    cases member : breakpoints.contains other <;> simp
  · have distinct : (other == address) = false := by simpa using same
    cases breakpoints.contains address <;> simp [distinct, bne]

theorem fst_toggle (breakpoints : Breakpoints) (address : UInt16) :
    (breakpoints.toggle address).1 = !breakpoints.contains address := by
  unfold toggle
  cases breakpoints.contains address <;> rfl

end Breakpoints

end Z80
