import Z80.Word

/-!
# Numbers in bytes and words

The bytes and words that stand for a number, and the numbers for which bytes and
words stand.
-/

namespace Z80

theorem toNat_byte_ofInt (value : Int) :
    ((UInt8.ofInt value).toNat : Int) = value % 256 := by
  have least := Int.emod_nonneg value (by decide : (256 : Int) ≠ 0)
  have below := Int.emod_lt_of_pos value (by decide : (0 : Int) < 256)
  rw [UInt8.ofInt, UInt8.toNat_ofNat']
  omega

theorem toNat_word_ofInt (value : Int) :
    ((UInt16.ofInt value).toNat : Int) = value % 65536 := by
  have least := Int.emod_nonneg value (by decide : (65536 : Int) ≠ 0)
  have below := Int.emod_lt_of_pos value (by decide : (0 : Int) < 65536)
  rw [UInt16.ofInt, UInt16.toNat_ofNat']
  omega

theorem toNat_lowByte_add_highByte (word : UInt16) :
    (lowByte word).toNat + 256 * (highByte word).toNat = word.toNat := by
  have bound := word.toNat_lt
  simp only [lowByte, highByte, UInt16.toNat_toUInt8, UInt16.toNat_div,
    UInt16.reduceToNat]
  omega

theorem toNat_wordOfBytes (high low : UInt8) :
    (wordOfBytes high low).toNat = low.toNat + 256 * high.toNat := by
  have word := toNat_lowByte_add_highByte (wordOfBytes high low)
  rw [lowByte_wordOfBytes, highByte_wordOfBytes] at word
  exact word.symm

theorem wordOfBytes_eq_zero (high low : UInt8) :
    (wordOfBytes high low == 0) = (low == 0 && high == 0) := by
  have value := toNat_wordOfBytes high low
  rw [Bool.eq_iff_iff, Bool.and_eq_true, beq_iff_eq, beq_iff_eq, beq_iff_eq,
    ← UInt16.toNat_inj, ← UInt8.toNat_inj, ← UInt8.toNat_inj, value]
  simp only [UInt16.toNat_zero, UInt8.toNat_zero]
  omega

/-- The number for which a byte stands in two's complement. -/
def signedValue (byte : UInt8) : Int :=
  if isNegative byte then byte.toNat - 256 else byte.toNat

theorem ofInt_toNat_byte (byte : UInt8) : UInt8.ofInt byte.toNat = byte := by
  apply UInt8.toNat_inj.mp
  have modular := toNat_byte_ofInt byte.toNat
  have bound := byte.toNat_lt
  omega

theorem ofInt_toNat_word (word : UInt16) : UInt16.ofInt word.toNat = word := by
  apply UInt16.toNat_inj.mp
  have modular := toNat_word_ofInt word.toNat
  have bound := word.toNat_lt
  omega

theorem le_of_isNegative {byte : UInt8} (negative : isNegative byte = true) :
    128 ≤ byte.toNat := by
  simpa [isNegative, UInt8.le_iff_toNat_le] using negative

theorem lt_of_not_isNegative {byte : UInt8} (positive : ¬isNegative byte = true) :
    byte.toNat < 128 := by
  simpa [isNegative, UInt8.le_iff_toNat_le] using positive

/-- The two ways to read a byte, by its top bit. -/
theorem signedValue_cases (byte : UInt8) :
    isNegative byte = true ∧ 128 ≤ byte.toNat ∧ signedValue byte = byte.toNat - 256 ∨
      isNegative byte = false ∧ byte.toNat < 128 ∧ signedValue byte = byte.toNat := by
  by_cases negative : isNegative byte = true
  · exact .inl ⟨negative, le_of_isNegative negative, if_pos negative⟩
  · exact .inr ⟨Bool.eq_false_iff.mpr negative, lt_of_not_isNegative negative,
      if_neg negative⟩

theorem signedValue_bounds (byte : UInt8) :
    -128 ≤ signedValue byte ∧ signedValue byte ≤ 127 := by
  have bound := byte.toNat_lt
  rcases signedValue_cases byte with ⟨-, least, value⟩ | ⟨-, below, value⟩ <;> omega

theorem ofInt_signedValue (byte : UInt8) : UInt8.ofInt (signedValue byte) = byte := by
  apply UInt8.toNat_inj.mp
  have modular := toNat_byte_ofInt (signedValue byte)
  have bound := byte.toNat_lt
  rcases signedValue_cases byte with ⟨-, -, value⟩ | ⟨-, -, value⟩ <;> omega

theorem signedValue_ofInt {value : Int} (least : -128 ≤ value) (greatest : value ≤ 127) :
    signedValue (UInt8.ofInt value) = value := by
  have modular := toNat_byte_ofInt value
  rcases signedValue_cases (UInt8.ofInt value) with ⟨-, high, read⟩ | ⟨-, low, read⟩ <;>
    omega

/-- Adding a displacement moves an address by the number it stands for. -/
theorem add_signExtend (address : UInt16) (displacement : UInt8) :
    address + signExtend displacement =
      UInt16.ofInt (address.toNat + signedValue displacement) := by
  apply UInt16.toNat_inj.mp
  have modular := toNat_word_ofInt (address.toNat + signedValue displacement)
  have bound := displacement.toNat_lt
  rcases signedValue_cases displacement with ⟨negative, -, value⟩ | ⟨positive, -, value⟩
  · simp only [signExtend, negative, if_true, UInt16.toNat_add, UInt8.toNat_toUInt16,
      UInt16.reduceToNat]
    omega
  · simp only [signExtend, positive, Bool.false_eq_true, if_false, UInt16.toNat_add,
      UInt8.toNat_toUInt16]
    omega

/-- The address is moved by exactly that number unless it wraps. -/
theorem toNat_add_signExtend (address : UInt16) (length : Nat) (displacement : UInt8)
    (least : 0 ≤ (address.toNat + length + signedValue displacement : Int))
    (greatest : (address.toNat + length + signedValue displacement : Int) ≤ 65535) :
    ((address + UInt16.ofNat length + signExtend displacement).toNat : Int) =
      address.toNat + length + signedValue displacement := by
  rw [add_signExtend, toNat_word_ofInt, UInt16.toNat_add, UInt16.toNat_ofNat']
  omega

end Z80
