import BinaryLayout.Byte.Word

/-!
# Reading and writing words

Reading a word back gives what was written modulo its width (`toNat_readUInt_writeUInt`,
`readInt_writeUInt`), and writing what was read gives the bytes back, from an unsigned reading
(`writeUInt_readUInt`) as from a signed one (`writeUInt_readInt`).
-/

namespace BinaryLayout

namespace Bytes

theorem value_lt_word {bytes : Bytes} (h : bytes.length ≤ 8) : value bytes < 2 ^ 64 :=
  Nat.lt_of_lt_of_le (value_lt bytes) (Nat.le_of_dvd (by decide) (pow_dvd_word h))

/-- Only the number modulo the width is written. -/
theorem digits_mod (width n : Nat) : digits width (n % 256 ^ width) = digits width n := by
  have h := digits_value (digits width n)
  rwa [length_digits, value_digits] at h

theorem digits_congr {width m n : Nat} (h : m % 256 ^ width = n % 256 ^ width) :
    digits width m = digits width n := by
  rw [← digits_mod width m, h, digits_mod]

theorem toNat_readUInt (order : ByteOrder) {bytes : Bytes} (h : bytes.length ≤ 8) :
    (readUInt order bytes).toNat = value (order.arrange bytes) := by
  have hv : value (order.arrange bytes) < 2 ^ 64 := value_lt_word (by simpa using h)
  rw [readUInt, UInt64.toNat_ofNat', Nat.mod_eq_of_lt hv]

theorem arrange_writeUInt (order : ByteOrder) (width : Nat) (word : UInt64) :
    order.arrange (writeUInt order width word) = digits width word.toNat := by
  rw [writeUInt, ByteOrder.arrange_arrange]

theorem writeUInt_congr (order : ByteOrder) {width : Nat} {u v : UInt64}
    (h : u.toNat % 256 ^ width = v.toNat % 256 ^ width) :
    writeUInt order width u = writeUInt order width v := by
  rw [writeUInt, writeUInt, digits_congr h]

/-- A word of no more than eight bytes is read back modulo its width. -/
theorem toNat_readUInt_writeUInt (order : ByteOrder) {width : Nat} (h : width ≤ 8)
    (word : UInt64) :
    (readUInt order (writeUInt order width word)).toNat = word.toNat % 256 ^ width := by
  rw [toNat_readUInt order (by simpa using h), arrange_writeUInt, value_digits]

theorem writeUInt_readUInt (order : ByteOrder) {bytes : Bytes} (h : bytes.length ≤ 8) :
    writeUInt order bytes.length (readUInt order bytes) = bytes := by
  have hd := digits_value (order.arrange bytes)
  rw [ByteOrder.length_arrange] at hd
  rw [writeUInt, toNat_readUInt order h, hd, ByteOrder.arrange_arrange]

/-! ## Signed readings -/

/-- The signed reading of the low bits is the balanced remainder. -/
theorem signed_mod (bits n : Nat) : signed bits (n % 2 ^ bits) = (n : Int).bmod (2 ^ bits) := by
  have hc : ((n % 2 ^ bits : Nat) : Int) = (n : Int) % ((2 ^ bits : Nat) : Int) :=
    Int.natCast_emod n (2 ^ bits)
  have hp : (2 : Int) ^ bits = ((2 ^ bits : Nat) : Int) := (Int.natCast_pow 2 bits).symm
  rw [signed, Int.bmod_def, ← hc, hp]
  generalize 2 ^ bits = m
  generalize n % m = r
  by_cases hlt : 2 * r < m
  · rw [if_pos hlt, if_pos (by omega)]
  · rw [if_neg hlt, if_neg (by omega)]

/-- A signed number and its two's complement pattern agree modulo every width. -/
theorem toNat_toUInt64_ofInt (z : Int) :
    ((Int64.ofInt z).toUInt64.toNat : Int) = z % 2 ^ 64 := by
  show (((BitVec.ofInt 64 z).toNat : Nat) : Int) = z % 2 ^ 64
  rw [BitVec.toNat_ofInt]
  omega

theorem toNat_toUInt64 (n : Int64) : (n.toUInt64.toNat : Int) = n.toInt % 2 ^ 64 := by
  rw [← toNat_toUInt64_ofInt, Int64.ofInt_toInt]

theorem writeUInt_readInt (order : ByteOrder) {bytes : Bytes} (h : bytes.length ≤ 8) :
    writeUInt order bytes.length (readInt order bytes).toUInt64 = bytes := by
  have hv : value (order.arrange bytes) < 256 ^ bytes.length := by
    simpa using value_lt (order.arrange bytes)
  have hs : signed (8 * bytes.length) (value (order.arrange bytes))
      = (value (order.arrange bytes) : Int).bmod (256 ^ bytes.length) := by
    rw [pow_width] at hv ⊢
    rw [← signed_mod, Nat.mod_eq_of_lt hv]
  have hword : (readInt order bytes).toUInt64.toNat % 256 ^ bytes.length
      = (readUInt order bytes).toNat % 256 ^ bytes.length := by
    rw [toNat_readUInt order h, readInt, hs]
    have hd : ((256 ^ bytes.length : Nat) : Int) ∣ (2 : Int) ^ 64 :=
      Int.natCast_dvd_natCast.2 (pow_dvd_word h)
    apply Int.natCast_inj.1
    rw [Int.natCast_emod, Int.natCast_emod, toNat_toUInt64_ofInt, Int.emod_emod_of_dvd _ hd,
      Int.bmod_emod]
  rw [writeUInt_congr order hword, writeUInt_readUInt order h]

theorem readInt_writeUInt (order : ByteOrder) (width : Nat) (word : UInt64) :
    readInt order (writeUInt order width word)
      = Int64.ofInt ((word.toNat : Int).bmod (2 ^ (8 * width))) := by
  rw [readInt, length_writeUInt, arrange_writeUInt, value_digits, pow_width, signed_mod]

end Bytes

end BinaryLayout
