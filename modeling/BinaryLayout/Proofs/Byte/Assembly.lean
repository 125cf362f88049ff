import BinaryLayout.Codec.Guarded
import BinaryLayout.Proofs.Byte.Inverse
import Mathlib.Algebra.BigOperators.Fin
import Mathlib.Data.Int.ModEq

/-!
# Words as sums of bytes

A word is the sum of its bytes, each with the weight of its place (`value_eq_placeValue`), and a
signed reading is the number in the signed range that is congruent to this sum (`toInt_readInt`,
`signed_modEq`). With the two laws of reading what was written and writing what was read, reading
and writing words of one to eight bytes are inverses of each other in both byte orders
(`words_inverse`).
-/

namespace BinaryLayout

namespace Bytes

/-- The sum of the bytes, each with the weight of its place. -/
def placeValue (bytes : Bytes) : Nat := ∑ i : Fin bytes.length, bytes[i].toNat * 256 ^ (i : Nat)

theorem value_eq_placeValue : ∀ bytes : Bytes, value bytes = placeValue bytes
  | [] => rfl
  | b :: bs => by
    have hs : placeValue (b :: bs)
        = b.toNat * 256 ^ 0 + ∑ i : Fin bs.length, bs[i].toNat * 256 ^ ((i : Nat) + 1) :=
      Fin.sum_univ_succ _
    rw [hs, value, value_eq_placeValue bs, placeValue, Finset.mul_sum, Nat.pow_zero, Nat.mul_one]
    congr 1
    refine Finset.sum_congr rfl fun i _ => ?_
    rw [Nat.pow_succ', Nat.mul_left_comm]

/-! ## Signed readings -/

theorem signed_bounds {bits n : Nat} (hb : 0 < bits) (hn : n < 2 ^ bits) :
    -2 ^ (bits - 1) ≤ signed bits n ∧ signed bits n < 2 ^ (bits - 1) := by
  obtain ⟨k, rfl⟩ := Nat.exists_eq_succ_of_ne_zero hb.ne'
  have hp : (2 : Int) ^ k = ((2 ^ k : Nat) : Int) := (Int.natCast_pow 2 k).symm
  rw [Nat.pow_succ] at hn
  rw [signed, Nat.succ_sub_one, Nat.pow_succ, Int.pow_succ, hp]
  split <;> omega

theorem signed_modEq (bits n : Nat) : signed bits n ≡ n [ZMOD 2 ^ bits] := by
  rw [signed]
  split
  · exact Int.ModEq.refl _
  · exact Int.sub_emod_right _ _

theorem signed_value_bounds (order : ByteOrder) {bytes : Bytes} (h : 0 < bytes.length) :
    -2 ^ (8 * bytes.length - 1) ≤ signed (8 * bytes.length) (value (order.arrange bytes)) ∧
      signed (8 * bytes.length) (value (order.arrange bytes)) < 2 ^ (8 * bytes.length - 1) := by
  have hv := value_lt (order.arrange bytes)
  rw [ByteOrder.length_arrange, pow_width] at hv
  exact signed_bounds (Nat.mul_pos (by decide) h) hv

/-- A signed reading fits into a word. -/
theorem toInt_readInt (order : ByteOrder) {bytes : Bytes} (h : IsWidth bytes.length) :
    (readInt order bytes).toInt = signed (8 * bytes.length) (value (order.arrange bytes)) := by
  obtain ⟨hl, hu⟩ := signed_value_bounds order h.1
  have hw := h.2
  have hp : (2 : Int) ^ (8 * bytes.length - 1) ≤ 2 ^ 63 := by
    exact_mod_cast Nat.pow_le_pow_right (by decide : 0 < 2) (by omega : 8 * bytes.length - 1 ≤ 63)
  exact Int64.toInt_ofInt_of_le (by omega) (by omega)

/-- Little-endian and big-endian words of one to eight bytes are the sums of their bytes with
opposite weights, signed words are in the signed range and congruent to the unsigned ones, what is
written of a word is read back modulo the width, and what was read in one of the two ways is written
back as the bytes it was read from. -/
theorem words_inverse {bytes : Bytes} (h : IsWidth bytes.length) (word : UInt64) :
    (readUInt? .little bytes).map UInt64.toNat = some (placeValue bytes) ∧
    (readUInt? .big bytes).map UInt64.toNat = some (placeValue bytes.reverse) ∧
    ∀ order : ByteOrder, ∃ (n : UInt64) (k : Int64) (out : Bytes) (m : UInt64),
      readUInt? order bytes = some n ∧ readInt? order bytes = some k ∧
      -2 ^ (8 * bytes.length - 1) ≤ k.toInt ∧ k.toInt < 2 ^ (8 * bytes.length - 1) ∧
      k.toInt ≡ n.toNat [ZMOD 2 ^ (8 * bytes.length)] ∧
      writeUInt? order bytes.length n = some bytes ∧
      writeUInt? order bytes.length k.toUInt64 = some bytes ∧
      writeUInt? order bytes.length word = some out ∧ out.length = bytes.length ∧
      (Word.lowBytes? bytes.length word).bind (store? order bytes.length) = some out ∧
      readUInt? order out = some m ∧ m.toNat = word.toNat % 2 ^ (8 * bytes.length) := by
  have hread (order : ByteOrder) : readUInt? order bytes = some (readUInt order bytes) := if_pos h
  have hwrite (order : ByteOrder) (w : UInt64) :
      writeUInt? order bytes.length w = some (writeUInt order bytes.length w) := if_pos h
  refine ⟨?_, ?_, fun order => ⟨_, _, _, readUInt order (writeUInt order bytes.length word),
    hread order, if_pos h, ?_, ?_, ?_, ?_, ?_, hwrite order word, length_writeUInt _ _ _,
    lowBytes?_bind_store? order h word, if_pos (by rwa [length_writeUInt]), ?_⟩⟩
  · rw [hread, Option.map_some, toNat_readUInt .little h.2, value_eq_placeValue]
    rfl
  · rw [hread, Option.map_some, toNat_readUInt .big h.2, value_eq_placeValue]
    rfl
  · rw [toInt_readInt order h]
    exact (signed_value_bounds order h.1).1
  · rw [toInt_readInt order h]
    exact (signed_value_bounds order h.1).2
  · rw [toInt_readInt order h, toNat_readUInt order h.2]
    exact signed_modEq _ _
  · rw [hwrite, writeUInt_readUInt order h.2]
  · rw [hwrite, writeUInt_readInt order h.2]
  · rw [toNat_readUInt_writeUInt order h.2, pow_width]

/-- Three bytes with the sign bit set, in the order of which they are the negative number. -/
theorem words_inverse_negative :
    IsWidth ([0x01, 0x02, 0x83] : Bytes).length ∧
    (readUInt? .little [0x01, 0x02, 0x83]).map UInt64.toNat = some 0x830201 ∧
    (readUInt? .big [0x01, 0x02, 0x83]).map UInt64.toNat = some 0x010283 ∧
    ∃ (k : Int64) (out : Bytes) (m : UInt64),
      readInt? .little [0x01, 0x02, 0x83] = some k ∧ k.toInt = -0x7CFDFF ∧
      k.toInt ≡ 0x830201 [ZMOD 2 ^ 24] ∧
      writeUInt? .little 3 k.toUInt64 = some [0x01, 0x02, 0x83] ∧
      writeUInt? .little 3 0xFFFFFFFF01020304 = some out ∧
      readUInt? .little out = some m ∧ m.toNat = 0x020304 := by
  obtain ⟨hlittle, hbig, horder⟩ :=
    words_inverse (by decide : IsWidth ([0x01, 0x02, 0x83] : Bytes).length) 0xFFFFFFFF01020304
  obtain ⟨n, k, out, m, hn, hk, -, -, hmod, -, hback, hwrite, -, -, hread, hm⟩ := horder .little
  have hl : placeValue [0x01, 0x02, 0x83] = 0x830201 := by decide
  have hb : placeValue [0x01, 0x02, 0x83].reverse = 0x010283 := by decide
  rw [hl] at hlittle
  rw [hb] at hbig
  rw [hn, Option.map_some, Option.some.injEq] at hlittle
  rw [hlittle] at hmod
  have hneg : k = -0x7CFDFF := Option.some.inj (hk.symm.trans (by decide +kernel))
  exact ⟨by decide, by rw [hn, Option.map_some, hlittle], hbig, k, out, m, hk,
    by rw [hneg]; decide, hmod, hback, hwrite, hread, hm⟩

end Bytes

end BinaryLayout
