import BinaryLayout.Text.Latin

/-!
# Bytes through text

Bytes read as characters are written back unchanged (`lowBytes_ofBytes`, `padded_length`). Text
written over a number of bytes and read again is `fitted`: of so many characters, each reduced to
its low byte.
-/

namespace BinaryLayout

namespace Text

/-- The first `count` characters, each reduced to its low byte, filled up with U+0000. -/
def fitted (count : Nat) (s : String) : String :=
  let cs := (s.toList.take count).map fun c => Char.ofNat (c.toNat % 256)
  String.ofList (cs ++ List.replicate (count - cs.length) '\x00')

theorem toNat_ofByte (b : UInt8) : (ofByte b).toNat = b.toNat := by
  have hb : b.toNat.isValidChar := .inl (Nat.lt_trans b.toNat_lt (by decide))
  rw [ofByte, Char.ofNat, dif_pos hb]
  rfl

theorem lowByte_ofByte (b : UInt8) : lowByte (ofByte b) = b := by
  rw [lowByte, toNat_ofByte, UInt8.ofNat_toNat]

theorem toNat_lowByte (c : Char) : (lowByte c).toNat = c.toNat % 256 := UInt8.toNat_ofNat'

theorem ofByte_lowByte (c : Char) : ofByte (lowByte c) = Char.ofNat (c.toNat % 256) := by
  rw [ofByte, toNat_lowByte]

theorem map_toNat_lowBytes (s : String) :
    (lowBytes s).map UInt8.toNat = s.toList.map fun c => c.toNat % 256 := by
  rw [lowBytes, List.map_map]
  exact List.map_congr_left fun c _ => toNat_lowByte c

theorem lowBytes_ofBytes (bytes : Bytes) : lowBytes (ofBytes bytes) = bytes := by
  have h : lowByte ∘ ofByte = id := funext lowByte_ofByte
  rw [lowBytes, ofBytes, String.toList_ofList, List.map_map, h, List.map_id]

theorem padded_eq : ∀ (width : Nat) (bytes : Bytes),
    padded width bytes = bytes.take width ++ List.replicate (width - bytes.length) 0
  | 0, bytes => by simp [padded]
  | width + 1, [] => by simp [padded, padded_eq width, List.replicate_succ]
  | width + 1, b :: bytes => by simp [padded, padded_eq width]

theorem padded_length (bytes : Bytes) : padded bytes.length bytes = bytes := by
  simp [padded_eq]

theorem prefix_padded {width : Nat} {bytes : Bytes} (h : bytes.length ≤ width) :
    bytes <+: padded width bytes := by
  rw [padded_eq, List.take_of_length_le h]
  exact List.prefix_append _ _

theorem ofBytes_padded (count : Nat) (s : String) :
    ofBytes (padded count (lowBytes s)) = fitted count s := by
  have hb : ofByte ∘ lowByte = fun c => Char.ofNat (c.toNat % 256) := funext ofByte_lowByte
  have hl : count - ((s.toList.take count).map fun c => Char.ofNat (c.toNat % 256)).length
      = count - s.toList.length := by
    rw [List.length_map, List.length_take]
    omega
  have hz : ofByte 0 = '\x00' := rfl
  rw [ofBytes, padded_eq, lowBytes, fitted, List.map_append, List.map_replicate, hz,
    List.length_map, ← List.map_take, List.map_map, hb, hl]

/-- Text of exactly `count` characters below U+0100 is its own fitted form. -/
theorem fitted_eq_self {count : Nat} {s : String} (hl : s.toList.length = count)
    (hc : ∀ c ∈ s.toList, c.toNat < 256) : fitted count s = s := by
  have hm : (s.toList.map fun c => Char.ofNat (c.toNat % 256)) = s.toList := by
    have h : ∀ c ∈ s.toList, Char.ofNat (c.toNat % 256) = id c := by
      intro c hm
      rw [Nat.mod_eq_of_lt (hc c hm), Char.ofNat_toNat, id]
    rw [List.map_congr_left h, List.map_id]
  rw [fitted, ← hl, List.take_length, hm, Nat.sub_self, List.replicate_zero, List.append_nil,
    String.ofList_toList]

end Text

end BinaryLayout
