import BinaryLayout.Codec.Scalar
import BinaryLayout.Proofs.Byte.Inverse

/-!
# One value through its bytes

A value read from bytes is written back as these bytes (`write_read`), NaNs and signed numbers
included. A value that its tag stores without a conversion is read back in its normal form
(`read_write`): an integer modulo the width, a floating-point number as it is.
-/

namespace BinaryLayout

namespace Value

/-- The integer a value stands for, if it is one. -/
def integer? : Value → Option Int
  | .unsigned n => some n.toNat
  | .signed n => some n.toInt
  | _ => none

theorem toNat_word {v : Value} {z : Int} (h : v.integer? = some z) :
    (v.word.toNat : Int) = z % 2 ^ 64 := by
  cases v with
  | unsigned n =>
    simp only [integer?, Option.some.injEq] at h
    have hn := n.toNat_lt
    simp only [word]
    omega
  | signed n =>
    simp only [integer?, Option.some.injEq] at h
    rw [word, Bytes.toNat_toUInt64, h]
  | _ => simp [integer?] at h

end Value

namespace Tag

theorem eq_of_kind_float {tag : Tag} (h : tag.kind = .float) : tag = .float32 ∨ tag = .float64 := by
  cases tag <;> simp [kind] at h ⊢

theorem kind_of_isChar {tag : Tag} (h : tag.isChar = false) : tag.kind ≠ .char := by
  cases tag <;> simp [kind, isChar] at h ⊢

end Tag

namespace Floating

variable {f : Format}

theorem bits_lt (x : Floating f) : x.bits < 2 ^ (f.width + 1) := by
  have hc := x.code_lt
  rw [bits, Nat.pow_succ]
  split <;> omega

end Floating

namespace Scalar

/-- The integer congruent to `z` modulo the width of a tag that the tag can hold. -/
def wrap (tag : Tag) (z : Int) : Value :=
  if tag.kind = .signed then .signed (Int64.ofInt (z.bmod (2 ^ tag.bits)))
  else .unsigned (UInt64.ofNat (z % 2 ^ tag.bits).toNat)

/-- What a tag makes of a value it stores without a conversion. -/
def norm (tag : Tag) (v : Value) : Value :=
  match v.integer? with
  | some z => wrap tag z
  | none => v

/-- Integers for integer tags, and for the two others numbers of just their format. -/
def IsNative (tag : Tag) : Value → Prop
  | .unsigned _ | .signed _ => tag.kind = .unsigned ∨ tag.kind = .signed
  | .single _ => tag = .float32
  | .double _ => tag = .float64
  | .text _ | .list _ => False

/-- A number that a tag keeps as it is: an integer of its signedness and range, or a
floating-point number of its format. -/
def IsNormal (tag : Tag) : Value → Prop
  | .unsigned n => tag.kind = .unsigned ∧ n.toNat < 2 ^ tag.bits
  | .signed n =>
    tag.kind = .signed ∧ -2 ^ (tag.bits - 1) ≤ n.toInt ∧ n.toInt < 2 ^ (tag.bits - 1)
  | .single _ => tag = .float32
  | .double _ => tag = .float64
  | .text _ | .list _ => False

theorem IsNormal.isNative {tag : Tag} {v : Value} (h : IsNormal tag v) : IsNative tag v := by
  cases v with
  | unsigned n => exact .inl h.1
  | signed n => exact .inr h.1
  | _ => exact h

theorem norm_eq_self {tag : Tag} {v : Value} (h : IsNormal tag v) : norm tag v = v := by
  have hb : tag.bits ≤ 64 := Nat.mul_le_mul_left 8 tag.width_le_eight
  have hp : 0 < tag.bits := Nat.mul_pos (by decide) tag.width_pos
  cases v with
  | unsigned n =>
    obtain ⟨hk, hn⟩ := h
    have hz : ((n.toNat : Int) % 2 ^ tag.bits).toNat = n.toNat := by
      have hc : (n.toNat : Int) < 2 ^ tag.bits := by exact_mod_cast hn
      rw [Int.emod_eq_of_lt (Int.natCast_nonneg _) hc, Int.toNat_natCast]
    simp [norm, Value.integer?, wrap, hk, hz]
  | signed n =>
    obtain ⟨hk, hl, hu⟩ := h
    have h2 : (2 : Int) ^ tag.bits = 2 * 2 ^ (tag.bits - 1) := by
      rw [← Int.pow_succ', Nat.sub_add_cancel hp]
    have hz : n.toInt.bmod (2 ^ tag.bits) = n.toInt := by
      refine Int.bmod_eq_of_le_mul_two ?_ ?_ <;> push_cast <;> omega
    simp [norm, Value.integer?, wrap, hk, hz]
  | single x => rfl
  | double x => rfl
  | text s => exact h.elim
  | list items => exact h.elim

/-! ## Writing what was read -/

theorem word_single (x : Single) : word .float32 (.single x) = UInt64.ofNat x.bits := rfl

theorem word_double (x : Double) : word .float64 (.double x) = UInt64.ofNat x.bits := rfl

theorem ofNat_bits_ofBits {f : Format} {word : UInt64} (h : word.toNat < 2 ^ (f.width + 1)) :
    UInt64.ofNat (Floating.ofBits word.toNat : Floating f).bits = word := by
  rw [Floating.bits_ofBits h, UInt64.ofNat_toNat]

theorem write_read {tag : Tag} (hc : tag.isChar = false) (order : ByteOrder) {bytes : Bytes}
    (h : bytes.length = tag.width) : write tag order tag.width (read tag order bytes) = bytes := by
  have hw : bytes.length ≤ 8 := h ▸ tag.width_le_eight
  have hv := Bytes.value_lt (order.arrange bytes)
  rw [← Bytes.toNat_readUInt order hw, ByteOrder.length_arrange, h] at hv
  rw [← h]
  cases hk : tag.kind with
  | char => exact absurd hk (Tag.kind_of_isChar hc)
  | unsigned =>
    simp only [write, word, read, hk, Value.word]
    exact Bytes.writeUInt_readUInt order hw
  | signed =>
    simp only [write, word, read, hk, Value.word]
    exact Bytes.writeUInt_readInt order hw
  | float =>
    rcases Tag.eq_of_kind_float hk with rfl | rfl
    · have hb := ofNat_bits_ofBits (f := .binary32) hv
      simp only [write, read, Tag.kind, reduceIte, word_single, hb]
      exact Bytes.writeUInt_readUInt order hw
    · have hb := ofNat_bits_ofBits (f := .binary64) hv
      simp only [write, read, Tag.kind, reduceCtorEq, reduceIte, word_double, hb]
      exact Bytes.writeUInt_readUInt order hw

/-! ## Reading what was written -/

theorem word_of_integer {tag : Tag} (hk : tag.kind = .unsigned ∨ tag.kind = .signed) (v : Value) :
    word tag v = v.word := by
  rcases hk with hk | hk <;> simp only [word, hk]

theorem read_write_integer {tag : Tag} (order : ByteOrder) {v : Value} {z : Int}
    (hk : tag.kind = .unsigned ∨ tag.kind = .signed) (hz : v.integer? = some z) :
    read tag order (write tag order tag.width v) = wrap tag z := by
  have hd : ((2 ^ tag.bits : Nat) : Int) ∣ (2 : Int) ^ 64 :=
    Int.natCast_dvd_natCast.2 (Nat.pow_dvd_pow 2 (Nat.mul_le_mul_left 8 tag.width_le_eight))
  have hm : (v.word.toNat : Int) % ((2 ^ tag.bits : Nat) : Int)
      = z % ((2 ^ tag.bits : Nat) : Int) := by
    rw [Value.toNat_word hz, Int.emod_emod_of_dvd _ hd]
  rw [write, word_of_integer hk]
  rcases hk with hk | hk
  · simp only [read, wrap, hk, reduceCtorEq, reduceIte, Value.unsigned.injEq]
    apply UInt64.toNat_inj.1
    have hp : (2 : Int) ^ tag.bits = ((2 ^ tag.bits : Nat) : Int) := (Int.natCast_pow 2 _).symm
    have hn : (z % 2 ^ tag.bits).toNat = v.word.toNat % 2 ^ tag.bits := by
      rw [hp, ← hm, ← Int.natCast_emod, Int.toNat_natCast]
    have hlt : v.word.toNat % 2 ^ tag.bits < 2 ^ 64 :=
      Nat.lt_of_le_of_lt (Nat.mod_le _ _) v.word.toNat_lt
    rw [Bytes.toNat_readUInt_writeUInt order tag.width_le_eight, pow_width,
      UInt64.toNat_ofNat', hn, Nat.mod_eq_of_lt hlt]
    rfl
  · simp only [read, wrap, hk, reduceIte, Value.signed.injEq, Bytes.readInt_writeUInt]
    rw [← Int.emod_bmod z, ← Int.emod_bmod (v.word.toNat : Int)]
    exact congrArg Int64.ofInt (congrArg (Int.bmod · _) hm)

theorem ofBits_readUInt (order : ByteOrder) {f : Format} {w : Nat} (hw : w ≤ 8)
    (hf : 2 ^ (f.width + 1) = 256 ^ w) (x : Floating f) :
    (Floating.ofBits (Bytes.readUInt order (Bytes.writeUInt order w (.ofNat x.bits))).toNat)
      = x := by
  have hx : x.bits < 256 ^ w := hf ▸ x.bits_lt
  have h64 : x.bits < 2 ^ 64 :=
    Nat.lt_of_lt_of_le hx (Nat.le_of_dvd (by decide) (pow_dvd_word hw))
  rw [Bytes.toNat_readUInt_writeUInt order hw, UInt64.toNat_ofNat', Nat.mod_eq_of_lt h64,
    Nat.mod_eq_of_lt hx, Floating.ofBits_bits]

theorem read_write {tag : Tag} {v : Value} (order : ByteOrder) (h : IsNative tag v) :
    read tag order (write tag order tag.width v) = norm tag v := by
  cases v with
  | unsigned n => exact read_write_integer order h rfl
  | signed n => exact read_write_integer order h rfl
  | single x =>
    obtain rfl : tag = .float32 := h
    have hx := ofBits_readUInt order (w := 4) (by decide) rfl x
    simp only [read, write, word_single, Tag.kind, reduceIte]
    exact congrArg Value.single hx
  | double x =>
    obtain rfl : tag = .float64 := h
    have hx := ofBits_readUInt order (w := 8) (by decide) rfl x
    simp only [read, write, word_double, Tag.kind, reduceCtorEq, reduceIte]
    exact congrArg Value.double hx
  | text s => exact h.elim
  | list items => exact h.elim

end Scalar

end BinaryLayout
