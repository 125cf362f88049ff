import BinaryLayout.Byte.Order
import BinaryLayout.Power

/-!
# Words and their bytes

A byte string read least significant byte first is a number in base 256, `Bytes.value`, and
`Bytes.digits` writes the low bytes of a number. Words of up to eight bytes are read and written
through these two, in either byte order; a signed reading extends the sign from the top bit.
-/

namespace BinaryLayout

abbrev Bytes := List UInt8

namespace Bytes

/-- The number whose base 256 digits are the bytes, least significant first. -/
def value : Bytes → Nat
  | [] => 0
  | b :: bs => b.toNat + 256 * value bs

/-- The lowest `width` base 256 digits of `n`, least significant first. -/
def digits : Nat → Nat → Bytes
  | 0, _ => []
  | width + 1, n => UInt8.ofNat n :: digits width (n / 256)

/-- The number in `[-2 ^ (bits - 1), 2 ^ (bits - 1))` whose low bits are those of `n < 2 ^ bits`. -/
def signed (bits n : Nat) : Int :=
  if 2 * n < 2 ^ bits then n else (n : Int) - 2 ^ bits

def readUInt (order : ByteOrder) (bytes : Bytes) : UInt64 :=
  UInt64.ofNat (value (order.arrange bytes))

/-- Extends the sign from `8 * bytes.length` bits. -/
def readInt (order : ByteOrder) (bytes : Bytes) : Int64 :=
  Int64.ofInt (signed (8 * bytes.length) (value (order.arrange bytes)))

/-- Writes the low `width` bytes of `word`. -/
def writeUInt (order : ByteOrder) (width : Nat) (word : UInt64) : Bytes :=
  order.arrange (digits width word.toNat)

/-- A word has one to eight bytes. -/
def IsWidth (width : Nat) : Prop := 1 ≤ width ∧ width ≤ 8

instance (width : Nat) : Decidable (IsWidth width) := inferInstanceAs (Decidable (_ ∧ _))

def readUInt? (order : ByteOrder) (bytes : Bytes) : Option UInt64 :=
  if IsWidth bytes.length then some (readUInt order bytes) else none

def readInt? (order : ByteOrder) (bytes : Bytes) : Option Int64 :=
  if IsWidth bytes.length then some (readInt order bytes) else none

def writeUInt? (order : ByteOrder) (width : Nat) (word : UInt64) : Option Bytes :=
  if IsWidth width then some (writeUInt order width word) else none

@[simp] theorem length_digits (width n : Nat) : (digits width n).length = width := by
  induction width generalizing n with
  | zero => rfl
  | succ width ih => simp [digits, ih]

theorem value_lt (bytes : Bytes) : value bytes < 256 ^ bytes.length := by
  induction bytes with
  | nil => decide
  | cons b bs ih =>
    have := b.toNat_lt
    rw [value, List.length_cons, Nat.pow_succ]
    omega

theorem value_digits (width n : Nat) : value (digits width n) = n % 256 ^ width := by
  induction width generalizing n with
  | zero => simp [digits, value, Nat.mod_one]
  | succ width ih =>
    rw [digits, value, ih, UInt8.toNat_ofNat', Nat.pow_succ 256, Nat.mul_comm (256 ^ width),
      Nat.mod_mul]

theorem digits_value (bytes : Bytes) : digits bytes.length (value bytes) = bytes := by
  induction bytes with
  | nil => rfl
  | cons b bs ih =>
    have hb : b.toNat < 256 := b.toNat_lt
    rw [List.length_cons, digits, value]
    have hd : (b.toNat + 256 * value bs) / 256 = value bs := by omega
    have hm : UInt8.ofNat (b.toNat + 256 * value bs) = b :=
      UInt8.toNat_inj.1 (by rw [UInt8.toNat_ofNat']; omega)
    rw [hd, hm, ih]

@[simp] theorem length_writeUInt (order : ByteOrder) (width : Nat) (word : UInt64) :
    (writeUInt order width word).length = width := by
  simp [writeUInt]

/-- The bytes `start, …, start + width - 1` of a buffer. -/
def window (buf : Bytes) (start width : Nat) : Bytes := (buf.drop start).take width

/-- Replaces the bytes of `buf` from `start` on by `bytes`. -/
def overwrite (buf : Bytes) (start : Nat) (bytes : Bytes) : Bytes :=
  buf.take start ++ bytes ++ buf.drop (start + bytes.length)

/-- Cuts a byte string into pieces of `width` bytes; a shorter rest is left out. -/
def chunks (width : Nat) : Nat → Bytes → List Bytes
  | 0, _ => []
  | count + 1, bytes => bytes.take width :: chunks width count (bytes.drop width)

theorem length_window {buf : Bytes} {start width : Nat} (h : start + width ≤ buf.length) :
    (window buf start width).length = width := by
  simp only [window, List.length_take, List.length_drop]
  omega

theorem length_overwrite {buf bytes : Bytes} {start : Nat}
    (h : start + bytes.length ≤ buf.length) :
    (overwrite buf start bytes).length = buf.length := by
  simp only [overwrite, List.length_append, List.length_take, List.length_drop]
  omega

/-- What was written is read back. -/
theorem window_overwrite {buf bytes : Bytes} {start : Nat}
    (h : start + bytes.length ≤ buf.length) :
    window (overwrite buf start bytes) start bytes.length = bytes := by
  have hl : (buf.take start).length = start := by
    rw [List.length_take]
    omega
  rw [window, overwrite, List.append_assoc]
  conv =>
    lhs
    enter [2, 1]
    rw [← hl]
  rw [List.drop_left, List.take_left]

end Bytes

end BinaryLayout
