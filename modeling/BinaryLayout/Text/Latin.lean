import BinaryLayout.Byte.Word

/-!
# Text of one byte a character

A byte is the character with its code point, and a character is stored as the low byte of its code
point, so bytes survive the way through text, and characters do below U+0100.
-/

namespace BinaryLayout

namespace Text

def ofByte (b : UInt8) : Char := Char.ofNat b.toNat

def lowByte (c : Char) : UInt8 := UInt8.ofNat c.toNat

def ofBytes (bytes : Bytes) : String := String.ofList (bytes.map ofByte)

def lowBytes (s : String) : Bytes := s.toList.map lowByte

/-- The first `width` bytes of `bytes`, filled up with zeros. -/
def padded : Nat → Bytes → Bytes
  | 0, _ => []
  | width + 1, [] => 0 :: padded width []
  | width + 1, b :: bs => b :: padded width bs

@[simp] theorem length_padded (width : Nat) (bytes : Bytes) :
    (padded width bytes).length = width := by
  induction width generalizing bytes with
  | zero => rfl
  | succ width ih => cases bytes <;> simp [padded, ih]

end Text

end BinaryLayout
