import BinaryLayout.Byte.Word
import BinaryLayout.Tag.Basic
import BinaryLayout.Text.Latin
import BinaryLayout.Value.Basic

/-!
# One value and its bytes

Integers are stored modulo their width and floating-point numbers by their bit pattern, both in
either byte order; a character is one byte.
-/

namespace BinaryLayout

namespace Scalar

/-- The value of a tag in bytes of its width. -/
def read (tag : Tag) (order : ByteOrder) (bytes : Bytes) : Value :=
  match tag.kind with
  | .char => .text (Text.ofBytes bytes)
  | .unsigned => .unsigned (Bytes.readUInt order bytes)
  | .signed => .signed (Bytes.readInt order bytes)
  | .float =>
    let bits := (Bytes.readUInt order bytes).toNat
    if tag = .float32 then .single (.ofBits bits) else .double (.ofBits bits)

/-- The word whose low bytes are stored for a value. -/
def word (tag : Tag) (value : Value) : UInt64 :=
  match tag.kind with
  | .char => ((value.text?.bind (·.toList.head?)).map fun c => (Text.lowByte c).toUInt64).getD 0
  | .signed | .unsigned => value.word
  | .float =>
    if tag = .float32 then UInt64.ofNat value.asSingle.bits else UInt64.ofNat value.asDouble.bits

/-- The `width` bytes stored for a value. -/
def write (tag : Tag) (order : ByteOrder) (width : Nat) (value : Value) : Bytes :=
  Bytes.writeUInt order width (word tag value)

@[simp] theorem length_write (tag : Tag) (order : ByteOrder) (width : Nat) (value : Value) :
    (write tag order width value).length = width := by
  simp [write]

end Scalar

end BinaryLayout
