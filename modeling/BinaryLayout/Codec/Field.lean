import BinaryLayout.Codec.Scalar
import BinaryLayout.Definition.Basic

/-!
# One field and its bytes

A field of characters is text of one byte a character, filled up with zeros or cut at the count;
another repeated field is a list, element behind element. A value is checked against its descriptor
before anything is written, so the writing itself decides nothing.
-/

namespace BinaryLayout

namespace Descriptor

/-- The value of a field in bytes of its length. -/
def read (d : Descriptor) (order : ByteOrder) (bytes : Bytes) : Value :=
  if d.tag.isChar then .text (Text.ofBytes bytes)
  else if d.isRepeated then
    .list ((Bytes.chunks d.tag.width d.count.toNat bytes).map (Scalar.read d.tag order))
  else Scalar.read d.tag order bytes

/-- Writes items over a window, each over the next `tag.width` bytes; further items are left out,
and where items are missing the window stays. -/
def writeItems (tag : Tag) (order : ByteOrder) : List Value → Bytes → Bytes
  | [], window => window
  | v :: vs, window =>
    if window.length < tag.width then window
    else Scalar.write tag order tag.width v ++ writeItems tag order vs (window.drop tag.width)

/-- Writes a value over the bytes of its field. -/
def write (d : Descriptor) (order : ByteOrder) (value : Value) (window : Bytes) : Bytes :=
  if d.tag.isChar then Text.padded window.length (Text.lowBytes (value.text?.getD ""))
  else match value with
    | .list items => writeItems d.tag order items window
    | value => Scalar.write d.tag order window.length value

/-- Text for characters, a number for a single value, else a list of as many numbers. -/
def check (name : String) (d : Descriptor) (value : Value) : Except CodecError Unit :=
  if d.tag.isChar then
    match value with
    | .text _ => .ok ()
    | other => .error (.valueMismatch name "text" other.kindName)
  else if !d.isRepeated then
    if value.isNumeric then .ok ()
    else .error (.valueMismatch name ("number for " ++ d.tag.name) value.kindName)
  else
    let expected := "list of " ++ Decimal.ofNat d.count.toNat ++ " " ++ d.tag.name
    match value with
    | .list items =>
      if items.length ≠ d.count.toNat then
        .error (.valueMismatch name expected ("list of " ++ Decimal.ofNat items.length))
      else match items.find? (!·.isNumeric) with
        | some bad => .error (.valueMismatch name expected ("list containing " ++ bad.kindName))
        | none => .ok ()
    | other => .error (.valueMismatch name expected other.kindName)

@[simp] theorem length_writeItems (tag : Tag) (order : ByteOrder) (vs : List Value)
    (window : Bytes) : (writeItems tag order vs window).length = window.length := by
  induction vs generalizing window with
  | nil => rfl
  | cons v vs ih =>
    rw [writeItems]
    split
    · rfl
    · simp only [List.length_append, Scalar.length_write, ih, List.length_drop]
      omega

@[simp] theorem length_write (d : Descriptor) (order : ByteOrder) (value : Value)
    (window : Bytes) : (d.write order value window).length = window.length := by
  unfold write
  split
  · simp
  · split <;> simp

end Descriptor

end BinaryLayout
