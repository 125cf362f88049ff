import BinaryLayout.Byte.Hex
import BinaryLayout.Codec.Basic

/-!
# Searching

The first occurrence of a byte pattern at or after an offset, and a layout read right behind such
a marker. An empty pattern occurs nowhere.
-/

namespace BinaryLayout

structure Pattern where
  bytes : Bytes
  deriving DecidableEq

namespace Pattern

/-- Text as the bytes a field of characters holds for it. -/
def ofText (s : String) : Pattern := ⟨Text.lowBytes s⟩

def size (p : Pattern) : Nat := p.bytes.length

def isEmpty (p : Pattern) : Bool := p.bytes.isEmpty

/-- A pattern in messages. -/
def display (p : Pattern) : String := "Pattern(0x" ++ Hex.ofBytes p.bytes ++ ")"

end Pattern

namespace Bytes

/-- The index of the first place of a buffer where `needle` stands, counted from `start`. -/
def firstIn (needle : Bytes) : Bytes → Nat → Option Nat
  | [], _ => none
  | b :: bs, start =>
    if needle.isPrefixOf (b :: bs) then some start else firstIn needle bs (start + 1)

def find? (buf needle : Bytes) (offset : Nat) : Option Nat :=
  if needle.isEmpty then none else firstIn needle (buf.drop offset) offset

end Bytes

namespace Pattern

/-- Where a pattern first occurs in a buffer at or after an offset. -/
def search (p : Pattern) (buf : Bytes) (offset : Nat) : Option Nat :=
  Bytes.find? buf p.bytes offset

end Pattern

namespace Codec

/-- Reads a layout right behind the first marker at or after an offset. -/
def decodeAfter (codec : Codec) (buf : Bytes) (marker : Pattern) (definition : Definition)
    (offset : Nat) : Option Decoded :=
  (marker.search buf offset).map fun start =>
    codec.decode buf definition (start + marker.size)

end Codec

end BinaryLayout
