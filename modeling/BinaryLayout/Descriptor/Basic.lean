import BinaryLayout.Byte.Order
import BinaryLayout.Tag.Basic
import BinaryLayout.Text.Decimal

/-!
# Descriptors

The layout of one field: a tag, how often it is repeated, and possibly a byte order of its own.
-/

namespace BinaryLayout

structure Descriptor where
  tag : Tag
  count : UInt32
  order : Option ByteOrder
  deriving DecidableEq

namespace Descriptor

def ofTag (tag : Tag) : Descriptor := ⟨tag, 1, none⟩

/-- Repeated `count` times, at least once. -/
def repeated (d : Descriptor) (count : UInt32) : Descriptor :=
  { d with count := if count = 0 then 1 else count }

def withOrder (d : Descriptor) (order : ByteOrder) : Descriptor := { d with order := some order }

/-- The bytes of the whole field. -/
def byteLength (d : Descriptor) : Nat := d.tag.width * d.count.toNat

def resolvedOrder (d : Descriptor) (default : ByteOrder) : ByteOrder := d.order.getD default

/-- Read as a list, or as text if it is of characters. -/
def isRepeated (d : Descriptor) : Bool := 1 < d.count

/-- The canonical text: a count of one and a missing order are left out. -/
def chars (d : Descriptor) : List Char :=
  let count := if d.count = 1 then [] else '[' :: Decimal.digits d.count.toNat ++ [']']
  let order := match d.order with
    | none => []
    | some order => '|' :: order.modifier.toList
  d.tag.name.toList ++ count ++ order

def text (d : Descriptor) : String := String.ofList d.chars

end Descriptor

end BinaryLayout
