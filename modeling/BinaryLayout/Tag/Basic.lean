/-!
# Tags

The closed set of primitive types a field can have, with the bytes each takes and how its bytes
are read.
-/

namespace BinaryLayout

/-- How the bytes of a value are read. -/
inductive Kind
  | char
  | signed
  | unsigned
  | float
  deriving DecidableEq, Repr

inductive Tag
  | char
  | int8
  | uint8
  | int16
  | uint16
  | int24
  | uint24
  | int32
  | uint32
  | int64
  | uint64
  | float32
  | float64
  deriving DecidableEq, Repr

namespace Tag

def all : List Tag :=
  [.char, .int8, .uint8, .int16, .uint16, .int24, .uint24, .int32, .uint32, .int64, .uint64,
    .float32, .float64]

/-- The bytes one value takes. -/
def width : Tag → Nat
  | .char | .int8 | .uint8 => 1
  | .int16 | .uint16 => 2
  | .int24 | .uint24 => 3
  | .int32 | .uint32 | .float32 => 4
  | .int64 | .uint64 | .float64 => 8

def bits (tag : Tag) : Nat := 8 * tag.width

def kind : Tag → Kind
  | .char => .char
  | .int8 | .int16 | .int24 | .int32 | .int64 => .signed
  | .uint8 | .uint16 | .uint24 | .uint32 | .uint64 => .unsigned
  | .float32 | .float64 => .float

def isChar (tag : Tag) : Bool := tag = .char

/-- The spelling a descriptor is written with. -/
def name : Tag → String
  | .char => "CHAR"
  | .int8 => "INT8"
  | .uint8 => "UINT8"
  | .int16 => "INT16"
  | .uint16 => "UINT16"
  | .int24 => "INT24"
  | .uint24 => "UINT24"
  | .int32 => "INT32"
  | .uint32 => "UINT32"
  | .int64 => "INT64"
  | .uint64 => "UINT64"
  | .float32 => "FLOAT32"
  | .float64 => "FLOAT64"

theorem width_pos (tag : Tag) : 0 < tag.width := by cases tag <;> decide

theorem width_le_eight (tag : Tag) : tag.width ≤ 8 := by cases tag <;> decide

end Tag

end BinaryLayout
