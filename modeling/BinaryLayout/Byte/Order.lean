/-!
# Byte order

The order in which the bytes of a number stand in a buffer. The two orders differ by a reversal,
so one function arranges bytes for reading and for writing, and doing it twice changes nothing.
-/

namespace BinaryLayout

/-- Least significant byte first, or most significant byte first. -/
inductive ByteOrder
  | little
  | big
  deriving DecidableEq, Repr, Inhabited

namespace ByteOrder

/-- The order taken where nothing else is said. -/
def host : ByteOrder := .little

def isLittle (order : ByteOrder) : Bool := order = .little

def opposite : ByteOrder → ByteOrder
  | .little => .big
  | .big => .little

/-- The order of least significance first, from or to `order`. -/
def arrange {α : Type u} : ByteOrder → List α → List α
  | .little, bytes => bytes
  | .big, bytes => bytes.reverse

/-- How a descriptor spells an explicit order. -/
def modifier : ByteOrder → String
  | .little => "LE"
  | .big => "BE"

/-- Reads a modifier in any ASCII case; other letters name no order. -/
def ofModifier? (letters : List Char) : Option ByteOrder :=
  if letters.map Char.toUpper = ['L', 'E'] then some .little
  else if letters.map Char.toUpper = ['B', 'E'] then some .big
  else none

theorem arrange_arrange {α : Type u} (order : ByteOrder) (bytes : List α) :
    order.arrange (order.arrange bytes) = bytes := by
  cases order <;> simp [arrange]

@[simp] theorem length_arrange {α : Type u} (order : ByteOrder) (bytes : List α) :
    (order.arrange bytes).length = bytes.length := by
  cases order <;> simp [arrange]

theorem arrange_opposite {α : Type u} (order : ByteOrder) (bytes : List α) :
    order.opposite.arrange bytes = order.arrange bytes.reverse := by
  cases order <;> simp [arrange, opposite]

end ByteOrder

end BinaryLayout
