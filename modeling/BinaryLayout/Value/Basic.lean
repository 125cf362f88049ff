import BinaryLayout.Floating.Text
import BinaryLayout.NameMap
import BinaryLayout.Text.Quoted

/-!
# Values

What a field holds. Integers keep all 64 bits and floating-point numbers their bit pattern. A value
can be asked for as another kind of number; text and lists are no numbers.
-/

namespace BinaryLayout

inductive Value
  | unsigned (n : UInt64)
  | signed (n : Int64)
  | double (x : Double)
  | single (x : Single)
  | text (s : String)
  | list (items : List Value)

/-- The decoded fields of a layout by name. -/
abbrev Record := NameMap Value

namespace Value

instance : Inhabited Value := ⟨.unsigned 0⟩

/-- What messages call the kind of a value. -/
def kindName : Value → String
  | .signed _ => "signed integer"
  | .unsigned _ => "unsigned integer"
  | .double _ | .single _ => "float"
  | .text _ => "text"
  | .list _ => "list"

def isNumeric : Value → Bool
  | .unsigned _ | .signed _ | .double _ | .single _ => true
  | .text _ | .list _ => false

def toInt64? : Value → Option Int64
  | .signed n => some n
  | .unsigned n => if n.toNat < 2 ^ 63 then some (Int64.ofNat n.toNat) else none
  | _ => none

def toUInt64? : Value → Option UInt64
  | .unsigned n => some n
  | .signed n => if 0 ≤ n.toInt then some (UInt64.ofNat n.toInt.toNat) else none
  | _ => none

/-- The number as a double: the nearest one for an integer. -/
def toDouble? : Value → Option Double
  | .double x => some x
  | .single x => some x.convert
  | .signed n => some (.ofInt n.toInt)
  | .unsigned n => some (.ofNat n.toNat)
  | _ => none

def text? : Value → Option String
  | .text s => some s
  | _ => none

def items? : Value → Option (List Value)
  | .list items => some items
  | _ => none

/-- The two's complement pattern of a number, without its fraction; zero for text and lists. -/
def word : Value → UInt64
  | .signed n => n.toUInt64
  | .unsigned n => n
  | .double x => x.toWord
  | .single x => x.toWord
  | .text _ | .list _ => 0

/-- The double stored for a value; zero for text and lists. -/
def asDouble (v : Value) : Double := v.toDouble?.getD .zero

/-- The single stored for a value: its own bits, or else those of its double rounded. -/
def asSingle : Value → Single
  | .single x => x
  | v => v.asDouble.convert

mutual

/-- Equality of values: of one variant, and equal as numbers, texts or item by item. -/
def agrees : Value → Value → Bool
  | .unsigned m, .unsigned n => m == n
  | .signed m, .signed n => m == n
  | .double x, .double y => x.agrees y
  | .single x, .single y => x.agrees y
  | .text s, .text t => s == t
  | .list vs, .list ws => agreesAll vs ws
  | _, _ => false

def agreesAll : List Value → List Value → Bool
  | [], [] => true
  | v :: vs, w :: ws => agrees v w && agreesAll vs ws
  | _, _ => false

end

mutual

/-- A value for people: plain numbers, quoted text, lists in brackets. -/
def display : Value → String
  | .unsigned n => Decimal.ofNat n.toNat
  | .signed n => Decimal.ofInt n.toInt
  | .double x => x.display
  | .single x => x.display
  | .text s => Text.quote s
  | .list items => "[" ++ String.intercalate ", " (displayAll items) ++ "]"

def displayAll : List Value → List String
  | [] => []
  | v :: vs => display v :: displayAll vs

end

end Value

namespace Record

/-- The value of a field that has to be there, or the message that it is not. -/
def index (r : Record) (name : String) : Except String Value :=
  match r.get? name with
  | some value => .ok value
  | none => .error ("record has no field " ++ Text.quote name)

/-- Equality of records: the same names in the same order with equal values. -/
def agrees (r s : Record) : Bool :=
  r.names == s.names && Value.agreesAll (r.entries.map (·.2)) (s.entries.map (·.2))

end Record

end BinaryLayout
