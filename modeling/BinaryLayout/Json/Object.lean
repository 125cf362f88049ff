import BinaryLayout.Json.Parse

/-!
# Fixed structures in JSON

A structure is written as an object of its fields, or as an array of their values in order. Of an
object, members with other keys are passed over, whatever is in them; a repeated field is refused.
-/

namespace BinaryLayout

namespace Json

/-- The value of a field, or none where it is missing; a second one is refused. -/
def field? (members : List (String × Json)) (name : String) : Option (Option Json) :=
  match members.filter (·.1 = name) with
  | [] => some none
  | [m] => some (some m.2)
  | _ => none

/-- The values of fields that must all be there, from an object or an array. -/
def fields? (names : List String) : Json → Option (List Json)
  | .array items => if items.length = names.length then some items else none
  | j => j.members?.bind fun members => names.mapM fun name => (field? members name).bind id

def toNat? : Json → Option Nat
  | .number (some (.natural n)) => some n.toNat
  | _ => none

def toDouble? : Json → Option Double
  | .number (some n) => some n.toDouble
  | _ => none

end Json

end BinaryLayout
