import BinaryLayout.Json.Parse
import BinaryLayout.Value.Basic

/-!
# Values and records as JSON

A number is written as an integer or with its fewest digits, and a floating-point number that is not
finite as null. Reading takes numbers, texts and arrays; an integer that is not negative is read as
unsigned, and null, booleans and objects are no values.
-/

namespace BinaryLayout

namespace Value

mutual

def toJson : Value → Json
  | .unsigned n => .number (some (.natural n))
  | .signed n => .number (some (.ofInt64 n))
  | .double x => .ofFloating .double x
  | .single x => .ofFloating .single x
  | .text s => .ofText s
  | .list items => .array (allToJson items)

def allToJson : List Value → List Json
  | [] => []
  | v :: vs => toJson v :: allToJson vs

end

def ofNumber : Json.Number → Value
  | .natural n => .unsigned n
  | .negative n => .signed n
  | .double x => .double x
  | .single x => .single x

mutual

def ofJson? : Json → Option Value
  | .number n => n.map ofNumber
  | .text s => s.map .text
  | .array items => (allOfJson? items).map .list
  | _ => none

def allOfJson? : List Json → Option (List Value)
  | [] => some []
  | j :: js =>
    match ofJson? j, allOfJson? js with
    | some v, some vs => some (v :: vs)
    | _, _ => none

end

/-- Reads a value from a JSON text. -/
def read? (text : String) : Option Value := (Json.ofStringStrict? text).bind ofJson?

def render (v : Value) : String := v.toJson.render

end Value

namespace Record

def toJson (r : Record) : Json := .ofMembers (r.entries.map fun e => (e.1, e.2.toJson))

/-- The members of an object, put into a record one by one. -/
def ofJson? (j : Json) : Option Record :=
  j.members?.bind fun members =>
    (members.mapM fun (m : String × Json) => (Value.ofJson? m.2).map (m.1, ·)).map NameMap.ofList

/-- Reads a record from a JSON text. -/
def read? (text : String) : Option Record := (Json.ofStringStrict? text).bind ofJson?

def render (r : Record) : String := (toJson r).render

end Record

end BinaryLayout
