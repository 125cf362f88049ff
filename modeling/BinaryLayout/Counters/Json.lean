import BinaryLayout.Counters.Basic
import BinaryLayout.Json.Object

/-!
# Counters as JSON

An object of the nine counters, all of which must be there, or an array of them.
-/

namespace BinaryLayout

namespace Counters

def jsonNames : List String :=
  ["decode_calls", "encode_calls", "search_calls", "fields_decoded", "bytes_read",
    "bytes_written", "search_hits", "data_errors", "schema_errors"]

def toJson (c : Counters) : Json := .ofMembers (jsonNames.zip (c.toList.map Json.ofNat))

def ofJson? (j : Json) : Option Counters := do
  ofList? (← (← Json.fields? jsonNames j).mapM Json.toNat?)

def read? (text : String) : Option Counters := (Json.ofString? text).bind ofJson?

def render (c : Counters) : String := c.toJson.render

end Counters

end BinaryLayout
