import BinaryLayout.Codec.Basic
import BinaryLayout.Json.Object

/-!
# Settings of a codec

The byte order of a codec as JSON; left out, it is the host's.
-/

namespace BinaryLayout

namespace ByteOrder

def jsonName : ByteOrder → String
  | .little => "Little"
  | .big => "Big"

def ofJsonName? : String → Option ByteOrder
  | "Little" => some .little
  | "Big" => some .big
  | _ => none

/-- The name of an order, bare or as the only key of an object with null. -/
def ofJson? : Json → Option ByteOrder
  | .text (some name) => ofJsonName? name
  | .object [(some name, .null)] => ofJsonName? name
  | _ => none

end ByteOrder

namespace Codec

def toJson (codec : Codec) : Json :=
  .ofMembers [("default_order", .ofText codec.defaultOrder.jsonName)]

def render (codec : Codec) : String := codec.toJson.render

def ofJson? : Json → Option Codec
  | .array [] => some .host
  | .array [order] => (ByteOrder.ofJson? order).map Codec.mk
  | j => do
    match ← Json.field? (← j.members?) "default_order" with
    | none => return .host
    | some order => return ⟨← ByteOrder.ofJson? order⟩

def read (text : String) : Except CodecError Codec :=
  match (Json.ofString? text).bind ofJson? with
  | some codec => .ok codec
  | none => .error (.invalidConfig none)

end Codec

end BinaryLayout
