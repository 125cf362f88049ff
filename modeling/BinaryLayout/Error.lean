import BinaryLayout.Text.Quoted

/-!
# Errors

What a layout, a record or a stored text can be refused for. A buffer that is too short is no
error here: the walks report it with how far they came.
-/

namespace BinaryLayout

inductive CodecError
  /-- A descriptor names a tag outside the closed set. -/
  | unsupportedType (tag : String)
  /-- A record lacks a field of the layout. -/
  | missingField (field : String)
  /-- A value does not fit the descriptor of its field. -/
  | valueMismatch (field expected found : String)
  /-- A stored definition could not be read; without a reason its text is not well formed. -/
  | invalidDefinition (reason : Option String)
  /-- Stored settings could not be read. -/
  | invalidConfig (reason : Option String)
  /-- Stored counters could not be read. -/
  | telemetry (reason : Option String)
  /-- The way to a worker or back from it is gone. -/
  | transport (reason : String)
  deriving DecidableEq

namespace CodecError

def message : CodecError → String
  | .unsupportedType tag => "unsupported type: " ++ Text.quote tag
  | .missingField field => "record has no value for field " ++ Text.quote field
  | .valueMismatch field expected found =>
    "field " ++ Text.quote field ++ ": expected " ++ expected ++ ", found " ++ found
  | .invalidDefinition reason => "invalid structure definition: " ++ reason.getD "malformed text"
  | .invalidConfig reason => "invalid codec configuration: " ++ reason.getD "malformed text"
  | .telemetry reason => "corrupt telemetry payload: " ++ reason.getD "malformed bytes"
  | .transport reason => "transport error: " ++ reason

/-- Raised by a layout, a record or a stored text rather than by the way to a worker. -/
def isSchemaError : CodecError → Bool
  | .transport _ => false
  | _ => true

end CodecError

end BinaryLayout
