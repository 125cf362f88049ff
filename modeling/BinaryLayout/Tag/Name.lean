import BinaryLayout.Error
import BinaryLayout.Tag.Basic
import BinaryLayout.Text.Blank

/-!
# Names of tags

Every tag has its own name and some have aliases of the same width; the ASCII case of a name and
white space around it do not matter.
-/

namespace BinaryLayout

namespace Tag

/-- Further names, each for a tag of the width it promises. -/
def aliases : List (String × Tag) :=
  [("BYTE", .uint8), ("SBYTE", .int8), ("SHORT", .int16), ("USHORT", .uint16), ("WORD", .uint16),
    ("INT", .int32), ("UINT", .uint32), ("LONG", .int32), ("ULONG", .uint32), ("DWORD", .uint32),
    ("LONGLONG", .int64), ("QWORD", .uint64), ("FLOAT", .float32), ("DOUBLE", .float64)]

def names : List (String × Tag) := all.map (fun tag => (tag.name, tag)) ++ aliases

/-- The tag spelled by letters in any ASCII case. -/
def ofName? (name : List Char) : Option Tag :=
  (names.find? fun entry => entry.1.toList == name.map Char.toUpper).map (·.2)

/-- The tag a name stands for; an unknown one is reported without its outer white space. -/
def resolve (name : String) : Except CodecError Tag :=
  let trimmed := Text.trim name.toList
  match ofName? trimmed with
  | some tag => .ok tag
  | none => .error (.unsupportedType (String.ofList trimmed))

end Tag

end BinaryLayout
