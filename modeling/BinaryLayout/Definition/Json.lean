import BinaryLayout.Definition.Basic
import BinaryLayout.Json.Parse

/-!
# Definitions as JSON

A layout is an object of descriptor texts by field name, in order. There are two readers. One reads
the whole object first, where a repeated name keeps its place and takes the last text. The other
reads field by field, keeps repeated names as fields of their own, and reports the first unknown
tag even if the text goes wrong further on. On objects without repeated names they agree.
-/

namespace BinaryLayout

namespace Definition

def toJson (definition : Definition) : Json :=
  .ofMembers (definition.fields.map fun field => (field.name, .ofText field.descriptor.text))

def render (definition : Definition) : String := definition.toJson.render

/-- Adds the field of one member of an object. -/
def pushMember (definition : Definition) (name : String) : Json → Except CodecError Definition
  | .text (some text) => (Descriptor.parse text).map (definition.push name)
  | j => .error <| .invalidDefinition <| some <| "field " ++ Text.quote name
      ++ ": descriptor must be a string, got " ++ j.merged.render

/-- Reads an object as a whole. -/
def read (text : String) : Except CodecError Definition :=
  match (Json.ofStringStrict? text).bind Json.members? with
  | none => .error (.invalidDefinition none)
  | some members =>
    (NameMap.ofList members).entries.foldlM (fun definition m => definition.pushMember m.1 m.2)
      empty

/-- Reads the fields of an open object. -/
def readFields (definition : Definition) : List Json.Token → Except CodecError Definition
  | .text (some name) :: .colon :: .text (some text) :: rest =>
    match Descriptor.parse text with
    | .error e =>
      .error (.invalidDefinition (some ("field " ++ Text.quote name ++ ": " ++ e.message)))
    | .ok d =>
      match rest with
      | [.closeBrace] => .ok (definition.push name d)
      | .comma :: rest => readFields (definition.push name d) rest
      | _ => .error (.invalidDefinition none)
  | _ => .error (.invalidDefinition none)

/-- Reads an object field by field. -/
def readEach (text : String) : Except CodecError Definition :=
  match Json.tokens text.toList with
  | [.openBrace, .closeBrace] => .ok empty
  | .openBrace :: rest => readFields empty rest
  | _ => .error (.invalidDefinition none)

end Definition

end BinaryLayout
