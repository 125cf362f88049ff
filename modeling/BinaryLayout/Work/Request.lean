import BinaryLayout.Counters.Basic

/-!
# Requests

Work on a buffer of its own, and the answer to it. The buffer always comes back: unchanged from
decoding, searching and a refused encoding, and as far as it was written from any other encoding.
-/

namespace BinaryLayout

inductive Request
  | decode (buffer : Bytes) (definition : Definition) (offset : Nat)
  | encode (buffer : Bytes) (definition : Definition) (record : Record) (offset : Nat)
  | search (buffer : Bytes) (pattern : Pattern) (offset : Nat)

namespace Request

def kind : Request → String
  | .decode .. => "decode"
  | .encode .. => "encode"
  | .search .. => "search"

end Request

inductive Outcome
  | decoded (r : Decoded)
  | encoded (p : Progress)
  | found (index : Option Nat)

namespace Outcome

/-- The kind of the requests that are answered so. -/
def kind : Outcome → String
  | .decoded _ => "decode"
  | .encoded _ => "encode"
  | .found _ => "search"

end Outcome

structure Response where
  buffer : Bytes
  outcome : Except CodecError Outcome

namespace Response

/-- An answer of another kind than its request. No worker gives one (`Codec.Direct.kind_eq`), so the
message names the kind of the outcome and does not spell the outcome out. -/
def unexpected (kind : String) (outcome : Outcome) : CodecError :=
  .transport (kind ++ " request answered with the outcome of " ++ outcome.kind)

/-- The answer to a decoding, with the buffer. -/
def decoded (r : Response) : Except CodecError (Bytes × Decoded) :=
  r.outcome.bind fun
    | .decoded d => .ok (r.buffer, d)
    | other => .error (unexpected "decode" other)

/-- The answer to an encoding. -/
def encoded (r : Response) : Except CodecError Encoded :=
  r.outcome.bind fun
    | .encoded p => .ok ⟨r.buffer, p.stop, p.incomplete⟩
    | other => .error (unexpected "encode" other)

/-- The answer to a search, with the buffer. -/
def found (r : Response) : Except CodecError (Bytes × Option Nat) :=
  r.outcome.bind fun
    | .found index => .ok (r.buffer, index)
    | other => .error (unexpected "search" other)

end Response

namespace Codec

variable (codec : Codec)

/-- Answers a request and counts it. -/
def process (request : Request) (counters : Counters) : Response × Counters :=
  match request with
  | .decode buffer definition offset =>
    let r := codec.decode buffer definition offset
    (⟨buffer, .ok (.decoded r)⟩, counters.addDecode r offset)
  | .encode buffer definition record offset =>
    match codec.encodeInto buffer definition record offset with
    | (buffer, .ok p) => (⟨buffer, .ok (.encoded p)⟩, counters.addEncode p offset)
    | (buffer, .error e) => (⟨buffer, .error e⟩, counters.addSchemaError)
  | .search buffer pattern offset =>
    let index := pattern.search buffer offset
    (⟨buffer, .ok (.found index)⟩, counters.addSearch index)

end Codec

end BinaryLayout
