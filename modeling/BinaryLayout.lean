import BinaryLayout.Byte.Hex
import BinaryLayout.Text.Blank
import BinaryLayout.Text.Latin
import BinaryLayout.Text.Decimal
import BinaryLayout.Text.Quoted
import BinaryLayout.Floating.Text
import BinaryLayout.Descriptor.Grammar
import BinaryLayout.Codec.Search
import BinaryLayout.Json.Scan
import BinaryLayout.Value.Json
import BinaryLayout.Definition.Json
import BinaryLayout.Codec.Settings
import BinaryLayout.Counters.Stored
import BinaryLayout.Snapshot
import BinaryLayout.Capabilities
import BinaryLayout.Work.Call
import BinaryLayout.Codec.Guarded
import BinaryLayout.Proofs.Byte.Inverse
import BinaryLayout.Proofs.Byte.Splice
import BinaryLayout.Proofs.Insertion
import BinaryLayout.Proofs.Text.Latin
import BinaryLayout.Proofs.Codec.Scalar
import BinaryLayout.Proofs.Codec.Field
import BinaryLayout.Proofs.Codec.Decoding
import BinaryLayout.Proofs.Codec.Encoding
import BinaryLayout.Proofs.Codec.RoundTrip
import BinaryLayout.Proofs.Codec.Refusal
import BinaryLayout.Proofs.Work.Totals
import BinaryLayout.Proofs.Codec.Mirror
import BinaryLayout.Proofs.Json.Scan
import BinaryLayout.Proofs.Value.Json
import BinaryLayout.Proofs.Codec.Detour
import BinaryLayout.Proofs.Text.Run
import BinaryLayout.Proofs.Descriptor.Parts
import BinaryLayout.Proofs.Descriptor.Case
import BinaryLayout.Proofs.Descriptor.Acceptance
import BinaryLayout.Proofs.Descriptor.Canonical
import BinaryLayout.Proofs.Definition.Merged
import BinaryLayout.Proofs.Definition.Json
import BinaryLayout.Codec.GuardedSearch
import BinaryLayout.Proofs.Codec.Search
import BinaryLayout.Proofs.Definition.Readers
import BinaryLayout.Proofs.Value.Stable
import BinaryLayout.Proofs.Floating.Order
import BinaryLayout.Proofs.Work.Accounting
import BinaryLayout.Proofs.Counters.Stored
import BinaryLayout.Proofs.Value.History
import BinaryLayout.Proofs.Codec.Composition
import BinaryLayout.Proofs.Codec.Truncation
import BinaryLayout.Proofs.Descriptor.Arrangement
import BinaryLayout.Proofs.Codec.Marker
import BinaryLayout.Proofs.Work.Inline
import BinaryLayout.Proofs.Codec.Scan
import BinaryLayout.Proofs.Definition.Size
import BinaryLayout.Proofs.Floating.Datum
import BinaryLayout.Proofs.Floating.Nearest
import BinaryLayout.Proofs.Floating.Conversion
import BinaryLayout.Proofs.Codec.Number
import BinaryLayout.Proofs.Floating.Halfway
import BinaryLayout.Proofs.Codec.Single
import BinaryLayout.Proofs.Byte.Assembly
