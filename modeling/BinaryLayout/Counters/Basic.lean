import BinaryLayout.Codec.Search

/-!
# Counters

What decoding, encoding and searching have done so far. Counts add up, so the counters of several
workers are merged by adding them one by one, in any order.
-/

namespace BinaryLayout

structure Counters where
  decodeCalls : Nat
  encodeCalls : Nat
  searchCalls : Nat
  fieldsDecoded : Nat
  bytesRead : Nat
  bytesWritten : Nat
  searchHits : Nat
  /-- Decodings and encodings that stopped before the last field. -/
  dataErrors : Nat
  /-- Encodings whose record was refused. -/
  schemaErrors : Nat
  deriving DecidableEq

namespace Counters

def zero : Counters := ⟨0, 0, 0, 0, 0, 0, 0, 0, 0⟩

instance : Inhabited Counters := ⟨zero⟩

def toList (c : Counters) : List Nat :=
  [c.decodeCalls, c.encodeCalls, c.searchCalls, c.fieldsDecoded, c.bytesRead, c.bytesWritten,
    c.searchHits, c.dataErrors, c.schemaErrors]

def ofList? : List Nat → Option Counters
  | [a, b, c, d, e, f, g, h, i] => some ⟨a, b, c, d, e, f, g, h, i⟩
  | _ => none

def addDecode (c : Counters) (r : Decoded) (offset : Nat) : Counters :=
  { c with
    decodeCalls := c.decodeCalls + 1
    fieldsDecoded := c.fieldsDecoded + r.data.size
    bytesRead := c.bytesRead + r.consumed offset
    dataErrors := c.dataErrors + r.incomplete.toNat }

def addEncode (c : Counters) (p : Progress) (offset : Nat) : Counters :=
  { c with
    encodeCalls := c.encodeCalls + 1
    bytesWritten := c.bytesWritten + (p.stop - offset)
    dataErrors := c.dataErrors + p.incomplete.toNat }

def addSearch (c : Counters) (found : Option Nat) : Counters :=
  { c with
    searchCalls := c.searchCalls + 1
    searchHits := c.searchHits + found.isSome.toNat }

def addSchemaError (c : Counters) : Counters := { c with schemaErrors := c.schemaErrors + 1 }

def merge (c d : Counters) : Counters where
  decodeCalls := c.decodeCalls + d.decodeCalls
  encodeCalls := c.encodeCalls + d.encodeCalls
  searchCalls := c.searchCalls + d.searchCalls
  fieldsDecoded := c.fieldsDecoded + d.fieldsDecoded
  bytesRead := c.bytesRead + d.bytesRead
  bytesWritten := c.bytesWritten + d.bytesWritten
  searchHits := c.searchHits + d.searchHits
  dataErrors := c.dataErrors + d.dataErrors
  schemaErrors := c.schemaErrors + d.schemaErrors

instance : Add Counters := ⟨merge⟩

def totalCalls (c : Counters) : Nat := c.decodeCalls + c.encodeCalls + c.searchCalls

/-- The part of decodings and encodings that stopped early; zero if there were none. -/
def errorRate (c : Counters) : Double :=
  let calls := c.decodeCalls + c.encodeCalls
  if calls = 0 then .zero else (Floating.ofNat c.dataErrors).div (.ofNat calls)

end Counters

end BinaryLayout
