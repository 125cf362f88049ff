import BinaryLayout.Counters.Json

/-!
# Snapshots

The counters at one moment, with the time since the start and the bytes per second.
-/

namespace BinaryLayout

/-- A span of time of less than `2 ^ 64` seconds. -/
structure Duration where
  seconds : Nat
  nanos : Nat
  deriving DecidableEq

namespace Duration

/-- Carries whole seconds over; none if the seconds do not fit. -/
def ofParts? (seconds nanos : Nat) : Option Duration :=
  let seconds := seconds + nanos / 10 ^ 9
  if seconds < 2 ^ 64 then some ⟨seconds, nanos % 10 ^ 9⟩ else none

def toJson (d : Duration) : Json :=
  .ofMembers [("secs", .ofNat d.seconds), ("nanos", .ofNat d.nanos)]

/-- Only the two known members are taken; the nanoseconds have 32 bits. -/
def ofJson? (j : Json) : Option Duration := do
  if let .object members := j then
    guard (members.length = 2)
  let [seconds, nanos] ← Json.fields? ["secs", "nanos"] j | none
  let seconds ← seconds.toNat?
  let nanos ← nanos.toNat?
  guard (nanos < 2 ^ 32)
  ofParts? seconds nanos

end Duration

structure Snapshot where
  counters : Counters
  elapsed : Duration
  throughput : Double
  deriving DecidableEq

namespace Snapshot

def errorRate (s : Snapshot) : Double := s.counters.errorRate

def jsonNames : List String := ["counters", "elapsed", "throughput_bytes_per_sec"]

def toJson (s : Snapshot) : Json :=
  .ofMembers (jsonNames.zip [s.counters.toJson, s.elapsed.toJson, .ofFloating .double s.throughput])

def ofJson? (j : Json) : Option Snapshot := do
  let [counters, elapsed, throughput] ← Json.fields? jsonNames j | none
  return ⟨← Counters.ofJson? counters, ← Duration.ofJson? elapsed, ← throughput.toDouble?⟩

def read? (text : String) : Option Snapshot := (Json.ofString? text).bind ofJson?

def render (s : Snapshot) : String := s.toJson.render

end Snapshot

end BinaryLayout
