import BinaryLayout.Codec.Settings

/-!
# Capabilities

What a machine offers to those who hand work to the codec.
-/

namespace BinaryLayout

inductive Capability
  /-- Byte buffers that are read and written in place. -/
  | binaryAccess
  /-- Integers of 64 bits without loss. -/
  | wideIntegers
  /-- More than one thread for workers. -/
  | parallelism
  deriving DecidableEq

structure Capabilities where
  binaryAccess : Bool
  wideIntegers : Bool
  hostOrder : ByteOrder
  /-- The threads there are for workers. -/
  parallelism : Nat
  deriving DecidableEq

namespace Capabilities

/-- What this machine offers, given its number of threads. -/
def host (threads : Nat) : Capabilities := ⟨true, true, .host, threads⟩

def supports (c : Capabilities) : Capability → Bool
  | .binaryAccess => c.binaryAccess
  | .wideIntegers => c.wideIntegers
  | .parallelism => 1 < c.parallelism

def toJson (c : Capabilities) : Json :=
  .ofMembers [("binary_io", .bool c.binaryAccess), ("wide_integers", .bool c.wideIntegers),
    ("host_order", .ofText c.hostOrder.jsonName), ("parallelism", .ofNat c.parallelism)]

def render (c : Capabilities) : String := c.toJson.render

end Capabilities

end BinaryLayout
