import BinaryLayout.Work.Pool

/-!
# Calling a pool

A caller hands a request in, a worker has a full turn, and the caller takes the answer. Several
requests may be handed in before the first answer is taken. An answer is read as what its request
asks for.

This is one schedule, for a pool at rest (`Pool.AtRest`). `Pool.Calls` is a call under any schedule,
with a caller that waits for room in the queue and for the answer.
-/

namespace BinaryLayout

namespace Pool

/-- A worker takes the next request and hands its answer over. -/
def turn (worker : Nat) : List Event :=
  [.receive worker, .process worker, .merge worker, .reply worker]

/-- Hands a request in and lets a worker answer it; gives the number of the ticket. A caller of an
open pool that is busy or full would have to wait here; this schedule ends with an error instead,
and `Pool.Calls` is the call that waits. -/
def submit (p : Pool) (request : Request) : Except CodecError (Nat × Pool) :=
  let ticket := p.replies.length
  match p.run? (.submit request :: turn (ticket % p.workers.length)) with
  | some p => .ok (ticket, p)
  | none => .error (.transport "worker pool is shut down")

/-- Takes the answer to a ticket, if it has come. -/
def wait (p : Pool) (ticket : Nat) : Except CodecError (Response × Pool) :=
  match p.replies[ticket]?, p.step? (.take ticket) with
  | some (.answered response), some p => .ok (response, p)
  | _, _ => .error (.transport "worker dropped the request")

/-- A call to a pool at rest (`Pool.AtRest.exists_call`), one of the ways in which a call can go
(`Pool.calls_of_call`). -/
def call (p : Pool) (request : Request) : Except CodecError (Response × Pool) :=
  (p.submit request).bind fun (ticket, p) => p.wait ticket

/-- Hands all requests in, then takes the answers in order. -/
def callAll (p : Pool) (requests : List Request) : Except CodecError (List Response × Pool) := do
  let (tickets, p) ← requests.foldlM (fun (tickets, p) request => do
    let (ticket, p) ← submit p request
    return (tickets ++ [ticket], p)) (([] : List Nat), p)
  tickets.foldlM (fun (responses, p) ticket => do
    let (response, p) ← wait p ticket
    return (responses ++ [response], p)) ([], p)

/-- Calls, and reads the answer as one kind of result. -/
def ask {α : Type} (p : Pool) (request : Request) (read : Response → Except CodecError α) :
    Except CodecError α × Pool :=
  match p.call request with
  | .ok (response, p) => (read response, p)
  | .error e => (.error e, p)

/-- Reads a layout out of line and gives the buffer back. -/
def decode (p : Pool) (buffer : Bytes) (definition : Definition) (offset : Nat) :
    Except CodecError (Bytes × Decoded) × Pool :=
  p.ask (.decode buffer definition offset) Response.decoded

/-- Writes a record out of line; with an error the buffer is lost. -/
def encode (p : Pool) (buffer : Bytes) (definition : Definition) (record : Record)
    (offset : Nat) : Except CodecError Encoded × Pool :=
  p.ask (.encode buffer definition record offset) Response.encoded

/-- Searches out of line and gives the buffer back. -/
def search (p : Pool) (buffer : Bytes) (pattern : Pattern) (offset : Nat) :
    Except CodecError (Bytes × Option Nat) × Pool :=
  p.ask (.search buffer pattern offset) Response.found

end Pool

end BinaryLayout
