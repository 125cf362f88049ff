import BinaryLayout.Codec.Settings
import BinaryLayout.Work.Request

/-!
# A pool of workers

Callers put requests into a bounded queue, and workers take them out, answer them, add what they
counted to the shared totals, and only then hand the answer over. `Pool.step?` is one step of any of
them; a run is a sequence of steps, and every sequence that the steps allow is a schedule.
-/

namespace BinaryLayout

/-- How many workers a pool has and how many requests may wait for them. -/
structure Pool.Settings where
  workers : Nat
  queueDepth : Nat
  codec : Codec
  deriving DecidableEq

namespace Pool.Settings

def singleThreaded : Settings := ⟨1, 1, .host⟩

/-- One worker less than there are threads, but at least one, and four requests waiting for each. -/
def ofThreads (threads : Nat) : Settings :=
  let workers := max (threads - 1) 1
  ⟨workers, 4 * workers, .host⟩

/-- With at least one worker, and room in the queue for as many requests as there are workers. -/
def withWorkers (s : Settings) (workers : Nat) : Settings :=
  { s with workers := max workers 1, queueDepth := max s.queueDepth (max workers 1) }

def withCodec (s : Settings) (codec : Codec) : Settings := { s with codec }

end Pool.Settings

/-- A worker and the request it has, which goes by the number of its ticket. -/
inductive Pool.Worker
  | idle
  | received (ticket : Nat) (request : Request)
  | processed (ticket : Nat) (response : Response) (counters : Counters)
  | merged (ticket : Nat) (response : Response)
  | exited

/-- What the caller with a ticket has got. -/
inductive Pool.Reply
  | pending
  | answered (response : Response)
  | taken (response : Response)
  /-- The caller has left before the answer. -/
  | abandoned
  /-- The answer has come and nobody takes it. -/
  | discarded (response : Response)

structure Pool where
  codec : Codec
  depth : Nat
  queue : List (Nat × Request)
  workers : List Pool.Worker
  replies : List Pool.Reply
  totals : Counters
  isOpen : Bool

namespace Pool

inductive Event
  | submit (request : Request)
  | receive (worker : Nat)
  | process (worker : Nat)
  | merge (worker : Nat)
  | reply (worker : Nat)
  | take (ticket : Nat)
  | abandon (ticket : Nat)
  | close
  | exit (worker : Nat)

/-- A pool with nothing to do. -/
def start (s : Settings) : Pool where
  codec := s.codec
  depth := max s.queueDepth 1
  queue := []
  workers := List.replicate (max s.workers 1) .idle
  replies := []
  totals := .zero
  isOpen := true

/-- The answer arrives; the caller may have left. -/
def Reply.answer (response : Response) : Reply → Option Reply
  | .pending => some (.answered response)
  | .abandoned => some (.discarded response)
  | _ => none

/-- The pool after an event, if the event can happen. -/
def step? (p : Pool) : Event → Option Pool
  | .submit request =>
    if p.isOpen && p.queue.length < p.depth then
      some { p with
        queue := p.queue ++ [(p.replies.length, request)]
        replies := p.replies ++ [.pending] }
    else none
  | .receive w =>
    match p.workers[w]?, p.queue with
    | some .idle, (ticket, request) :: queue =>
      some { p with queue, workers := p.workers.set w (.received ticket request) }
    | _, _ => none
  | .process w =>
    match p.workers[w]? with
    | some (.received ticket request) =>
      let (response, counters) := p.codec.process request .zero
      some { p with workers := p.workers.set w (.processed ticket response counters) }
    | _ => none
  | .merge w =>
    match p.workers[w]? with
    | some (.processed ticket response counters) =>
      some { p with
        totals := p.totals.merge counters
        workers := p.workers.set w (.merged ticket response) }
    | _ => none
  | .reply w =>
    match p.workers[w]? with
    | some (.merged ticket response) =>
      (p.replies[ticket]?.bind (·.answer response)).map fun reply =>
        { p with
          replies := p.replies.set ticket reply
          workers := p.workers.set w .idle }
    | _ => none
  | .take ticket =>
    match p.replies[ticket]? with
    | some (.answered response) =>
      some { p with replies := p.replies.set ticket (.taken response) }
    | _ => none
  | .abandon ticket =>
    match p.replies[ticket]? with
    | some .pending => some { p with replies := p.replies.set ticket .abandoned }
    | some (.answered response) =>
      some { p with replies := p.replies.set ticket (.discarded response) }
    | _ => none
  | .close => if p.isOpen then some { p with isOpen := false } else none
  | .exit w =>
    match p.workers[w]? with
    | some .idle =>
      if !p.isOpen && p.queue.isEmpty then some { p with workers := p.workers.set w .exited }
      else none
    | _ => none

def run? (p : Pool) (events : List Event) : Option Pool := events.foldlM step? p

end Pool

end BinaryLayout
