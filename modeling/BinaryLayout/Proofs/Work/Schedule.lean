import BinaryLayout.Work.Pool

/-!
# Schedules of a pool

`Step` says of every event when it can happen and what it changes, and it is what a pool computes
(`step?_eq_some_iff`). A schedule is any chain of steps from a pool with nothing to do. Its log
keeps what the pool forgets: the requests in the order of their tickets, and the tickets whose
counts were merged and whose answers were sent, in the order in which that happened.
-/

namespace BinaryLayout

namespace Pool

/-- The ticket of the request a worker has. -/
def Worker.ticket? : Worker → Option Nat
  | .idle | .exited => none
  | .received ticket _ | .processed ticket _ _ | .merged ticket _ => some ticket

/-- The answer that has come, taken or not. -/
def Reply.response? : Reply → Option Response
  | .pending | .abandoned => none
  | .answered response | .taken response | .discarded response => some response

theorem Reply.answer_eq_some {response : Response} {reply next : Reply}
    (h : reply.answer response = some next) :
    reply.response? = none ∧ next.response? = some response := by
  cases reply with
  | pending =>
    cases h
    exact ⟨rfl, rfl⟩
  | abandoned =>
    cases h
    exact ⟨rfl, rfl⟩
  | _ => cases h

theorem Reply.exists_answer {reply : Reply} (h : reply.response? = none) (response : Response) :
    ∃ next, reply.answer response = some next := by
  cases reply with
  | pending => exact ⟨_, rfl⟩
  | abandoned => exact ⟨_, rfl⟩
  | _ => cases h

/-- The answer that has come to a ticket. -/
def response? (p : Pool) (ticket : Nat) : Option Response :=
  p.replies[ticket]?.bind Reply.response?

/-- The ticket of the request the worker with an index has. -/
def ticketAt? (p : Pool) (w : Nat) : Option Nat := p.workers[w]?.bind Worker.ticket?

/-- One event and what it changes. -/
inductive Step (p : Pool) : Event → Pool → Prop
  | submit (request : Request) : p.isOpen = true → p.queue.length < p.depth →
    Step p (.submit request) { p with
      queue := p.queue ++ [(p.replies.length, request)]
      replies := p.replies ++ [.pending] }
  | receive {w ticket : Nat} {request : Request} {queue : List (Nat × Request)} :
    p.workers[w]? = some .idle → p.queue = (ticket, request) :: queue →
    Step p (.receive w) { p with queue, workers := p.workers.set w (.received ticket request) }
  | process {w ticket : Nat} {request : Request} :
    p.workers[w]? = some (.received ticket request) →
    Step p (.process w) { p with
      workers := p.workers.set w (.processed ticket (p.codec.process request .zero).1
        (p.codec.process request .zero).2) }
  | merge {w ticket : Nat} {response : Response} {counters : Counters} :
    p.workers[w]? = some (.processed ticket response counters) →
    Step p (.merge w) { p with
      totals := p.totals.merge counters
      workers := p.workers.set w (.merged ticket response) }
  | reply {w ticket : Nat} {response : Response} {reply next : Reply} :
    p.workers[w]? = some (.merged ticket response) → p.replies[ticket]? = some reply →
    reply.answer response = some next →
    Step p (.reply w) { p with
      replies := p.replies.set ticket next
      workers := p.workers.set w .idle }
  | take {ticket : Nat} {response : Response} :
    p.replies[ticket]? = some (.answered response) →
    Step p (.take ticket) { p with replies := p.replies.set ticket (.taken response) }
  | abandon {ticket : Nat} : p.replies[ticket]? = some .pending →
    Step p (.abandon ticket) { p with replies := p.replies.set ticket .abandoned }
  | discard {ticket : Nat} {response : Response} :
    p.replies[ticket]? = some (.answered response) →
    Step p (.abandon ticket) { p with replies := p.replies.set ticket (.discarded response) }
  | close : p.isOpen = true → Step p .close { p with isOpen := false }
  | exit {w : Nat} : p.workers[w]? = some .idle → p.isOpen = false → p.queue = [] →
    Step p (.exit w) { p with workers := p.workers.set w .exited }

theorem step_of_step? {p q : Pool} {e : Event} (h : p.step? e = some q) : Step p e q := by
  cases e with
  | submit request =>
    simp only [step?, Option.ite_none_right_eq_some, Bool.and_eq_true, decide_eq_true_eq,
      Option.some.injEq] at h
    obtain ⟨⟨ho, hd⟩, rfl⟩ := h
    exact .submit request ho hd
  | receive w =>
    simp only [step?] at h
    split at h
    · rename_i hw hq
      cases h
      exact .receive hw hq
    · cases h
  | process w =>
    simp only [step?] at h
    split at h
    · rename_i hw
      cases h
      exact .process hw
    · cases h
  | merge w =>
    simp only [step?] at h
    split at h
    · rename_i hw
      cases h
      exact .merge hw
    · cases h
  | reply w =>
    simp only [step?] at h
    split at h
    · rename_i hw
      obtain ⟨next, hn, rfl⟩ := Option.map_eq_some_iff.1 h
      obtain ⟨reply, hr, ha⟩ := Option.bind_eq_some_iff.1 hn
      exact .reply hw hr ha
    · cases h
  | take ticket =>
    simp only [step?] at h
    split at h
    · rename_i hr
      cases h
      exact .take hr
    · cases h
  | abandon ticket =>
    simp only [step?] at h
    split at h
    · rename_i hr
      cases h
      exact .abandon hr
    · rename_i hr
      cases h
      exact .discard hr
    · cases h
  | close =>
    simp only [step?, Option.ite_none_right_eq_some, Option.some.injEq] at h
    obtain ⟨ho, rfl⟩ := h
    exact .close ho
  | exit w =>
    simp only [step?] at h
    split at h
    · rename_i hw
      simp only [Option.ite_none_right_eq_some, Bool.and_eq_true, Bool.not_eq_true',
        List.isEmpty_iff, Option.some.injEq] at h
      obtain ⟨⟨ho, hq⟩, rfl⟩ := h
      exact .exit hw ho hq
    · cases h

theorem step?_eq_some_iff {p q : Pool} {e : Event} : p.step? e = some q ↔ Step p e q := by
  refine ⟨step_of_step?, fun h => ?_⟩
  cases h with
  | submit request ho hd => simp [step?, ho, hd]
  | receive hw hq => simp [step?, hw, hq]
  | process hw => simp [step?, hw]
  | merge hw => simp [step?, hw]
  | reply hw hr ha => simp [step?, hw, hr, ha]
  | take hr => simp [step?, hr]
  | abandon hr => simp [step?, hr]
  | discard hr => simp [step?, hr]
  | close ho => simp [step?, ho]
  | exit hw ho hq => simp [step?, hw, ho, hq]

/-! ## Logs -/

structure Log where
  /-- The requests handed in; the one with index `n` has ticket `n`. -/
  requests : List Request
  /-- The tickets whose counts were added to the totals. -/
  merged : List Nat
  /-- The tickets whose answers were sent. -/
  sent : List Nat

namespace Log

def empty : Log := ⟨[], [], []⟩

/-- The log with an event that happens to a pool. -/
def add (log : Log) (p : Pool) : Event → Log
  | .submit request => { log with requests := log.requests ++ [request] }
  | .merge w => { log with merged := log.merged ++ (p.ticketAt? w).toList }
  | .reply w => { log with sent := log.sent ++ (p.ticketAt? w).toList }
  | _ => log

/-- The log with the events of a run from a pool. -/
def addRun (log : Log) (p : Pool) : List Event → Log
  | [] => log
  | e :: es => match p.step? e with
    | some q => addRun (log.add p e) q es
    | none => log

end Log

/-- A schedule leads to a pool, and has a log. -/
inductive Reachable (s : Settings) : Pool → Log → Prop
  | start : Reachable s (start s) .empty
  | next {p q : Pool} {log : Log} {e : Event} : Reachable s p log → Step p e q →
    Reachable s q (log.add p e)

variable {s : Settings} {p q : Pool} {log : Log}

theorem run?_cons (p : Pool) (e : Event) (es : List Event) :
    p.run? (e :: es) = (p.step? e).bind (·.run? es) := rfl

theorem Reachable.run : ∀ {events : List Event} {p : Pool} {log : Log},
    Reachable s p log → p.run? events = some q → Reachable s q (log.addRun p events)
  | [], p, log, hp, h => by
    cases h
    exact hp
  | e :: es, p, log, hp, h => by
    rw [run?_cons] at h
    obtain ⟨r, hr, hq⟩ := Option.bind_eq_some_iff.1 h
    rw [Log.addRun, hr]
    exact (hp.next (step_of_step? hr)).run hq

theorem Log.addRun_append : ∀ {events : List Event} {p : Pool} {log : Log},
    p.run? events = some q →
      ∀ more, log.addRun p (events ++ more) = (log.addRun p events).addRun q more
  | [], p, log, h, more => by
    cases h
    rfl
  | e :: es, p, log, h, more => by
    rw [run?_cons] at h
    obtain ⟨r, hr, hq⟩ := Option.bind_eq_some_iff.1 h
    rw [List.cons_append, addRun, addRun, hr]
    exact addRun_append hq more

/-- What can be reached, and with which log, is what the runs from the start give. -/
theorem reachable_iff : Reachable s p log ↔
    ∃ events, (start s).run? events = some p ∧ Log.empty.addRun (start s) events = log := by
  constructor
  · intro h
    induction h with
    | start => exact ⟨[], rfl, rfl⟩
    | @next p q log e _ hs ih =>
      obtain ⟨events, hr, hl⟩ := ih
      have he := step?_eq_some_iff.2 hs
      refine ⟨events ++ [e], ?_, ?_⟩
      · rw [run?, List.foldlM_append, ← run?, hr]
        simp [he]
      · rw [Log.addRun_append hr, hl]
        simp [Log.addRun, he]
  · rintro ⟨events, hr, rfl⟩
    exact Reachable.start.run hr

end Pool

end BinaryLayout
