import BinaryLayout.Proofs.Work.Schedule
import Mathlib.Data.List.Perm.Basic

/-!
# Where requests are

The tickets in flight, waiting or with a worker, are just those without an answer, and none is there
twice. Every step keeps that (`Placed.step`): a new request joins them, an answer makes its ticket
leave, and all else only moves them about. So a request is in one place (`Placed.exists_place`,
`Placed.place_unique`).
-/

namespace BinaryLayout

open scoped List

theorem filterMap_cons_toList {α β : Type} (f : α → Option β) (a : α) (l : List α) :
    (a :: l).filterMap f = (f a).toList ++ l.filterMap f := by
  cases h : f a <;> simp [h]

/-- Replacing one item exchanges what it gives for what the new one gives. -/
theorem filterMap_set_perm {α β : Type} {f : α → Option β} {l : List α} {i : Nat} {a : α}
    (h : l[i]? = some a) (b : α) :
    (l.set i b).filterMap f ++ (f a).toList ~ l.filterMap f ++ (f b).toList := by
  obtain ⟨hi, rfl⟩ := List.getElem?_eq_some_iff.1 h
  have hs := (List.set_perm_cons_eraseIdx hi b).filterMap f
  have hl := (List.getElem_cons_eraseIdx_perm hi).symm.filterMap f
  rw [filterMap_cons_toList] at hs hl
  -- both lists are the rest and one item
  generalize (l.eraseIdx i).filterMap f = rest at hs hl
  calc (l.set i b).filterMap f ++ (f l[i]).toList
      _ ~ (f b).toList ++ rest ++ (f l[i]).toList := hs.append_right _
      _ ~ (f l[i]).toList ++ ((f b).toList ++ rest) := List.perm_append_comm
      _ ~ (f l[i]).toList ++ (rest ++ (f b).toList) := List.perm_append_comm.append_left _
      _ ~ l.filterMap f ++ (f b).toList := by
        rw [← List.append_assoc]
        exact hl.symm.append_right _

section Replacing

variable {α β : Type} {f : α → Option β} {l : List α} {i : Nat} {a b : α} {c : β}

theorem filterMap_set_of_eq (h : l[i]? = some a) (hb : f b = f a) :
    (l.set i b).filterMap f ~ l.filterMap f := by
  have hf := filterMap_set_perm (f := f) h b
  rwa [hb, List.perm_append_right_iff] at hf

theorem filterMap_set_of_none (h : l[i]? = some a) (ha : f a = none) (hb : f b = some c) :
    (l.set i b).filterMap f ~ l.filterMap f ++ [c] := by
  simpa [ha, hb] using filterMap_set_perm (f := f) h b

theorem filterMap_set_of_some (h : l[i]? = some a) (ha : f a = some c) (hb : f b = none) :
    (l.set i b).filterMap f ++ [c] ~ l.filterMap f := by
  simpa [ha, hb] using filterMap_set_perm (f := f) h b

end Replacing

/-- What occurs once is given by one index. -/
theorem index_eq_of_nodup_filterMap {α β : Type} {f : α → Option β} {l : List α}
    (h : (l.filterMap f).Nodup) {i j : Nat} {a b : α} {c : β} (hi : l[i]? = some a)
    (ha : f a = some c) (hj : l[j]? = some b) (hb : f b = some c) : i = j := by
  rw [List.Nodup, List.pairwise_filterMap, List.pairwise_iff_getElem] at h
  obtain ⟨hil, rfl⟩ := List.getElem?_eq_some_iff.1 hi
  obtain ⟨hjl, rfl⟩ := List.getElem?_eq_some_iff.1 hj
  rcases Nat.lt_trichotomy i j with hlt | heq | hgt
  · exact absurd rfl (h i j hil hjl hlt c ha c hb)
  · exact heq
  · exact absurd rfl (h j i hjl hil hgt c hb c ha)

theorem getElem?_append_of_eq_some {α : Type} {l : List α} {i : Nat} {a : α} (h : l[i]? = some a)
    (m : List α) : (l ++ m)[i]? = some a := by
  rw [List.getElem?_append_left (List.getElem?_eq_some_iff.1 h).1, h]

namespace Pool

variable {p q : Pool} {e : Event}

/-! ## Answers that have come -/

theorem lt_of_response? {ticket : Nat} {response : Response}
    (h : p.response? ticket = some response) : ticket < p.replies.length := by
  obtain ⟨reply, hr, -⟩ := Option.bind_eq_some_iff.1 h
  exact (List.getElem?_eq_some_iff.1 hr).1

theorem response?_of_getElem? {ticket : Nat} {reply : Reply} (h : p.replies[ticket]? = some reply) :
    p.response? ticket = reply.response? := by
  rw [response?, h, Option.bind_some]

theorem response?_of_append (hq : q.replies = p.replies ++ [.pending]) (ticket : Nat) :
    q.response? ticket = p.response? ticket := by
  rw [response?, response?, hq]
  rcases Nat.lt_trichotomy ticket p.replies.length with hlt | rfl | hgt
  · rw [List.getElem?_append_left hlt]
  · simp [Reply.response?]
  · rw [List.getElem?_eq_none (by simp; omega), List.getElem?_eq_none (by omega)]

theorem response?_of_set {ticket : Nat} {reply next : Reply} (hr : p.replies[ticket]? = some reply)
    (hq : q.replies = p.replies.set ticket next) (other : Nat) :
    q.response? other = if other = ticket then next.response? else p.response? other := by
  rw [response?, response?, hq]
  by_cases h : other = ticket
  · rw [if_pos h, h, List.getElem?_set_self (List.getElem?_eq_some_iff.1 hr).1, Option.bind_some]
  · rw [if_neg h, List.getElem?_set_ne (Ne.symm h)]

theorem response?_of_set_eq {ticket : Nat} {reply next : Reply}
    (hr : p.replies[ticket]? = some reply) (hq : q.replies = p.replies.set ticket next)
    (hn : next.response? = reply.response?) (other : Nat) :
    q.response? other = p.response? other := by
  rw [response?_of_set hr hq]
  split
  · rename_i h
    rw [h, hn, response?_of_getElem? hr]
  · rfl

/-- Only a worker that has merged its counts sends an answer, and it sends it to its ticket. -/
theorem Step.response? (h : Step p e q) :
    ((∀ log : Log, (log.add p e).sent = log.sent) ∧
      ∀ ticket, q.response? ticket = p.response? ticket) ∨
    ∃ (w ticket : Nat) (response : Response), p.workers[w]? = some (.merged ticket response) ∧
      p.response? ticket = none ∧ (∀ log : Log, (log.add p e).sent = log.sent ++ [ticket]) ∧
      ∀ other, q.response? other = if other = ticket then some response else p.response? other := by
  cases h with
  | submit request => exact .inl ⟨fun log => rfl, response?_of_append rfl⟩
  | reply hw hr ha =>
    obtain ⟨hn, hs⟩ := Reply.answer_eq_some ha
    refine .inr ⟨_, _, _, hw, ?_, fun log => ?_, fun other => ?_⟩
    · rw [response?_of_getElem? hr, hn]
    · simp [Log.add, ticketAt?, hw, Worker.ticket?]
    · rw [response?_of_set hr rfl, hs]
  | take hr => exact .inl ⟨fun log => rfl, response?_of_set_eq hr rfl rfl⟩
  | abandon hr => exact .inl ⟨fun log => rfl, response?_of_set_eq hr rfl rfl⟩
  | discard hr => exact .inl ⟨fun log => rfl, response?_of_set_eq hr rfl rfl⟩
  | _ => exact .inl ⟨fun log => rfl, fun ticket => rfl⟩

/-! ## Tickets in flight -/

/-- The tickets of the requests that wait or that a worker has. -/
def inFlight (p : Pool) : List Nat := p.queue.map Prod.fst ++ p.workers.filterMap Worker.ticket?

/-- The tickets in flight are those without an answer, each once. -/
structure Placed (p : Pool) : Prop where
  nodup : p.inFlight.Nodup
  mem_iff : ∀ ticket, ticket ∈ p.inFlight ↔
    ticket < p.replies.length ∧ p.response? ticket = none

theorem Placed.of_perm (h : Placed p) (hf : q.inFlight ~ p.inFlight)
    (hl : q.replies.length = p.replies.length)
    (hr : ∀ ticket, q.response? ticket = p.response? ticket) : Placed q := by
  refine ⟨hf.nodup_iff.2 h.nodup, fun ticket => ?_⟩
  rw [hf.mem_iff, h.mem_iff, hl, hr]

theorem placed_start (s : Settings) : Placed (start s) := by
  have hi : (start s).inFlight = [] := by simp [inFlight, start, Worker.ticket?]
  refine ⟨by rw [hi]; exact List.nodup_nil, fun ticket => ?_⟩
  rw [hi]
  simp [start]

/-- A worker that exchanges what it has for something under the same ticket moves no ticket. -/
theorem Placed.of_set_worker (h : Placed p) {w : Nat} {worker next : Worker}
    (hw : p.workers[w]? = some worker) (hqw : q.workers = p.workers.set w next)
    (hn : next.ticket? = worker.ticket?) (hqq : q.queue = p.queue) (hqr : q.replies = p.replies) :
    Placed q := by
  refine h.of_perm ?_ (by rw [hqr]) fun ticket => by rw [response?, response?, hqr]
  rw [inFlight, inFlight, hqq, hqw]
  exact (filterMap_set_of_eq hw hn).append_left _

theorem Placed.of_set_reply (h : Placed p) {ticket : Nat} {reply next : Reply}
    (hr : p.replies[ticket]? = some reply) (hqr : q.replies = p.replies.set ticket next)
    (hn : next.response? = reply.response?) (hqq : q.queue = p.queue)
    (hqw : q.workers = p.workers) : Placed q := by
  refine h.of_perm ?_ (by rw [hqr, List.length_set]) (response?_of_set_eq hr hqr hn)
  rw [inFlight, inFlight, hqq, hqw]

theorem Placed.of_join (h : Placed p) (hf : q.inFlight ~ p.replies.length :: p.inFlight)
    (hq : q.replies = p.replies ++ [.pending]) : Placed q := by
  have hn : p.replies.length ∉ p.inFlight := fun hm => Nat.lt_irrefl _ ((h.mem_iff _).1 hm).1
  have hr : p.response? p.replies.length = none := by
    rw [response?, List.getElem?_eq_none (Nat.le_refl _), Option.bind_none]
  have hl : q.replies.length = p.replies.length + 1 := by simp [hq]
  refine ⟨hf.nodup_iff.2 (List.nodup_cons.2 ⟨hn, h.nodup⟩), fun ticket => ?_⟩
  rw [hf.mem_iff, List.mem_cons, h.mem_iff, hl, response?_of_append hq]
  constructor
  · rintro (rfl | ⟨hlt, hnone⟩)
    · exact ⟨by omega, hr⟩
    · exact ⟨by omega, hnone⟩
  · rintro ⟨hlt, hnone⟩
    rcases Nat.lt_succ_iff_lt_or_eq.1 hlt with hlt | heq
    · exact .inr ⟨hlt, hnone⟩
    · exact .inl heq

theorem Placed.of_leave (h : Placed p) {ticket : Nat} {reply next : Reply} {response : Response}
    (hf : ticket :: q.inFlight ~ p.inFlight) (hr : p.replies[ticket]? = some reply)
    (hq : q.replies = p.replies.set ticket next) (hn : next.response? = some response) :
    Placed q := by
  obtain ⟨hnot, hd⟩ := List.nodup_cons.1 (hf.nodup_iff.2 h.nodup)
  have hl : q.replies.length = p.replies.length := by rw [hq, List.length_set]
  refine ⟨hd, fun other => ?_⟩
  have hm := (hf.mem_iff (a := other)).trans (h.mem_iff other)
  rw [response?_of_set hr hq, hl]
  by_cases heq : other = ticket
  · rw [if_pos heq, hn]
    simp [heq, hnot]
  · rw [if_neg heq, ← hm, List.mem_cons, or_iff_right heq]

theorem Placed.step (h : Placed p) (hs : Step p e q) : Placed q := by
  cases hs with
  | submit request ho hd =>
    refine h.of_join ?_ rfl
    simp only [inFlight, List.map_append, List.map_cons, List.map_nil, List.append_assoc,
      List.singleton_append]
    exact List.perm_middle
  | @receive w ticket request queue hw hq =>
    have hf : (p.workers.set w (.received ticket request)).filterMap Worker.ticket?
        ~ p.workers.filterMap Worker.ticket? ++ [ticket] := filterMap_set_of_none hw rfl rfl
    -- the ticket moves from the front of the queue to the end of the workers
    refine h.of_perm ?_ rfl fun _ => rfl
    simp only [inFlight, hq, List.map_cons, List.cons_append]
    refine (hf.append_left _).trans ?_
    rw [← List.append_assoc]
    exact List.perm_append_singleton _ _
  | @reply w ticket response reply next hw hr ha =>
    have hf : (p.workers.set w .idle).filterMap Worker.ticket? ++ [ticket]
        ~ p.workers.filterMap Worker.ticket? := filterMap_set_of_some hw rfl rfl
    refine h.of_leave ?_ hr rfl (Reply.answer_eq_some ha).2
    refine (List.perm_append_singleton _ _).symm.trans ?_
    simp only [inFlight, List.append_assoc]
    exact hf.append_left _
  | process hw => exact h.of_set_worker hw rfl rfl rfl rfl
  | merge hw => exact h.of_set_worker hw rfl rfl rfl rfl
  | take hr => exact h.of_set_reply hr rfl rfl rfl rfl
  | abandon hr => exact h.of_set_reply hr rfl rfl rfl rfl
  | discard hr => exact h.of_set_reply hr rfl rfl rfl rfl
  | close ho => exact h.of_perm (.refl _) rfl fun _ => rfl
  | exit hw ho hq => exact h.of_set_worker hw rfl rfl rfl rfl

/-! ## Places -/

/-- Where a request is. -/
inductive Place
  | queued (index : Nat)
  | held (worker : Nat)
  | answered
  /-- Answered, and the caller has left. -/
  | discarded

/-- Where the answer has gone. -/
def Reply.place? : Reply → Option Place
  | .pending | .abandoned => none
  | .answered _ | .taken _ => some .answered
  | .discarded _ => some .discarded

/-- The request with a ticket is at a place. -/
inductive Has (p : Pool) (ticket : Nat) : Place → Prop
  | queued {i : Nat} {request : Request} : p.queue[i]? = some (ticket, request) →
    Has p ticket (.queued i)
  | held {w : Nat} {worker : Worker} : p.workers[w]? = some worker →
    worker.ticket? = some ticket → Has p ticket (.held w)
  | replied {reply : Reply} {place : Place} : p.replies[ticket]? = some reply →
    reply.place? = some place → Has p ticket place

theorem mem_inFlight_of_queued {i ticket : Nat} {request : Request}
    (h : p.queue[i]? = some (ticket, request)) : ticket ∈ p.queue.map Prod.fst :=
  List.mem_map.2 ⟨_, List.mem_of_getElem? h, rfl⟩

theorem mem_inFlight_of_held {w ticket : Nat} {worker : Worker} (hw : p.workers[w]? = some worker)
    (ht : worker.ticket? = some ticket) : ticket ∈ p.workers.filterMap Worker.ticket? :=
  List.mem_filterMap.2 ⟨_, List.mem_of_getElem? hw, ht⟩

theorem Reply.exists_place {reply : Reply} {response : Response}
    (h : reply.response? = some response) : ∃ place, reply.place? = some place := by
  cases reply with
  | pending => cases h
  | abandoned => cases h
  | _ => exact ⟨_, rfl⟩

theorem Reply.exists_response {reply : Reply} {place : Place} (h : reply.place? = some place) :
    ∃ response, reply.response? = some response := by
  cases reply with
  | pending => cases h
  | abandoned => cases h
  | _ => exact ⟨_, rfl⟩

theorem Placed.not_mem_inFlight (h : Placed p) {ticket : Nat} {reply : Reply} {place : Place}
    (hr : p.replies[ticket]? = some reply) (hp : reply.place? = some place) :
    ticket ∉ p.inFlight := by
  intro hm
  obtain ⟨response, hs⟩ := Reply.exists_response hp
  have hn := ((h.mem_iff ticket).1 hm).2
  rw [response?_of_getElem? hr, hs] at hn
  cases hn

theorem Placed.place_unique (h : Placed p) {ticket : Nat} {a b : Place} (ha : p.Has ticket a)
    (hb : p.Has ticket b) : a = b := by
  obtain ⟨hq, hw, hd⟩ := List.nodup_append.1 h.nodup
  cases ha with
  | queued hi =>
    have hm := mem_inFlight_of_queued hi
    cases hb with
    | queued hj =>
      rw [← List.filterMap_eq_map] at hq
      rw [index_eq_of_nodup_filterMap hq hi rfl hj rfl]
    | held hw' ht => exact absurd rfl (hd _ hm _ (mem_inFlight_of_held hw' ht))
    | replied hr hp => exact absurd (List.mem_append_left _ hm) (h.not_mem_inFlight hr hp)
  | held hi hti =>
    have hm := mem_inFlight_of_held hi hti
    cases hb with
    | queued hj => exact absurd rfl (hd _ (mem_inFlight_of_queued hj) _ hm)
    | held hj htj => rw [index_eq_of_nodup_filterMap hw hi hti hj htj]
    | replied hr hp => exact absurd (List.mem_append_right _ hm) (h.not_mem_inFlight hr hp)
  | replied hr hp =>
    cases hb with
    | queued hj =>
      exact absurd (List.mem_append_left _ (mem_inFlight_of_queued hj)) (h.not_mem_inFlight hr hp)
    | held hj htj =>
      exact absurd (List.mem_append_right _ (mem_inFlight_of_held hj htj))
        (h.not_mem_inFlight hr hp)
    | replied hr' hp' =>
      rw [hr] at hr'
      cases hr'
      exact Option.some_inj.1 (hp.symm.trans hp')

theorem Placed.exists_place (h : Placed p) {ticket : Nat} (ht : ticket < p.replies.length) :
    ∃ place, p.Has ticket place := by
  cases hr : p.response? ticket with
  | none =>
    rcases List.mem_append.1 ((h.mem_iff ticket).2 ⟨ht, hr⟩) with hq | hw
    · obtain ⟨item, hm, rfl⟩ := List.mem_map.1 hq
      obtain ⟨i, hi⟩ := List.mem_iff_getElem?.1 hm
      exact ⟨_, .queued hi⟩
    · obtain ⟨worker, hm, hw⟩ := List.mem_filterMap.1 hw
      obtain ⟨w, hi⟩ := List.mem_iff_getElem?.1 hm
      exact ⟨_, .held hi hw⟩
  | some response =>
    obtain ⟨reply, hi, hs⟩ := Option.bind_eq_some_iff.1 hr
    obtain ⟨place, hp⟩ := Reply.exists_place hs
    exact ⟨place, .replied hi hp⟩

theorem Placed.lt_of_has (h : Placed p) {ticket : Nat} {place : Place} (hp : p.Has ticket place) :
    ticket < p.replies.length := by
  cases hp with
  | queued hi => exact ((h.mem_iff _).1 (List.mem_append_left _ (mem_inFlight_of_queued hi))).1
  | held hw ht => exact ((h.mem_iff _).1 (List.mem_append_right _ (mem_inFlight_of_held hw ht))).1
  | replied hr => exact (List.getElem?_eq_some_iff.1 hr).1

end Pool

end BinaryLayout
