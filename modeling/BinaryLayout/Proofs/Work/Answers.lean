import BinaryLayout.Proofs.Work.Counting
import BinaryLayout.Proofs.Work.Draining

/-!
# Every request is answered once

What waits, or is with a worker, or has come as an answer under a ticket, belongs to the request
with that ticket, and every step keeps it so (`Sound.step`). Together with the places of the
requests that is all there is to a pool: under every schedule each request is in one place and gets
the answer it gets alone, once (`delivers_of_reachable`).
-/

namespace BinaryLayout

namespace Pool

variable {p q : Pool} {e : Event}

/-- What a worker has comes from the request with its ticket. -/
def Worker.Sound (codec : Codec) (requests : List Request) : Worker → Prop
  | .idle | .exited => True
  | .received ticket request => requests[ticket]? = some request
  | .processed ticket response counters => ∃ request, requests[ticket]? = some request ∧
    codec.process request .zero = (response, counters)
  | .merged ticket response => ∃ request, requests[ticket]? = some request ∧
    (codec.process request .zero).1 = response

theorem Worker.Sound.append {codec : Codec} {requests : List Request} {worker : Worker}
    (h : worker.Sound codec requests) (more : List Request) :
    worker.Sound codec (requests ++ more) := by
  cases worker with
  | received ticket request => exact getElem?_append_of_eq_some h more
  | processed ticket response counters =>
    obtain ⟨request, hr, hp⟩ := h
    exact ⟨request, getElem?_append_of_eq_some hr more, hp⟩
  | merged ticket response =>
    obtain ⟨request, hr, hp⟩ := h
    exact ⟨request, getElem?_append_of_eq_some hr more, hp⟩
  | _ => trivial

/-- What a pool has under a ticket comes from the request with that ticket alone. -/
structure Sound (codec : Codec) (requests : List Request) (p : Pool) : Prop where
  codec_eq : p.codec = codec
  length_replies : p.replies.length = requests.length
  queue : ∀ item ∈ p.queue, requests[item.1]? = some item.2
  workers : ∀ worker ∈ p.workers, worker.Sound codec requests
  response : ∀ ticket response, p.response? ticket = some response →
    ∃ request, requests[ticket]? = some request ∧ (codec.process request .zero).1 = response

variable {codec : Codec} {requests : List Request} {log : Log}

theorem Sound.worker (h : Sound codec requests p) {w : Nat} {worker : Worker}
    (hw : p.workers[w]? = some worker) : worker.Sound codec requests :=
  h.workers worker (List.mem_of_getElem? hw)

theorem Sound.set_worker (h : Sound codec requests p) {next : Worker}
    (hn : next.Sound codec requests) (w : Nat) :
    ∀ worker ∈ p.workers.set w next, worker.Sound codec requests := by
  intro worker hm
  rcases List.mem_or_eq_of_mem_set hm with hm | rfl
  · exact h.workers worker hm
  · exact hn

theorem Sound.response_step (h : Sound codec requests p) (hs : Step p e q) :
    ∀ ticket response, q.response? ticket = some response →
      ∃ request, requests[ticket]? = some request ∧ (codec.process request .zero).1 = response := by
  intro ticket response hr
  rcases hs.response? with ⟨-, hq⟩ | ⟨w, sent, answer, hw, -, -, hq⟩
  · exact h.response ticket response (by rwa [← hq])
  · rw [hq] at hr
    split at hr
    · rename_i heq
      cases hr
      rw [heq]
      exact h.worker hw
    · exact h.response ticket response hr

theorem sound_start (s : Settings) : Sound s.codec [] (start s) where
  codec_eq := rfl
  length_replies := rfl
  queue item hm := by cases hm
  workers worker hm := by
    rw [List.eq_of_mem_replicate hm]
    trivial
  response ticket response h := by simp [response?, start] at h

theorem Sound.step (h : Sound codec log.requests p) (hs : Step p e q) :
    Sound codec (log.add p e).requests q := by
  have hr := h.response_step hs
  cases hs with
  | submit request ho hd =>
    refine ⟨h.codec_eq, ?_, ?_, ?_, ?_⟩
    · simp [Log.add, h.length_replies]
    · intro item hm
      rcases List.mem_append.1 hm with hm | hm
      · exact getElem?_append_of_eq_some (h.queue item hm) _
      · rw [List.mem_singleton.1 hm, h.length_replies]
        simp [Log.add]
    · exact fun worker hm => (h.workers worker hm).append _
    · intro ticket response ha
      obtain ⟨request, hg, hp⟩ := hr ticket response ha
      exact ⟨request, getElem?_append_of_eq_some hg _, hp⟩
  | @receive w ticket request queue hw hq =>
    have hn : (Worker.received ticket request).Sound codec log.requests :=
      h.queue (ticket, request) (hq ▸ List.mem_cons_self)
    exact ⟨h.codec_eq, h.length_replies,
      fun item hm => h.queue item (hq ▸ List.mem_cons_of_mem _ hm), h.set_worker hn w, hr⟩
  | @process w ticket request hw =>
    have hn : (Worker.processed ticket (p.codec.process request .zero).1
        (p.codec.process request .zero).2).Sound codec log.requests :=
      ⟨request, h.worker hw, by rw [h.codec_eq]⟩
    exact ⟨h.codec_eq, h.length_replies, h.queue, h.set_worker hn w, hr⟩
  | @merge w ticket response counters hw =>
    obtain ⟨request, hg, hp⟩ := h.worker hw
    have hn : (Worker.merged ticket response).Sound codec log.requests :=
      ⟨request, hg, congrArg Prod.fst hp⟩
    exact ⟨h.codec_eq, h.length_replies, h.queue, h.set_worker hn w, hr⟩
  | @reply w ticket response reply next hw hi ha =>
    have hn : Worker.idle.Sound codec log.requests := trivial
    exact ⟨h.codec_eq, List.length_set.trans h.length_replies, h.queue, h.set_worker hn w, hr⟩
  | take hi => exact ⟨h.codec_eq, List.length_set.trans h.length_replies, h.queue, h.workers, hr⟩
  | abandon hi => exact ⟨h.codec_eq, List.length_set.trans h.length_replies, h.queue, h.workers, hr⟩
  | discard hi => exact ⟨h.codec_eq, List.length_set.trans h.length_replies, h.queue, h.workers, hr⟩
  | close ho => exact ⟨h.codec_eq, h.length_replies, h.queue, h.workers, hr⟩
  | @exit w hw ho hq =>
    have hn : Worker.exited.Sound codec log.requests := trivial
    exact ⟨h.codec_eq, h.length_replies, h.queue, h.set_worker hn w, hr⟩

/-! ## What is sent, and who leaves -/

/-- Every answer is sent once. -/
structure SentOnce (log : Log) (p : Pool) : Prop where
  nodup : log.sent.Nodup
  mem_iff : ∀ ticket, ticket ∈ log.sent ↔ ∃ response, p.response? ticket = some response

theorem sentOnce_start (s : Settings) : SentOnce .empty (start s) :=
  ⟨List.nodup_nil, fun ticket => by simp [Log.empty, response?, start]⟩

theorem SentOnce.step (h : SentOnce log p) (hs : Step p e q) : SentOnce (log.add p e) q := by
  rcases hs.response? with ⟨hl, hq⟩ | ⟨w, ticket, response, -, hn, hl, hq⟩
  · refine ⟨by rw [hl]; exact h.nodup, fun ticket => ?_⟩
    rw [hl, hq, h.mem_iff]
  · -- what was sent has arrived, and here nothing has
    have hnot : ticket ∉ log.sent := by
      rw [h.mem_iff, hn]
      rintro ⟨response, hr⟩
      cases hr
    refine ⟨?_, fun other => ?_⟩
    · rw [hl]
      exact (List.nodup_cons.2 ⟨hnot, h.nodup⟩).perm (List.perm_append_singleton _ _).symm
    · rw [hl, hq, List.mem_append, List.mem_singleton, h.mem_iff]
      by_cases heq : other = ticket
      · simp [heq]
      · simp [heq]

/-- A worker leaves only when nothing more can come. -/
structure Staffed (s : Settings) (p : Pool) : Prop where
  length_workers : p.workers.length = max s.workers 1
  exited : .exited ∈ p.workers → p.isOpen = false ∧ p.queue = []

theorem staffed_start (s : Settings) : Staffed s (start s) := by
  refine ⟨List.length_replicate, fun hm => ?_⟩
  cases List.eq_of_mem_replicate hm

theorem Staffed.step {s : Settings} (h : Staffed s p) (hs : Step p e q) : Staffed s q := by
  have keep {w : Nat} {next : Worker} (hn : next ≠ .exited) (hm : .exited ∈ p.workers.set w next) :
      p.isOpen = false ∧ p.queue = [] := by
    rcases List.mem_or_eq_of_mem_set hm with hm | heq
    · exact h.exited hm
    · exact absurd heq.symm hn
  cases hs with
  | submit request ho hd =>
    refine ⟨h.length_workers, fun hm => ?_⟩
    have := (h.exited hm).1
    rw [ho] at this
    cases this
  | receive hw hq =>
    refine ⟨List.length_set.trans h.length_workers, fun hm => ?_⟩
    have := (keep (by simp) hm).2
    rw [hq] at this
    cases this
  | close ho => exact ⟨h.length_workers, fun hm => ⟨rfl, (h.exited hm).2⟩⟩
  | exit hw ho hq =>
    exact ⟨List.length_set.trans h.length_workers, fun hm => ⟨ho, hq⟩⟩
  | process hw => exact ⟨List.length_set.trans h.length_workers, keep (by simp)⟩
  | merge hw => exact ⟨List.length_set.trans h.length_workers, keep (by simp)⟩
  | reply hw hr ha => exact ⟨List.length_set.trans h.length_workers, keep (by simp)⟩
  | _ => exact ⟨h.length_workers, h.exited⟩

theorem Staffed.ne_nil {s : Settings} (h : Staffed s p) : p.workers ≠ [] := by
  intro hn
  have hl := h.length_workers
  rw [hn, List.length_nil] at hl
  omega

/-! ## All schedules -/

variable {s : Settings}

theorem Reachable.placed (h : Reachable s p log) : Placed p := by
  induction h with
  | start => exact placed_start s
  | next _ hs ih => exact ih.step hs

theorem Reachable.sound (h : Reachable s p log) : Sound s.codec log.requests p := by
  induction h with
  | start => exact sound_start s
  | next _ hs ih => exact ih.step hs

theorem Reachable.sentOnce (h : Reachable s p log) : SentOnce log p := by
  induction h with
  | start => exact sentOnce_start s
  | next _ hs ih => exact ih.step hs

theorem Reachable.staffed (h : Reachable s p log) : Staffed s p := by
  induction h with
  | start => exact staffed_start s
  | next _ hs ih => exact ih.step hs

theorem inFlight_of_exited (hs : Staffed s p) (he : ∀ worker ∈ p.workers, worker = .exited) :
    p.inFlight = [] := by
  -- one worker that has left is enough for an empty queue
  obtain ⟨worker, hm⟩ := List.exists_mem_of_ne_nil _ hs.ne_nil
  have hq := (hs.exited (he worker hm ▸ hm)).2
  rw [inFlight, hq, List.map_nil, List.nil_append, List.filterMap_eq_nil_iff]
  intro worker hm
  rw [he worker hm]
  rfl

/-- What a pool owes the requests of its log. -/
structure Delivers (codec : Codec) (log : Log) (p : Pool) : Prop where
  /-- A request is in one place. -/
  existsUnique_place : ∀ ticket < log.requests.length, ∃! place, p.Has ticket place
  /-- Nothing is anywhere that was not handed in. -/
  lt_of_has : ∀ ticket place, p.Has ticket place → ticket < log.requests.length
  /-- What waits under a ticket is the request with that ticket. -/
  queued : ∀ ticket request, (ticket, request) ∈ p.queue → log.requests[ticket]? = some request
  /-- What a worker has under a ticket comes from that request. -/
  held : ∀ worker ∈ p.workers, worker.Sound codec log.requests
  /-- What has come under a ticket is the answer to that request alone. -/
  response : ∀ ticket response, p.response? ticket = some response →
    ∃ request, log.requests[ticket]? = some request ∧
      ∀ counters, (codec.process request counters).1 = response
  nodup_sent : log.sent.Nodup
  mem_sent_iff : ∀ ticket, ticket ∈ log.sent ↔ ∃ response, p.response? ticket = some response
  /-- A worker with an answer can always send it. -/
  exists_reply : ∀ w ticket response, p.workers[w]? = some (.merged ticket response) →
    ∃ q, p.step? (.reply w) = some q
  /-- After closing all workers can leave. -/
  exists_run_exited : p.isOpen = false →
    ∃ events q, p.run? events = some q ∧ ∀ worker ∈ q.workers, worker = .exited
  /-- When all workers have left, all is answered. -/
  answered_of_exited : (∀ worker ∈ p.workers, worker = .exited) →
    ∀ ticket < log.requests.length, ∃ response, p.response? ticket = some response

/-- Under every schedule every request is in one place, and gets its own answer, once; and after
closing every request can get it. -/
theorem delivers_of_reachable (h : Reachable s p log) : Delivers s.codec log p := by
  have hl := h.sound.length_replies
  refine ⟨fun ticket ht => ?_, fun ticket place hp => hl ▸ h.placed.lt_of_has hp,
    fun ticket request hm => h.sound.queue _ hm, h.sound.workers, fun ticket response hr => ?_,
    h.sentOnce.nodup, h.sentOnce.mem_iff, fun w ticket response hw => ?_,
    exists_run_exited h.placed, fun he ticket ht => ?_⟩
  · obtain ⟨place, hp⟩ := h.placed.exists_place (hl ▸ ht)
    exact ⟨place, hp, fun other ho => h.placed.place_unique ho hp⟩
  · obtain ⟨request, hg, hp⟩ := h.sound.response ticket response hr
    exact ⟨request, hg, fun counters => by rw [s.codec.process_fst, hp]⟩
  · obtain ⟨reply, next, hr, ha⟩ := exists_reply h.placed hw
    exact ⟨_, step?_eq_some_iff.2 (.reply hw hr ha)⟩
  · have hm := h.placed.mem_iff ticket
    rw [inFlight_of_exited h.staffed he, hl] at hm
    cases hr : p.response? ticket with
    | none => exact absurd (hm.2 ⟨ht, hr⟩) List.not_mem_nil
    | some response => exact ⟨response, rfl⟩

/-- Two requests and two workers: the first caller leaves, and the second request is answered
first. -/
theorem delivers_of_reachable_abandoned : ∃ p log, Reachable ⟨2, 1, .host⟩ p log ∧
    log = ⟨[.search [1, 2] ⟨[3]⟩ 0, .search [7, 8] ⟨[8]⟩ 0], [1, 0], [1, 0]⟩ ∧
    p.response? 1 = some ⟨[7, 8], .ok (.found (some 1))⟩ ∧
    (∃ response, p.response? 0 = some response) ∧ ∀ place, p.Has 0 place ↔ place = .discarded := by
  have h : Reachable ⟨2, 1, .host⟩ ⟨.host, 1, [], [.exited, .exited],
      [.discarded ⟨[1, 2], .ok (.found none)⟩, .taken ⟨[7, 8], .ok (.found (some 1))⟩],
      ⟨0, 0, 2, 0, 0, 0, 1, 0, 0⟩, false⟩
      ⟨[.search [1, 2] ⟨[3]⟩ 0, .search [7, 8] ⟨[8]⟩ 0], [1, 0], [1, 0]⟩ :=
    reachable_iff.2 ⟨[.submit (.search [1, 2] ⟨[3]⟩ 0), .receive 1, .abandon 0,
      .submit (.search [7, 8] ⟨[8]⟩ 0), .close, .receive 0, .process 0, .merge 0, .process 1,
      .reply 0, .take 1, .merge 1, .reply 1, .exit 0, .exit 1], rfl, rfl⟩
  have hd := delivers_of_reachable h
  refine ⟨_, _, h, rfl, rfl, hd.answered_of_exited (by simp) 0 (by decide), fun place => ?_⟩
  obtain ⟨other, -, hu⟩ := hd.existsUnique_place 0 (by decide)
  have h0 := hu .discarded (.replied rfl rfl)
  constructor
  · intro hp
    exact (hu place hp).trans h0.symm
  · rintro rfl
    exact .replied rfl rfl

end Pool

end BinaryLayout
