import BinaryLayout.Proofs.Work.Answers

/-!
# What the totals count

The merged tickets are those sent and those a worker is about to send, each once, and the totals are
what their requests count one behind the other (`Counted.step`). The order of merging depends on the
schedule, and the totals do not: when all is answered they are those of the requests in any order
(`tallies_of_reachable`).
-/

namespace BinaryLayout

open scoped List

theorem filterMap_getElem?_range {α : Type} (l : List α) :
    (List.range l.length).filterMap (l[·]?) = l := by
  induction l using List.reverseRecOn with
  | nil => rfl
  | append_singleton l a ih =>
    rw [List.length_append, List.length_singleton, List.range_succ, List.filterMap_append]
    congr 1
    · rw [List.filterMap_congr fun i hi => List.getElem?_append_left (List.mem_range.1 hi), ih]
    · simp

namespace Pool

variable {p q : Pool} {e : Event} {codec : Codec} {log : Log} {s : Settings}

def Worker.mergedTicket? : Worker → Option Nat
  | .merged ticket _ => some ticket
  | _ => none

theorem Worker.ticket?_of_mergedTicket? {worker : Worker} {ticket : Nat}
    (h : worker.mergedTicket? = some ticket) : worker.ticket? = some ticket := by
  cases worker with
  | merged => exact h
  | _ => cases h

/-- The requests whose counts were merged, in that order. -/
def Log.mergedRequests (log : Log) : List Request := log.merged.filterMap (log.requests[·]?)

/-- What is merged is sent or about to be, and the totals are its counts. -/
structure Counted (codec : Codec) (log : Log) (p : Pool) : Prop where
  perm : log.merged ~ p.workers.filterMap Worker.mergedTicket? ++ log.sent
  totals : p.totals = codec.countAll log.mergedRequests

theorem counted_start (s : Settings) : Counted s.codec .empty (start s) := by
  refine ⟨?_, rfl⟩
  simp [Log.empty, start, Worker.mergedTicket?]

/-! ## Merged tickets -/

theorem mem_inFlight_of_mergedTicket {ticket : Nat}
    (h : ticket ∈ p.workers.filterMap Worker.mergedTicket?) : ticket ∈ p.inFlight := by
  obtain ⟨worker, hm, ht⟩ := List.mem_filterMap.1 h
  exact List.mem_append_right _
    (List.mem_filterMap.2 ⟨worker, hm, Worker.ticket?_of_mergedTicket? ht⟩)

theorem Counted.nodup_merged (h : Counted codec log p) (hp : Placed p) (hs : SentOnce log p) :
    log.merged.Nodup := by
  rw [h.perm.nodup_iff, List.nodup_append]
  refine ⟨?_, hs.nodup, fun ticket hm sent hn heq => ?_⟩
  · -- the merged tickets of the workers are some of those they have
    have hw := (List.nodup_append.1 hp.nodup).2.1
    rw [List.Nodup, List.pairwise_filterMap] at hw ⊢
    exact hw.imp fun hne t ht u hu =>
      hne t (Worker.ticket?_of_mergedTicket? ht) u (Worker.ticket?_of_mergedTicket? hu)
  · obtain ⟨response, hr⟩ := (hs.mem_iff sent).1 hn
    have hnone := ((hp.mem_iff ticket).1 (mem_inFlight_of_mergedTicket hm)).2
    rw [heq, hr] at hnone
    cases hnone

theorem Counted.merged_lt (h : Counted codec log p) (hp : Placed p) (hs : SentOnce log p) :
    ∀ ticket ∈ log.merged, ticket < p.replies.length := by
  intro ticket hm
  rcases List.mem_append.1 (h.perm.mem_iff.1 hm) with hm | hm
  · exact ((hp.mem_iff ticket).1 (mem_inFlight_of_mergedTicket hm)).1
  · obtain ⟨response, hr⟩ := (hs.mem_iff ticket).1 hm
    exact lt_of_response? hr

theorem Counted.merged_of_sent (h : Counted codec log p) {ticket : Nat} (hm : ticket ∈ log.sent) :
    ticket ∈ log.merged :=
  h.perm.mem_iff.2 (List.mem_append_right _ hm)

theorem Log.mergedRequests_submit (h : ∀ ticket ∈ log.merged, ticket < log.requests.length)
    (request : Request) :
    (log.add p (.submit request)).mergedRequests = log.mergedRequests :=
  List.filterMap_congr fun ticket hm => List.getElem?_append_left (h ticket hm)

theorem Log.mergedRequests_merge {w ticket : Nat} {request : Request}
    (hw : p.ticketAt? w = some ticket) (hr : log.requests[ticket]? = some request) :
    (log.add p (.merge w)).mergedRequests = log.mergedRequests ++ [request] := by
  simp [mergedRequests, add, hw, hr]

/-! ## Steps -/

theorem Counted.of_set_worker (h : Counted codec log p) {w : Nat} {worker next : Worker}
    (hw : p.workers[w]? = some worker) (hqw : q.workers = p.workers.set w next)
    (hn : next.mergedTicket? = worker.mergedTicket?) (hqt : q.totals = p.totals) :
    Counted codec log q := by
  have hf := (filterMap_set_of_eq hw hn).symm
  rw [← hqw] at hf
  exact ⟨h.perm.trans (hf.append_right _), hqt.trans h.totals⟩

theorem Counted.step (h : Counted codec log p) (hd : Sound codec log.requests p)
    (hm : ∀ ticket ∈ log.merged, ticket < log.requests.length) (hs : Step p e q) :
    Counted codec (log.add p e) q := by
  cases hs with
  | submit request => exact ⟨h.perm, by rw [Log.mergedRequests_submit hm, ← h.totals]⟩
  | @merge w ticket response counters hw =>
    have ht : p.ticketAt? w = some ticket := by simp [ticketAt?, hw, Worker.ticket?]
    obtain ⟨request, hr, hc⟩ := hd.worker hw
    refine ⟨?_, ?_⟩
    · have hf : (p.workers.set w (.merged ticket response)).filterMap Worker.mergedTicket?
          ~ p.workers.filterMap Worker.mergedTicket? ++ [ticket] := filterMap_set_of_none hw rfl rfl
      calc log.merged ++ (p.ticketAt? w).toList
          _ ~ p.workers.filterMap Worker.mergedTicket? ++ log.sent ++ [ticket] := by
            rw [ht]
            exact h.perm.append_right _
          _ ~ p.workers.filterMap Worker.mergedTicket? ++ [ticket] ++ log.sent := by
            rw [List.append_assoc, List.append_assoc]
            exact List.perm_append_comm.append_left _
          _ ~ (p.workers.set w (.merged ticket response)).filterMap Worker.mergedTicket?
              ++ log.sent := hf.symm.append_right _
    · -- every request is counted from zero, so the worker has the counts of this one alone
      have hcounts : codec.counts request = counters := congrArg Prod.snd hc
      rw [Log.mergedRequests_merge ht hr, Codec.countAll_concat, hcounts, ← h.totals]
  | @reply w ticket response reply next hw hr ha =>
    have ht : p.ticketAt? w = some ticket := by simp [ticketAt?, hw, Worker.ticket?]
    refine ⟨?_, h.totals⟩
    have hf : (p.workers.set w .idle).filterMap Worker.mergedTicket? ++ [ticket]
        ~ p.workers.filterMap Worker.mergedTicket? := filterMap_set_of_some hw rfl rfl
    calc log.merged
        _ ~ p.workers.filterMap Worker.mergedTicket? ++ log.sent := h.perm
        _ ~ (p.workers.set w .idle).filterMap Worker.mergedTicket? ++ [ticket] ++ log.sent :=
          hf.symm.append_right _
        _ ~ (p.workers.set w .idle).filterMap Worker.mergedTicket?
            ++ (log.sent ++ (p.ticketAt? w).toList) := by
          rw [ht, List.append_assoc]
          exact List.perm_append_comm.append_left _
  | receive hw => exact h.of_set_worker hw rfl rfl rfl
  | process hw => exact h.of_set_worker hw rfl rfl rfl
  | exit hw => exact h.of_set_worker hw rfl rfl rfl
  | _ => exact ⟨h.perm, h.totals⟩

theorem Reachable.counted (h : Reachable s p log) : Counted s.codec log p := by
  induction h with
  | start => exact counted_start s
  | @next p q log e hr hs ih =>
    -- a ticket that was not handed in would change what is counted when its request comes
    refine ih.step hr.sound (fun ticket hm => ?_) hs
    rw [← hr.sound.length_replies]
    exact ih.merged_lt hr.placed hr.sentOnce ticket hm

/-! ## All schedules -/

theorem Log.mergedRequests_perm (hn : log.merged.Nodup)
    (hm : ∀ ticket, ticket ∈ log.merged ↔ ticket < log.requests.length) :
    log.mergedRequests ~ log.requests := by
  have hp : log.merged ~ List.range log.requests.length :=
    (List.perm_ext_iff_of_nodup hn List.nodup_range).2 fun ticket => by rw [hm, List.mem_range]
  have hf := hp.filterMap (log.requests[·]?)
  rwa [filterMap_getElem?_range] at hf

/-- What the totals of a pool say of the requests of its log. -/
structure Tallies (codec : Codec) (log : Log) (p : Pool) : Prop where
  nodup_merged : log.merged.Nodup
  merged_lt : ∀ ticket ∈ log.merged, ticket < log.requests.length
  /-- Each counter is the sum of what the merged requests count alone. -/
  field_totals : ∀ field ∈ Counters.fields, field p.totals
    = (log.mergedRequests.map fun request => field (codec.process request .zero).2).sum
  merged_of_sent : ∀ ticket ∈ log.sent, ticket ∈ log.merged
  merged_of_response : ∀ ticket response, p.response? ticket = some response →
    ticket ∈ log.merged
  /-- When all is answered, the order of the requests makes no difference. -/
  totals_of_answered : (∀ ticket < log.requests.length, ∃ response,
    p.response? ticket = some response) →
      ∀ requests, requests ~ log.requests → p.totals = codec.countAll requests

/-- Under every schedule the totals count every request that was merged, once, and every request
that was answered is one of these. -/
theorem tallies_of_reachable (h : Reachable s p log) : Tallies s.codec log p := by
  have hc := h.counted
  have hn := hc.nodup_merged h.placed h.sentOnce
  have hlt : ∀ ticket ∈ log.merged, ticket < log.requests.length :=
    h.sound.length_replies ▸ hc.merged_lt h.placed h.sentOnce
  have hr : ∀ ticket response, p.response? ticket = some response → ticket ∈ log.merged :=
    fun ticket response hr => hc.merged_of_sent ((h.sentOnce.mem_iff ticket).2 ⟨response, hr⟩)
  refine ⟨hn, hlt, fun field hf => ?_, fun ticket => hc.merged_of_sent, hr,
    fun ha requests ho => ?_⟩
  · rw [hc.totals]
    exact s.codec.field_countAll log.mergedRequests field hf
  · have hp : log.mergedRequests ~ log.requests := Log.mergedRequests_perm hn fun ticket =>
      ⟨hlt ticket, fun ht => (ha ticket ht).elim (hr ticket)⟩
    rw [hc.totals]
    exact s.codec.countAll_perm (hp.trans ho.symm)

/-- The first caller leaves, the second request is merged first, and the totals are those of either
order. -/
theorem tallies_of_reachable_abandoned : ∃ p log, Reachable ⟨2, 2, .host⟩ p log ∧
    log.merged = [1, 0] ∧ p.response? 0 = some ⟨[7, 8], .ok (.found (some 1))⟩ ∧ 0 ∈ log.merged ∧
    Codec.countAll .host [.decode [1] (.ofList []) 0, .search [7, 8] ⟨[8]⟩ 0]
      = ⟨1, 0, 1, 0, 0, 0, 1, 0, 0⟩ := by
  have h : Reachable ⟨2, 2, .host⟩ ⟨.host, 2, [], [.idle, .idle],
      [.discarded ⟨[7, 8], .ok (.found (some 1))⟩, .taken ⟨[1], .ok (.decoded ⟨.empty, 0, false⟩)⟩],
      ⟨1, 0, 1, 0, 0, 0, 1, 0, 0⟩, true⟩
      ⟨[.search [7, 8] ⟨[8]⟩ 0, .decode [1] (.ofList []) 0], [1, 0], [1, 0]⟩ :=
    reachable_iff.2 ⟨[.submit (.search [7, 8] ⟨[8]⟩ 0), .submit (.decode [1] (.ofList []) 0),
      .receive 1, .process 1, .receive 0, .abandon 0, .process 0, .merge 0, .reply 0, .merge 1,
      .take 1, .reply 1], rfl, rfl⟩
  have ht := tallies_of_reachable h
  refine ⟨_, _, h, rfl, rfl, ht.merged_of_response 0 _ rfl, ?_⟩
  refine (ht.totals_of_answered (fun ticket hlt => ?_) _ (List.Perm.swap _ _ _)).symm
  match ticket, hlt with
  | 0, _ => exact ⟨_, rfl⟩
  | 1, _ => exact ⟨_, rfl⟩

end Pool

end BinaryLayout
