import BinaryLayout.Proofs.Codec.Refusal
import BinaryLayout.Proofs.Work.Answers
import BinaryLayout.Work.Call

/-!
# Out of line as in place

A worker answers a request with what the codec gives in place, and with the buffer that leaves
(`direct_process`); read back, the answer is just that (`Direct.encoded`). A call hands its request
in when there is room and takes the answer when it has come, and whatever else happens before and in
between, the answer is that of the codec of the pool (`Calls.direct`). A pool that is not closed can
come to rest (`exists_run_atRest`), and then it answers at once (`AtRest.exists_call`); so no call
has to go without an answer.
-/

namespace BinaryLayout

namespace Codec

variable {codec : Codec}

/-- What a codec gives for a request in place, and the buffer it leaves. -/
inductive Direct (codec : Codec) : Request → Response → Prop
  | decode (buffer : Bytes) (definition : Definition) (offset : Nat) :
    Direct codec (.decode buffer definition offset)
      ⟨buffer, .ok (.decoded (codec.decode buffer definition offset))⟩
  | encode {buffer out : Bytes} {definition : Definition} {record : Record} {offset : Nat}
    {progress : Progress} :
    codec.encodeInto buffer definition record offset = (out, .ok progress) →
    Direct codec (.encode buffer definition record offset) ⟨out, .ok (.encoded progress)⟩
  | refuse {buffer : Bytes} {definition : Definition} {record : Record} {offset : Nat}
    {e : CodecError} :
    codec.encodeInto buffer definition record offset = (buffer, .error e) →
    Direct codec (.encode buffer definition record offset) ⟨buffer, .error e⟩
  | search (buffer : Bytes) (pattern : Pattern) (offset : Nat) :
    Direct codec (.search buffer pattern offset)
      ⟨buffer, .ok (.found (pattern.search buffer offset))⟩

/-- A refused record leaves the buffer that was handed in. -/
theorem buffer_eq_of_encodeInto {buffer out : Bytes} {definition : Definition} {record : Record}
    {offset : Nat} {e : CodecError}
    (h : codec.encodeInto buffer definition record offset = (out, .error e)) : out = buffer := by
  have hv := codec.encodeInto_eq_error_iff.1 (congrArg Prod.snd h)
  have hi := (codec.encode_of_refused hv buffer offset).1
  exact congrArg Prod.fst (h.symm.trans hi)

theorem direct_process (codec : Codec) (request : Request) (counters : Counters) :
    codec.Direct request (codec.process request counters).1 := by
  cases request with
  | decode buffer definition offset => exact .decode buffer definition offset
  | search buffer pattern offset => exact .search buffer pattern offset
  | encode buffer definition record offset =>
    rcases h : codec.encodeInto buffer definition record offset with ⟨out, e | progress⟩
    · have hb := buffer_eq_of_encodeInto h
      subst hb
      simp only [process, h]
      exact .refuse h
    · simp only [process, h]
      exact .encode h

/-- What a request is answered is of its kind. -/
theorem Direct.kind_eq {request : Request} {response : Response} {outcome : Outcome}
    (h : codec.Direct request response) (ho : response.outcome = .ok outcome) :
    outcome.kind = request.kind := by
  cases h with
  | refuse => cases ho
  | _ =>
    cases ho
    rfl

section Reading

variable {buffer : Bytes} {definition : Definition} {record : Record} {pattern : Pattern}
  {offset : Nat} {response : Response}

theorem Direct.decoded (h : codec.Direct (.decode buffer definition offset) response) :
    response.decoded = .ok (buffer, codec.decode buffer definition offset) := by
  cases h
  rfl

theorem Direct.encoded (h : codec.Direct (.encode buffer definition record offset) response) :
    response.encoded = codec.encode buffer definition record offset := by
  cases h with
  | encode hi =>
    rw [Codec.encode, hi]
    rfl
  | refuse hi =>
    rw [Codec.encode, hi]
    rfl

theorem Direct.found (h : codec.Direct (.search buffer pattern offset) response) :
    response.found = .ok (buffer, pattern.search buffer offset) := by
  cases h
  rfl

/-- A record is refused for a field, and for nothing on the way. -/
theorem encode_ne_transport (codec : Codec) (buffer : Bytes) (definition : Definition)
    (record : Record) (offset : Nat) (text : String) :
    codec.encode buffer definition record offset ≠ .error (.transport text) := by
  intro h
  cases hv : valuesFor record definition.fields with
  | ok values =>
    rw [encode, encodeInto, hv] at h
    cases h
  | error e =>
    rw [(codec.encode_of_refused hv buffer offset).2.1] at h
    cases h
    obtain ⟨before, field, after, -, -, hr⟩ := exists_refuses_of_valuesFor hv
    cases hr

end Reading

end Codec

namespace Pool

variable {s : Settings} {p q : Pool} {log : Log} {e : Event} {request : Request}
  {response : Response}

/-! ## Calls -/

/-- A call: its request is handed in once there is room, and the answer is taken once it has come.
Other events may happen before and in between. -/
inductive Calls (p : Pool) (request : Request) (response : Response) (q : Pool) : Prop
  | mk (before during : List Event) (ready sent done : Pool) :
    p.run? before = some ready → Step ready (.submit request) sent →
    sent.run? during = some done →
    done.replies[ready.replies.length]? = some (.answered response) →
    Step done (.take ready.replies.length) q → Calls p request response q

theorem Log.getElem?_requests_add {ticket : Nat} (h : log.requests[ticket]? = some request)
    (p : Pool) (e : Event) : (log.add p e).requests[ticket]? = some request := by
  cases e with
  | submit other => exact getElem?_append_of_eq_some h [other]
  | _ => exact h

/-- The request of a ticket stays what it is. -/
theorem Log.getElem?_requests_addRun {ticket : Nat} : ∀ {events : List Event} {p : Pool}
    {log : Log}, log.requests[ticket]? = some request →
      (log.addRun p events).requests[ticket]? = some request
  | [], p, log, h => h
  | e :: es, p, log, h => by
    rw [addRun]
    split
    · exact getElem?_requests_addRun (getElem?_requests_add h p e)
    · exact h

theorem Calls.exists_reachable (hc : p.Calls request response q) (h : Reachable s p log) :
    ∃ log, Reachable s q log := by
  obtain ⟨before, during, ready, sent, done, hb, hs, hd, -, ht⟩ := hc
  exact ⟨_, (((h.run hb).next hs).run hd).next ht⟩

/-- The answer is that of the codec of the pool to the request that was handed in. -/
theorem Calls.direct (hc : p.Calls request response q) (h : Reachable s p log) :
    s.codec.Direct request response := by
  obtain ⟨before, during, ready, sent, done, hb, hs, hd, ha, -⟩ := hc
  have hready := h.run hb
  have hl := hready.sound.length_replies
  -- the ticket is the place of the request in the log, and stays so until the answer has come
  have hr : ((log.addRun p before).add ready (.submit request)).requests[ready.replies.length]?
      = some request := by simp [Log.add, hl]
  have hdone := (hready.next hs).run hd
  obtain ⟨other, ho, hp⟩ := hdone.sound.response ready.replies.length response
    (response?_of_getElem? ha)
  rw [Log.getElem?_requests_addRun hr] at ho
  cases ho
  rw [← hp]
  exact s.codec.direct_process request .zero

theorem Calls.of_run {events : List Event} {next : Pool} (hr : p.run? events = some next)
    (h : next.Calls request response q) : p.Calls request response q := by
  obtain ⟨before, during, ready, sent, done, hb, hs, hd, ha, ht⟩ := h
  refine ⟨events ++ before, during, ready, sent, done, ?_, hs, hd, ha, ht⟩
  rw [run?, List.foldlM_append, ← run?, hr]
  exact hb

/-- Giving one worker a turn is one of the ways in which a call can go. -/
theorem calls_of_call (h : p.call request = .ok (response, q)) : p.Calls request response q := by
  simp only [call, submit] at h
  split at h
  · rename_i done hr
    rw [run?_cons] at hr
    obtain ⟨sent, hs, hd⟩ := Option.bind_eq_some_iff.1 hr
    simp only [Except.bind, wait] at h
    split at h
    · rename_i ha ht
      cases h
      exact ⟨[], _, p, sent, done, rfl, step_of_step? hs, hd, ha, step_of_step? ht⟩
    · cases h
  · cases h

/-! ## Coming to rest -/

/-- A schedule has led to a pool that is not closed, and there is nothing to do. -/
structure AtRest (s : Settings) (p : Pool) : Prop where
  reachable : ∃ log, Reachable s p log
  isOpen : p.isOpen = true
  queue : p.queue = []
  workers : ∀ worker ∈ p.workers, worker = .idle

theorem atRest_start (s : Settings) : AtRest s (start s) :=
  ⟨⟨_, .start⟩, rfl, rfl, fun _ hm => List.eq_of_mem_replicate hm⟩

/-- While a pool is not at rest, a worker can go on. -/
theorem exists_step_of_not_atRest (h : Reachable s p log) (ho : p.isOpen = true)
    (hn : ¬AtRest s p) : ∃ e q, Step p e q ∧ q.isOpen = true ∧ q.stepsLeft + 1 = p.stepsLeft := by
  have hb : ∃ worker ∈ p.workers, worker ≠ .idle ∨ p.queue ≠ [] := by
    by_cases hq : p.queue = []
    · by_contra hw
      push Not at hw
      exact hn ⟨⟨log, h⟩, ho, hq, fun worker hm => (hw worker hm).1⟩
    · obtain ⟨worker, hm⟩ := List.exists_mem_of_ne_nil _ h.staffed.ne_nil
      exact ⟨worker, hm, .inr hq⟩
  obtain ⟨worker, hm, hb⟩ := hb
  obtain ⟨w, hw⟩ := List.mem_iff_getElem?.1 hm
  -- nobody leaves a pool that is not closed
  have hx : worker ≠ .exited := by
    rintro rfl
    exact absurd ((h.staffed.exited hm).1.symm.trans ho) (by decide)
  obtain ⟨e, q, hs, hq, hl⟩ := exists_step_of_busy h.placed hw hx hb
  exact ⟨e, q, hs, hq.trans ho, hl⟩

theorem exists_run_atRest (h : Reachable s p log) (ho : p.isOpen = true) :
    ∃ events q, p.run? events = some q ∧ AtRest s q := by
  have hs : ∀ p : Pool, ((∃ log, Reachable s p log) ∧ p.isOpen = true) → ¬AtRest s p →
      ∃ e q, Step p e q ∧ ((∃ log, Reachable s q log) ∧ q.isOpen = true) ∧
        q.stepsLeft + 1 = p.stepsLeft := by
    rintro p ⟨⟨log, hp⟩, hpo⟩ hn
    obtain ⟨e, q, hstep, hq, hl⟩ := exists_step_of_not_atRest hp hpo hn
    exact ⟨e, q, hstep, ⟨⟨_, hp.next hstep⟩, hq⟩, hl⟩
  obtain ⟨events, q, hr, -, hq⟩ := exists_run_of_exists_step hs ⟨⟨log, h⟩, ho⟩
  exact ⟨events, q, hr, hq⟩

theorem Step.depth_eq (h : Step p e q) : q.depth = p.depth := by
  cases h <;> rfl

/-- A queue has room for one request at least. -/
theorem Reachable.depth_pos (h : Reachable s p log) : 0 < p.depth := by
  induction h with
  | start => exact Nat.lt_of_lt_of_le Nat.one_pos (Nat.le_max_right _ _)
  | next _ hs ih => rwa [hs.depth_eq]

/-- The pool after a worker had a turn for a request; the reply is what its caller has got. -/
def after (p : Pool) (request : Request) (reply : Reply) : Pool :=
  { p with
    replies := p.replies ++ [reply]
    totals := p.totals.merge (p.codec.process request .zero).2 }

/-- A worker of a pool at rest needs one turn for a request. -/
theorem AtRest.run?_turn (h : AtRest s p) {w : Nat} (hw : w < p.workers.length)
    (request : Request) :
    p.run? (.submit request :: turn w)
      = some (p.after request (.answered (p.codec.process request .zero).1)) := by
  obtain ⟨log, hr⟩ := h.reachable
  have hidle : p.workers[w] = .idle := h.workers _ (List.getElem_mem hw)
  have hback : p.workers.set w .idle = p.workers := by
    rw [← hidle, List.set_getElem_self]
  simp [turn, run?, step?, h.isOpen, h.queue, hr.depth_pos, hw, hidle, hback, Reply.answer, after]

theorem wait_after (p : Pool) (request : Request) (response : Response) :
    (p.after request (.answered response)).wait p.replies.length
      = .ok (response, p.after request (.taken response)) := by
  simp [wait, step?, after]

/-- A pool at rest answers a call at once, and is at rest again. -/
theorem AtRest.exists_call (h : AtRest s p) (request : Request) :
    ∃ response q, AtRest s q ∧ p.call request = .ok (response, q) ∧
      p.Calls request response q := by
  obtain ⟨log, hr⟩ := h.reachable
  have hlt := Nat.mod_lt p.replies.length (List.length_pos_iff.2 hr.staffed.ne_nil)
  have hcall : p.call request = .ok ((p.codec.process request .zero).1,
      p.after request (.taken (p.codec.process request .zero).1)) := by
    rw [call, submit, h.run?_turn hlt]
    exact p.wait_after request _
  have hc := calls_of_call hcall
  exact ⟨_, _, ⟨hc.exists_reachable hr, h.isOpen, h.queue, h.workers⟩, hcall, hc⟩

theorem AtRest.exists_ask {α : Type} (h : AtRest s p) (request : Request)
    (read : Response → Except CodecError α) :
    ∃ response q, AtRest s q ∧ s.codec.Direct request response ∧
      p.ask request read = (read response, q) := by
  obtain ⟨log, hr⟩ := h.reachable
  obtain ⟨response, q, hq, hcall, hc⟩ := h.exists_call request
  exact ⟨response, q, hq, hc.direct hr, by rw [ask, hcall]⟩

/-! ## Out of line and in place -/

/-- Every call gets what the codec gives in place, and can be made. -/
structure Refines (codec : Codec) (p : Pool) : Prop where
  exists_calls : ∀ request, ∃ response q, p.Calls request response q
  direct : ∀ request response q, p.Calls request response q → codec.Direct request response
  decoded : ∀ buffer definition offset response q,
    p.Calls (.decode buffer definition offset) response q →
      response.decoded = .ok (buffer, codec.decode buffer definition offset)
  /-- No error is one of the transport. -/
  encoded : ∀ buffer definition record offset response q,
    p.Calls (.encode buffer definition record offset) response q →
      response.encoded = codec.encode buffer definition record offset ∧
        ∀ text, response.encoded ≠ .error (.transport text)
  found : ∀ buffer pattern offset response q, p.Calls (.search buffer pattern offset) response q →
    response.found = .ok (buffer, pattern.search buffer offset)

/-- A caller that is alone gets at once what the codec gives in place. -/
structure RefinesAtRest (s : Settings) (p : Pool) : Prop where
  decode : ∀ buffer definition offset, ∃ q, AtRest s q ∧
    p.decode buffer definition offset
      = (.ok (buffer, s.codec.decode buffer definition offset), q)
  encode : ∀ buffer definition record offset, ∃ q, AtRest s q ∧
    p.encode buffer definition record offset
      = (s.codec.encode buffer definition record offset, q)
  search : ∀ buffer pattern offset, ∃ q, AtRest s q ∧
    p.search buffer pattern offset = (.ok (buffer, pattern.search buffer offset), q)

theorem refines_of_reachable (h : Reachable s p log) (ho : p.isOpen = true) :
    Refines s.codec p where
  exists_calls request := by
    obtain ⟨events, next, hr, hn⟩ := exists_run_atRest h ho
    obtain ⟨response, q, -, -, hc⟩ := hn.exists_call request
    exact ⟨response, q, hc.of_run hr⟩
  direct request response q hc := hc.direct h
  decoded buffer definition offset response q hc := (hc.direct h).decoded
  encoded buffer definition record offset response q hc := by
    rw [(hc.direct h).encoded]
    exact ⟨rfl, s.codec.encode_ne_transport buffer definition record offset⟩
  found buffer pattern offset response q hc := (hc.direct h).found

theorem refinesAtRest_of_atRest (h : AtRest s p) : RefinesAtRest s p where
  decode buffer definition offset := by
    obtain ⟨response, q, hq, hd, ha⟩ :=
      h.exists_ask (.decode buffer definition offset) Response.decoded
    exact ⟨q, hq, by rw [Pool.decode, ha, hd.decoded]⟩
  encode buffer definition record offset := by
    obtain ⟨response, q, hq, hd, ha⟩ :=
      h.exists_ask (.encode buffer definition record offset) Response.encoded
    exact ⟨q, hq, by rw [Pool.encode, ha, hd.encoded]⟩
  search buffer pattern offset := by
    obtain ⟨response, q, hq, hd, ha⟩ :=
      h.exists_ask (.search buffer pattern offset) Response.found
    exact ⟨q, hq, by rw [Pool.search, ha, hd.found]⟩

/-- Out of line and in place a request is answered the same. A worker gives what its codec gives in
place, whatever it counted before, with an outcome of the kind of the request; so every call to a
pool that is not closed does, whatever else happens meanwhile, and a call to a pool at rest does at
once. -/
theorem out_of_line_eq_in_place (codec : Codec) :
    (∀ request counters, codec.Direct request (codec.process request counters).1 ∧
      ∀ outcome, (codec.process request counters).1.outcome = .ok outcome →
        outcome.kind = request.kind) ∧
    ∀ (s : Settings) (p : Pool) (log : Log), s.codec = codec → Reachable s p log →
      p.isOpen = true → Refines codec p ∧ (AtRest s p → RefinesAtRest s p) := by
  refine ⟨fun request counters => ?_, fun s p log hs h ho => ?_⟩
  · have hd := codec.direct_process request counters
    exact ⟨hd, fun outcome hk => hd.kind_eq hk⟩
  · subst hs
    exact ⟨refines_of_reachable h ho, refinesAtRest_of_atRest⟩

/-- A record without a value, handed in as soon as a full queue has room; and alone, a record that
is cut off in the buffer, and a text of two bytes. -/
theorem out_of_line_eq_in_place_full :
    (∃ p log, Reachable ⟨1, 1, ⟨.big⟩⟩ p log ∧ p.isOpen = true ∧ p.queue.length = p.depth ∧
      (∃ response q, p.Calls (.encode [9, 9, 9] (.ofList [("a", ⟨.uint16, 1, none⟩),
        ("b", ⟨.uint16, 1, none⟩)]) (.ofList [("a", .unsigned 258)]) 1) response q) ∧
      ∀ response q, p.Calls (.encode [9, 9, 9] (.ofList [("a", ⟨.uint16, 1, none⟩),
        ("b", ⟨.uint16, 1, none⟩)]) (.ofList [("a", .unsigned 258)]) 1) response q →
        response.encoded = .error (.missingField "b")) ∧
    (∃ q, (start ⟨1, 1, ⟨.big⟩⟩).encode [9, 9, 9] (.ofList [("a", ⟨.uint16, 1, none⟩),
        ("b", ⟨.uint16, 1, none⟩)]) (.ofList [("b", .unsigned 3), ("a", .unsigned 258)]) 1
      = (.ok ⟨[9, 1, 2], 3, true⟩, q)) ∧
    ∃ q, (start ⟨1, 1, ⟨.big⟩⟩).search [0, 0xE9, 0x41] (.ofText "éA") 0
      = (.ok ([0, 0xE9, 0x41], some 1), q) := by
  obtain ⟨-, h⟩ := out_of_line_eq_in_place ⟨.big⟩
  refine ⟨⟨_, _, reachable_iff.2 ⟨[.submit (.search [1, 2] ⟨[3]⟩ 0)], rfl, rfl⟩, rfl, rfl, ?_⟩, ?_⟩
  · obtain ⟨hr, -⟩ := h ⟨1, 1, ⟨.big⟩⟩ _ _ rfl
      (reachable_iff.2 ⟨[.submit (.search [1, 2] ⟨[3]⟩ 0)], rfl, rfl⟩) rfl
    exact ⟨hr.exists_calls _, fun response q hc => (hr.encoded _ _ _ _ _ _ hc).1.trans rfl⟩
  · have hr := (h ⟨1, 1, ⟨.big⟩⟩ _ _ rfl .start rfl).2 (atRest_start _)
    obtain ⟨q, -, he⟩ := hr.encode [9, 9, 9] (.ofList [("a", ⟨.uint16, 1, none⟩),
      ("b", ⟨.uint16, 1, none⟩)]) (.ofList [("b", .unsigned 3), ("a", .unsigned 258)]) 1
    obtain ⟨q', -, hf⟩ := hr.search [0, 0xE9, 0x41] (.ofText "éA") 0
    exact ⟨⟨q, he.trans rfl⟩, q', hf.trans rfl⟩

end Pool

end BinaryLayout
