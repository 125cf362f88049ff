import BinaryLayout.Proofs.Codec.Decoding
import BinaryLayout.Proofs.Codec.Encoding
import BinaryLayout.Proofs.Floating.Order
import BinaryLayout.Proofs.Work.Counting
import BinaryLayout.Snapshot

/-!
# What the counters stand for

The effect of a request is the fields that were read or written and whether the walk was cut, a
refusal, or a search with or without a hit (`settles_effect`). What a request counts is told by its
effect (`counts_eq`), and accounts that are in order stay so when they are added
(`Accounts.append`). So they are in order after any requests, and the rate of errors is between zero
and one (`accounts_settled`).
-/

namespace BinaryLayout

namespace Definition

theorem position_sub (definition : Definition) (offset k : Nat) :
    definition.position offset k - offset = Field.extent (definition.fields.take k) :=
  Nat.add_sub_cancel_left offset _

/-- Some field of a layout at `offset` ends behind the first `length` bytes. -/
def Overruns (definition : Definition) (offset length : Nat) : Prop :=
  ∃ i < definition.size, length < definition.position offset (i + 1)

theorem overruns_iff {definition : Definition} {offset length : Nat} :
    definition.Overruns offset length ↔
      Field.fitting length definition.fields offset < definition.size := by
  obtain ⟨⟨hk, hle⟩, hu⟩ := Field.isGreatest_fitting length definition.fields offset
  constructor
  · rintro ⟨i, hi, hl⟩
    refine Nat.lt_of_le_of_ne hk fun he => ?_
    exact Nat.not_le_of_lt hl (hle (i + 1) (Nat.succ_pos i) (he ▸ hi))
  · intro hlt
    refine ⟨_, hlt, Nat.lt_of_not_le fun hl => ?_⟩
    -- one more field that ends inside would make the number that fit greater
    refine Nat.not_succ_le_self _ (hu ⟨hlt, fun i h1 hi => ?_⟩)
    rcases Nat.lt_or_eq_of_le hi with hi | rfl
    · exact hle i h1 (Nat.le_of_lt_succ hi)
    · exact hl

end Definition

/-! ## Effects -/

/-- What became of a request. A walk came through the fields, and was cut if one did not fit. -/
inductive Effect
  | decoded (fields : List Field) (cut : Bool)
  | encoded (fields : List Field) (cut : Bool)
  | refused
  | searched (hit : Bool)

namespace Effect

def fieldsRead : Effect → List Field
  | decoded fields _ => fields
  | _ => []

def fieldsWritten : Effect → List Field
  | encoded fields _ => fields
  | _ => []

def isCut : Effect → Bool
  | decoded _ cut | encoded _ cut => cut
  | _ => false

def counts : Effect → Counters
  | decoded fields cut => { Counters.zero with
      decodeCalls := 1
      fieldsDecoded := (fields.map (·.name)).eraseDups.length
      bytesRead := Field.extent fields
      dataErrors := cut.toNat }
  | encoded fields cut => { Counters.zero with
      encodeCalls := 1
      bytesWritten := Field.extent fields
      dataErrors := cut.toNat }
  | refused => { Counters.zero with schemaErrors := 1 }
  | searched hit => { Counters.zero with searchCalls := 1, searchHits := hit.toNat }

end Effect

def Request.effect : Request → Effect
  | .decode buffer definition offset =>
    let k := Field.fitting buffer.length definition.fields offset
    .decoded (definition.fields.take k) (decide (k < definition.size))
  | .encode buffer definition record offset =>
    match Codec.valuesFor record definition.fields with
    | .error _ => .refused
    | .ok _ =>
      let k := Field.fitting buffer.length definition.fields offset
      .encoded (definition.fields.take k) (decide (k < definition.size))
  | .search buffer pattern offset => .searched (pattern.search buffer offset).isSome

namespace Codec

variable (codec : Codec)

/-- In `out` the values of a record stand in the first `k` fields of a layout at `offset`, and
nothing else has changed; `k` is the greatest number of leading fields that all end inside the
buffer. -/
structure Writes (buf : Bytes) (definition : Definition) (record : Record) (offset k : Nat)
    (out : Bytes) (p : Progress) : Prop where
  isGreatest : IsGreatest {n | n ≤ definition.size ∧
    ∀ i, 1 ≤ i → i ≤ n → definition.position offset i ≤ buf.length} k
  stop_eq : p.stop = definition.position offset k
  incomplete_iff : p.incomplete = true ↔ k < definition.size
  out_eq : out = Bytes.overwrite buf offset (codec.image record (definition.fields.take k))

/-- A request was answered by a response and had an effect: the fields of the effect were read or
written, and the walk was cut if and only if some field did not fit. -/
inductive Settles : Request → Response → Effect → Prop
  | decoded {buffer : Bytes} {definition : Definition} {offset k : Nat} {r : Decoded} {cut : Bool} :
    codec.Reads buffer definition offset k r →
    (cut = true ↔ definition.Overruns offset buffer.length) →
    Settles (.decode buffer definition offset) ⟨buffer, .ok (.decoded r)⟩
      (.decoded (definition.fields.take k) cut)
  | encoded {buffer out : Bytes} {definition : Definition} {record : Record} {offset k : Nat}
      {p : Progress} {cut : Bool} :
    definition.Accepts record →
    codec.Writes buffer definition record offset k out p →
    (cut = true ↔ definition.Overruns offset buffer.length) →
    Settles (.encode buffer definition record offset) ⟨out, .ok (.encoded p)⟩
      (.encoded (definition.fields.take k) cut)
  | refused {buffer : Bytes} {definition : Definition} {record : Record} {offset : Nat}
      {e : CodecError} :
    ¬definition.Accepts record →
    Settles (.encode buffer definition record offset) ⟨buffer, .error e⟩ .refused
  | searched {buffer : Bytes} {pattern : Pattern} {offset : Nat} {found : Option Nat} :
    Settles (.search buffer pattern offset) ⟨buffer, .ok (.found found)⟩ (.searched found.isSome)

theorem writes_encodeInto {definition : Definition} {record : Record}
    (ha : definition.Accepts record) (buf : Bytes) (offset : Nat) :
    ∃ out p, codec.encodeInto buf definition record offset = (out, .ok p) ∧
      codec.Writes buf definition record offset
        (Field.fitting buf.length definition.fields offset) out p :=
  ⟨_, _, codec.encodeInto_eq ha buf offset,
    ⟨Field.isGreatest_fitting buf.length definition.fields offset, rfl, by simp, rfl⟩⟩

/-- A request has its effect whatever was counted before it. -/
theorem settles_effect (request : Request) (counters : Counters) :
    codec.Settles request (codec.process request counters).1 request.effect := by
  cases request with
  | decode buffer definition offset =>
    refine .decoded (codec.reads_decode buffer definition offset) ?_
    rw [decide_eq_true_iff, Definition.overruns_iff]
  | encode buffer definition record offset =>
    cases hv : valuesFor record definition.fields with
    | error e =>
      have hn : ¬definition.Accepts record := by
        rintro ⟨values, h⟩
        rw [h] at hv
        cases hv
      simp only [process, encodeInto, hv, Request.effect]
      exact .refused hn
    | ok values =>
      obtain ⟨out, p, he, hw⟩ := codec.writes_encodeInto ⟨values, hv⟩ buffer offset
      simp only [process, he, Request.effect, hv]
      refine .encoded ⟨values, hv⟩ hw ?_
      rw [decide_eq_true_iff, Definition.overruns_iff]
  | search buffer pattern offset => exact .searched

theorem size_decode (buf : Bytes) (definition : Definition) (offset : Nat) :
    (codec.decode buf definition offset).data.size
      = ((definition.fields.take
          (Field.fitting buf.length definition.fields offset)).map (·.name)).eraseDups.length := by
  have h := congrArg List.length (codec.names_decode buf definition offset)
  rwa [NameMap.names, List.length_map, Definition.names, ← List.map_take] at h

theorem counts_eq (request : Request) : codec.counts request = request.effect.counts := by
  cases request with
  | decode buffer definition offset =>
    have hs := codec.size_decode buffer definition offset
    simp only [counts, process, Counters.addDecode, hs, Decoded.consumed]
    rw [decode_eq, Definition.position_sub]
    simp [Request.effect, Effect.counts, Counters.zero]
  | encode buffer definition record offset =>
    cases hv : valuesFor record definition.fields with
    | error e =>
      simp [counts, process, encodeInto, hv, Request.effect, Effect.counts,
        Counters.addSchemaError, Counters.zero]
    | ok values =>
      have he := codec.encodeInto_eq ⟨values, hv⟩ buffer offset
      simp only [counts, process, he, Counters.addEncode, Definition.position_sub]
      simp [Request.effect, hv, Effect.counts, Counters.zero]
  | search buffer pattern offset =>
    simp [counts, process, Request.effect, Effect.counts, Counters.addSearch, Counters.zero]

end Codec

/-! ## Accounts -/

/-- What counters say of requests with these effects. -/
structure Accounts (effects : List Effect) (c : Counters) : Prop where
  calls_eq : c.decodeCalls + c.encodeCalls + c.searchCalls + c.schemaErrors = effects.length
  searchHits_le : c.searchHits ≤ c.searchCalls
  dataErrors_le : c.dataErrors ≤ c.decodeCalls + c.encodeCalls
  dataErrors_eq : c.dataErrors = effects.countP (·.isCut)
  bytesRead_eq : c.bytesRead = (effects.map fun e => Field.extent e.fieldsRead).sum
  bytesWritten_eq : c.bytesWritten = (effects.map fun e => Field.extent e.fieldsWritten).sum
  /-- A name that was read more than once counts once. -/
  fieldsDecoded_eq : c.fieldsDecoded
    = (effects.map fun e => (e.fieldsRead.map (·.name)).eraseDups.length).sum

theorem accounts_nil : Accounts [] .zero := by
  constructor <;> rfl

theorem accounts_singleton (e : Effect) : Accounts [e] e.counts := by
  cases e with
  | decoded fields cut =>
    exact ⟨rfl, Nat.le_refl 0, Bool.toNat_le cut, by cases cut <;> rfl, rfl, rfl, rfl⟩
  | encoded fields cut =>
    exact ⟨rfl, Nat.le_refl 0, Bool.toNat_le cut, by cases cut <;> rfl, rfl, rfl, rfl⟩
  | refused => exact ⟨rfl, Nat.le_refl 0, Nat.le_refl 0, rfl, rfl, rfl, rfl⟩
  | searched hit => exact ⟨rfl, Bool.toNat_le hit, Nat.le_refl 0, rfl, rfl, rfl, rfl⟩

theorem Accounts.append {es fs : List Effect} {c d : Counters} (hc : Accounts es c)
    (hd : Accounts fs d) : Accounts (es ++ fs) (c.merge d) where
  calls_eq := by
    rw [List.length_append, ← hc.calls_eq, ← hd.calls_eq]
    simp only [Counters.merge]
    omega
  searchHits_le := Nat.add_le_add hc.searchHits_le hd.searchHits_le
  dataErrors_le := by
    have h := Nat.add_le_add hc.dataErrors_le hd.dataErrors_le
    simp only [Counters.merge]
    omega
  dataErrors_eq := by
    rw [List.countP_append, ← hc.dataErrors_eq, ← hd.dataErrors_eq]
    rfl
  bytesRead_eq := by
    rw [List.map_append, List.sum_append, ← hc.bytesRead_eq, ← hd.bytesRead_eq]
    rfl
  bytesWritten_eq := by
    rw [List.map_append, List.sum_append, ← hc.bytesWritten_eq, ← hd.bytesWritten_eq]
    rfl
  fieldsDecoded_eq := by
    rw [List.map_append, List.sum_append, ← hc.fieldsDecoded_eq, ← hd.fieldsDecoded_eq]
    rfl

theorem Accounts.inUnit_errorRate {effects : List Effect} {c : Counters} (h : Accounts effects c) :
    c.errorRate.InUnit := by
  have hle := h.dataErrors_le
  simp only [Counters.errorRate]
  split
  · exact Floating.inUnit_of_code_le rfl (Nat.zero_le _)
  · rename_i h0
    exact Floating.inUnit_div_ofNat (Nat.pos_of_ne_zero h0) hle

theorem accounts_countAll (codec : Codec) (requests : List Request) :
    Accounts (requests.map (·.effect)) (codec.countAll requests) := by
  induction requests using List.reverseRecOn with
  | nil => exact accounts_nil
  | append_singleton requests request ih =>
    rw [Codec.countAll_concat, Codec.counts_eq, List.map_append]
    exact ih.append (accounts_singleton request.effect)

/-- After any requests the counters add up to what their effects say, every effect is what answering
its request did, and the rate of errors is between zero and one. -/
theorem accounts_settled (codec : Codec) (requests : List Request) :
    (∀ request counters,
      codec.Settles request (codec.process request counters).1 request.effect) ∧
    Accounts (requests.map (·.effect)) (codec.countAll requests) ∧
    ∀ elapsed throughput,
      (Snapshot.errorRate ⟨codec.countAll requests, elapsed, throughput⟩).InUnit :=
  ⟨codec.settles_effect, accounts_countAll codec requests, fun _ _ =>
    (accounts_countAll codec requests).inUnit_errorRate⟩

/-- A name read twice before the cut, a refusal, an encoding that is cut, a hit and a miss. -/
theorem accounts_settled_mixed :
    Accounts [.decoded [⟨"a", ⟨.uint8, 1, none⟩⟩, ⟨"a", ⟨.char, 2, none⟩⟩] true, .refused,
        .encoded [⟨"a", ⟨.uint16, 1, none⟩⟩] true, .searched true, .searched false]
      ⟨1, 1, 2, 1, 3, 2, 1, 2, 1⟩ := by
  have h := (accounts_settled .host [
    .decode [1, 65, 66, 3] (.ofList [("a", ⟨.uint8, 1, none⟩), ("a", ⟨.char, 2, none⟩),
      ("b", ⟨.uint16, 1, none⟩)]) 0,
    .encode [9] (.ofList [("a", ⟨.uint8, 1, none⟩)]) .empty 0,
    .encode [9, 9, 9] (.ofList [("a", ⟨.uint16, 1, none⟩), ("b", ⟨.uint16, 1, none⟩)])
      (.ofList [("a", .unsigned 1), ("b", .unsigned 2)]) 0,
    .search [7, 8] ⟨[8]⟩ 0, .search [7, 8] ⟨[8]⟩ 2]).2.1
  exact h

end BinaryLayout
