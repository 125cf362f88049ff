import BinaryLayout.Work.Request
import Mathlib.Algebra.GroupWithZero.Nat
import Mathlib.Data.List.Induction

/-!
# What requests count

A request answers the same whatever the counters it is given, and adds its own counts to them
(`process_fst`, `process_snd`). So after any number of requests each of the nine counters is the sum
of what the single requests count (`field_countAll`), and their order makes no difference
(`countAll_perm`).
-/

namespace BinaryLayout

namespace Counters

/-- The nine counters, each as a function. -/
def fields : List (Counters → Nat) :=
  [decodeCalls, encodeCalls, searchCalls, fieldsDecoded, bytesRead, bytesWritten, searchHits,
    dataErrors, schemaErrors]

theorem field_zero : ∀ field ∈ fields, field zero = 0 := by
  simp [fields, zero]

theorem field_merge (c d : Counters) : ∀ field ∈ fields, field (c.merge d) = field c + field d := by
  simp [fields, merge]

theorem ofList?_toList (c : Counters) : ofList? c.toList = some c := rfl

/-- Counters are equal if each of the nine is. -/
theorem eq_of_fields {c d : Counters} (h : ∀ field ∈ fields, field c = field d) : c = d := by
  have hl : c.toList = d.toList := List.map_congr_left h
  have ho := congrArg ofList? hl
  rwa [ofList?_toList, ofList?_toList, Option.some_inj] at ho

end Counters

namespace Codec

variable (codec : Codec)

theorem process_fst (request : Request) (counters : Counters) :
    (codec.process request counters).1 = (codec.process request .zero).1 := by
  cases request with
  | encode buffer definition record offset =>
    simp only [process]
    split <;> rfl
  | _ => rfl

theorem process_snd (request : Request) (counters : Counters) :
    (codec.process request counters).2 = counters.merge (codec.process request .zero).2 := by
  cases request with
  | decode buffer definition offset =>
    simp [process, Counters.addDecode, Counters.merge, Counters.zero]
  | encode buffer definition record offset =>
    simp only [process]
    split
    · simp [Counters.addEncode, Counters.merge, Counters.zero]
    · simp [Counters.addSchemaError, Counters.merge, Counters.zero]
  | search buffer pattern offset =>
    simp [process, Counters.addSearch, Counters.merge, Counters.zero]

/-- What a request counts. -/
def counts (request : Request) : Counters := (codec.process request .zero).2

/-- The counters after requests one behind the other. -/
def countAll (requests : List Request) : Counters :=
  requests.foldl (fun counters request => (codec.process request counters).2) .zero

theorem countAll_concat (requests : List Request) (request : Request) :
    codec.countAll (requests ++ [request])
      = (codec.countAll requests).merge (codec.counts request) := by
  rw [countAll, List.foldl_append]
  exact codec.process_snd request _

theorem field_countAll (requests : List Request) : ∀ field ∈ Counters.fields,
    field (codec.countAll requests)
      = (requests.map fun request => field (codec.counts request)).sum := by
  intro field hf
  induction requests using List.reverseRecOn with
  | nil => exact Counters.field_zero field hf
  | append_singleton requests request ih =>
    rw [countAll_concat, Counters.field_merge _ _ field hf, ih, List.map_append, List.sum_append]
    rfl

/-- The order of the requests makes no difference to the counters. -/
theorem countAll_perm {a b : List Request} (h : a.Perm b) :
    codec.countAll a = codec.countAll b := by
  refine Counters.eq_of_fields fun field hf => ?_
  rw [codec.field_countAll a field hf, codec.field_countAll b field hf]
  exact (h.map _).sum_nat

end Codec

end BinaryLayout
