import BinaryLayout.Proofs.Codec.Encoding
import BinaryLayout.Proofs.Descriptor.Canonical

/-!
# The size of a layout in text form

Reading descriptor texts and adding up their sizes stop at the same text, the first one that is
refused (`parse_eq_error_iff`), and before it both go by the same steps, so that the size of the
texts is the size of the layout they are read as (`byteSizeOfTexts_eq`). That is where decoding
from the start of a buffer ends, and how many bytes encoding gives (`byteSizeOfTexts_agrees`).
-/

namespace BinaryLayout

theorem Descriptor.exists_unsupportedType_of_parse {text : String} {e : CodecError}
    (h : Descriptor.parse text = .error e) : ∃ tag, e = .unsupportedType tag := by
  rw [parse_eq, Tag.resolve] at h
  split at h
  · cases h
  · exact ⟨_, (Except.error.inj h).symm⟩

namespace Definition

/-- The descriptors in front of the first text that is refused. -/
def described : List (String × String) → List Descriptor
  | [] => []
  | t :: texts =>
    match Descriptor.parse t.2 with
    | .ok d => d :: described texts
    | .error _ => []

/-- Adds the sizes of texts to a total, in 64 bits. -/
def addSizes? : List (String × String) → Nat → Option (Except CodecError Nat)
  | [], total => some (.ok total)
  | t :: texts, total =>
    match Descriptor.parse t.2 with
    | .ok d => do addSizes? texts (← Word.add? total (← d.byteLength?))
    | .error e => some (.error e)

/-- The bytes of all fields of a layout in text form, in 64 bits. -/
def byteSizeOfTexts? (texts : List (String × String)) : Option (Except CodecError Nat) :=
  addSizes? texts 0

/-- The bytes of the fields in front of the first text that is refused. -/
def describedSize (texts : List (String × String)) : Nat :=
  (described texts).foldr (·.byteLength + ·) 0

theorem describedSize_cons {t : String × String} {d : Descriptor}
    (h : Descriptor.parse t.2 = .ok d) (texts : List (String × String)) :
    describedSize (t :: texts) = d.byteLength + describedSize texts := by
  simp only [describedSize, described, h, List.foldr_cons]

theorem byteSize_push {d : Descriptor} (hc : d.count ≠ 0) (definition : Definition)
    (name : String) : (definition.push name d).byteSize = definition.byteSize + d.byteLength := by
  simp only [byteSize, push, Field.extent_append, Descriptor.repeated, if_neg hc,
    Field.extent_cons, Field.extent_nil, Nat.add_zero, Field.byteLength]

/-! ## Reading and adding up -/

section Fold

variable {α : Type} (step : α → String → Descriptor → α) {t : String × String}

theorem foldlM_cons_of_parse {d : Descriptor} (h : Descriptor.parse t.2 = .ok d)
    (texts : List (String × String)) (a : α) :
    (t :: texts).foldlM (fun a t => (Descriptor.parse t.2).map (step a t.1)) a
      = texts.foldlM (fun a t => (Descriptor.parse t.2).map (step a t.1)) (step a t.1 d) := by
  rw [List.foldlM_cons, h]
  rfl

theorem foldlM_cons_of_parse_error {e : CodecError} (h : Descriptor.parse t.2 = .error e)
    (texts : List (String × String)) (a : α) :
    (t :: texts).foldlM (fun a t => (Descriptor.parse t.2).map (step a t.1)) a = .error e := by
  rw [List.foldlM_cons, h]
  rfl

/-- Whatever is made of the descriptors, the first text that is refused is the error. -/
theorem foldlM_parse_eq_error_iff {e : CodecError} :
    ∀ {texts : List (String × String)} {a : α},
      texts.foldlM (fun a t => (Descriptor.parse t.2).map (step a t.1)) a = .error e ↔
        ∃ before t after, texts = before ++ t :: after ∧
          (∀ s ∈ before, ∃ d, Descriptor.parse s.2 = .ok d) ∧ Descriptor.parse t.2 = .error e
  | [], a => by
    rw [List.foldlM_nil]
    constructor
    · rintro ⟨⟩
    · rintro ⟨before, t, after, hs, -⟩
      simp at hs
  | t :: texts, a => by
    rcases hp : Descriptor.parse t.2 with e' | d
    · rw [foldlM_cons_of_parse_error step hp]
      constructor
      · rintro ⟨⟩
        exact ⟨[], t, texts, rfl, by simp, hp⟩
      · rintro ⟨_ | ⟨s, before⟩, u, after, hs, hb, hu⟩
        · cases hs
          exact congrArg Except.error (Except.error.inj (hp.symm.trans hu))
        · obtain ⟨d, hd⟩ := hb s List.mem_cons_self
          cases hs
          rw [hp] at hd
          cases hd
    · rw [foldlM_cons_of_parse step hp, foldlM_parse_eq_error_iff]
      constructor
      · rintro ⟨before, u, after, rfl, hb, hu⟩
        exact ⟨t :: before, u, after, rfl, List.forall_mem_cons.2 ⟨⟨d, hp⟩, hb⟩, hu⟩
      · rintro ⟨_ | ⟨s, before⟩, u, after, hs, hb, hu⟩
        · cases hs
          rw [hp] at hu
          cases hu
        · cases hs
          exact ⟨before, u, after, rfl, (List.forall_mem_cons.1 hb).2, hu⟩

end Fold

theorem parse_eq_error_iff {texts : List (String × String)} {e : CodecError} :
    parse texts = .error e ↔
      ∃ before t after, texts = before ++ t :: after ∧
        (∀ s ∈ before, ∃ d, Descriptor.parse s.2 = .ok d) ∧ Descriptor.parse t.2 = .error e :=
  foldlM_parse_eq_error_iff push

/-- The total is the size of the layout that has been read so far, from one text to the next. -/
theorem foldlM_add_eq : ∀ (texts : List (String × String)) (definition : Definition),
    texts.foldlM (fun total t => (Descriptor.parse t.2).map (total + ·.byteLength))
        definition.byteSize
      = (texts.foldlM (fun definition t => (Descriptor.parse t.2).map (definition.push t.1))
          definition).map byteSize
  | [], _ => rfl
  | t :: texts, definition => by
    rcases hp : Descriptor.parse t.2 with e | d
    · rw [foldlM_cons_of_parse_error (fun total _ d => total + d.byteLength) hp,
        foldlM_cons_of_parse_error push hp]
      rfl
    · have hs := byteSize_push (Descriptor.count_ne_zero_of_parse hp) definition t.1
      rw [foldlM_cons_of_parse (fun total _ d => total + d.byteLength) hp,
        foldlM_cons_of_parse push hp, ← hs]
      exact foldlM_add_eq texts (definition.push t.1 d)

theorem byteSizeOfTexts_eq (texts : List (String × String)) :
    byteSizeOfTexts texts = (parse texts).map byteSize :=
  foldlM_add_eq texts empty

/-- Adding up passes over just the texts in front of the first one that is refused. -/
theorem addSizes?_eq : ∀ {texts : List (String × String)} {total : Nat},
    total + describedSize texts < 2 ^ 64 → addSizes? texts total
      = some (texts.foldlM (fun total t => (Descriptor.parse t.2).map (total + ·.byteLength)) total)
  | [], _, _ => rfl
  | t :: texts, total, h => by
    rcases hp : Descriptor.parse t.2 with e | d
    · rw [foldlM_cons_of_parse_error (fun total _ d => total + d.byteLength) hp]
      simp only [addSizes?, hp]
    · rw [describedSize_cons hp] at h
      rw [foldlM_cons_of_parse (fun total _ d => total + d.byteLength) hp]
      simp only [addSizes?, hp, Descriptor.byteLength?_eq, Word.add?, Option.bind_eq_bind,
        Option.bind_some]
      rw [if_pos (by omega), Option.bind_some]
      exact addSizes?_eq (by omega)

theorem byteSizeOfTexts?_eq {texts : List (String × String)} (h : describedSize texts < 2 ^ 64) :
    byteSizeOfTexts? texts = some (byteSizeOfTexts texts) :=
  addSizes?_eq (by rwa [Nat.zero_add])

theorem foldlM_add_eq_ok : ∀ {texts : List (String × String)} {total n : Nat},
    texts.foldlM (fun total t => (Descriptor.parse t.2).map (total + ·.byteLength)) total = .ok n →
      n = total + describedSize texts
  | [], _, _, h => (Except.ok.inj h).symm
  | t :: texts, total, n, h => by
    rcases hp : Descriptor.parse t.2 with e | d
    · rw [foldlM_cons_of_parse_error (fun total _ d => total + d.byteLength) hp] at h
      cases h
    · rw [foldlM_cons_of_parse (fun total _ d => total + d.byteLength) hp] at h
      rw [describedSize_cons hp, ← Nat.add_assoc]
      exact foldlM_add_eq_ok h

theorem byteSize_of_parse {texts : List (String × String)} {definition : Definition}
    (h : parse texts = .ok definition) : definition.byteSize = describedSize texts := by
  have hs := byteSizeOfTexts_eq texts
  rw [h] at hs
  have hn := foldlM_add_eq_ok hs
  rwa [Nat.zero_add] at hn

end Definition

namespace Codec

variable (codec : Codec) {definition : Definition}

theorem stop_decode_zero {buf : Bytes} (h : definition.byteSize ≤ buf.length) :
    (codec.decode buf definition 0).stop = definition.byteSize := by
  have hn : Field.fitting buf.length definition.fields 0 = definition.fields.length :=
    Field.fitting_eq_length (by rwa [Nat.zero_add])
  rw [decode_eq, hn, Definition.position_length, Nat.zero_add]

theorem length_encodeToBytes {record : Record} {bytes : Bytes}
    (h : codec.encodeToBytes definition record = .ok bytes) :
    bytes.length = definition.byteSize := by
  have ha := codec.accepts_iff_encodeToBytes.2 ⟨bytes, h⟩
  rw [codec.encodeToBytes_eq ha] at h
  rw [← Except.ok.inj h]
  exact codec.length_image definition.count_ne_zero (accepts_iff.1 ha)

end Codec

namespace Definition

/-- Adding up the sizes of descriptor texts gives an answer in 64 bits where those in front of the
first unknown tag, or of the end, take less than that. It is a size exactly if the texts are read as
a layout, and then the size of that layout, at which decoding from the start of a buffer with room
for it ends, and which all that encoding gives for it has. Else both fail with the same error, the
first unknown tag. -/
theorem byteSizeOfTexts_agrees {texts : List (String × String)}
    (h : describedSize texts < 2 ^ 64) :
    ∃ answer, byteSizeOfTexts? texts = some answer ∧ byteSizeOfTexts texts = answer ∧
      (∀ n, answer = .ok n ↔ ∃ definition, parse texts = .ok definition ∧
        definition.byteSize = n) ∧
      (∀ e, answer = .error e ↔ parse texts = .error e) ∧
      (∀ e, parse texts = .error e ↔ ∃ before t after tag, texts = before ++ t :: after ∧
        (∀ s ∈ before, ∃ d, Descriptor.parse s.2 = .ok d) ∧
        Descriptor.parse t.2 = .error (.unsupportedType tag) ∧ e = .unsupportedType tag) ∧
      ∀ definition, parse texts = .ok definition →
        definition.byteSize? = some definition.byteSize ∧
        (∀ (codec : Codec) (buf : Bytes), definition.byteSize ≤ buf.length →
          buf.length < 2 ^ 64 → ∃ r, codec.decode? buf definition 0 = some r ∧
            r.stop = definition.byteSize ∧ r.incomplete = false) ∧
        ∀ (codec : Codec) (record : Record) (bytes : Bytes),
          codec.encodeToBytes definition record = .ok bytes →
            bytes.length = definition.byteSize := by
  refine ⟨_, byteSizeOfTexts?_eq h, rfl, fun n => ?_, fun e => ?_, fun e => ?_,
    fun definition hd => ⟨?_, fun codec buf hs hb => ?_, fun codec record bytes he => ?_⟩⟩
  · rw [byteSizeOfTexts_eq]
    rcases parse texts with e | definition
    · simp [Except.map]
    · simp [Except.map]
  · rw [byteSizeOfTexts_eq]
    rcases parse texts with e' | definition
    · simp [Except.map]
    · simp [Except.map]
  · rw [parse_eq_error_iff]
    constructor
    · rintro ⟨before, t, after, hs, hb, ht⟩
      obtain ⟨tag, rfl⟩ := Descriptor.exists_unsupportedType_of_parse ht
      exact ⟨before, t, after, tag, hs, hb, ht, rfl⟩
    · rintro ⟨before, t, after, tag, hs, hb, ht, rfl⟩
      exact ⟨before, t, after, hs, hb, ht⟩
  · exact byteSize?_eq (byteSize_of_parse hd ▸ h)
  · refine ⟨_, codec.decode?_eq hb (by decide) definition, codec.stop_decode_zero hs, ?_⟩
    exact (codec.decode_complete_iff buf definition 0).2 (.inr (by rwa [Nat.zero_add]))
  · exact codec.length_encodeToBytes he

/-- A count of zero, a plus sign and a name that occurs twice; and two unknown tags. -/
theorem byteSizeOfTexts_agrees_lenient :
    (∃ definition, parse [("a", "UINT16[0]"), ("t", " char [ +3 ]|XE"), ("a", "uint24|be[2]")]
        = .ok definition ∧
      byteSizeOfTexts? [("a", "UINT16[0]"), ("t", " char [ +3 ]|XE"), ("a", "uint24|be[2]")]
        = some (.ok definition.byteSize) ∧
      definition.byteSize = 11) ∧
    byteSizeOfTexts? [("a", "UINT8"), ("b", "NIBBLE[2]"), ("c", "?")]
      = some (.error (.unsupportedType "NIBBLE")) ∧
    parse [("a", "UINT8"), ("b", "NIBBLE[2]"), ("c", "?")]
      = .error (.unsupportedType "NIBBLE") := by
  have hl : describedSize [("a", "UINT16[0]"), ("t", " char [ +3 ]|XE"), ("a", "uint24|be[2]")]
      = 11 := by decide +kernel
  have hs : describedSize [("a", "UINT8"), ("b", "NIBBLE[2]"), ("c", "?")] = 1 := by
    decide +kernel
  obtain ⟨whole, hw, hn, hok, -, -, -⟩ := byteSizeOfTexts_agrees (by rw [hl]; decide)
  obtain ⟨cut, hc, he, -, herr, -, -⟩ := byteSizeOfTexts_agrees (by rw [hs]; decide)
  have hn : whole = .ok 11 := by
    rw [← hn]
    decide +kernel
  have he : cut = .error (.unsupportedType "NIBBLE") := by
    rw [← he]
    decide +kernel
  obtain ⟨definition, hp, hb⟩ := (hok 11).1 hn
  exact ⟨⟨definition, hp, by rw [hw, hn, hb], hb⟩, by rw [hc, he], (herr _).1 he⟩

end Definition

end BinaryLayout
