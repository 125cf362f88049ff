import BinaryLayout.Proofs.Descriptor.Parts

/-!
# The case of a descriptor text

None of the classes of characters that a descriptor text is split by tells upper from lower case, so
changing the case of its letters changes that of its parts and nothing else (`split_upper`). Neither
the count, nor the order, nor the tag that a name stands for depends on it (`parse_of_upper_eq`).
-/

namespace BinaryLayout

open Text (upper)

namespace Descriptor

/-- Takes the same parts of a text whatever the case of its letters. -/
def Caseless (part? : List Char → Option (List Char × List Char)) : Prop :=
  ∀ cs, part? (upper cs) = (part? cs).map fun found => (upper found.1, upper found.2)

theorem caseless_takeName? : Caseless takeName? := by
  intro cs
  have hn : ∀ c, isNameChar c.toUpper = isNameChar c := Text.apply_toUpper isNameChar (by decide)
  have hs : ∀ c, isNameStart c.toUpper = isNameStart c :=
    Text.apply_toUpper isNameStart (by decide)
  cases cs with
  | nil => rfl
  | cons c cs =>
    rw [Text.upper_cons, takeName?, takeName?, hs, Text.takeWhile_upper hn, Text.dropWhile_upper hn]
    split <;> rfl

/-- A mark that is no letter stands in front of a text in upper case only if it stood there. -/
theorem upper_ne_cons {mark : Char}
    (hm : ∀ n : Fin 128, (Char.ofNat n).toUpper = mark ↔ Char.ofNat n = mark) {cs : List Char}
    (h : ∀ ds, cs ≠ mark :: ds) (ds : List Char) : upper cs ≠ mark :: ds := by
  intro he
  cases cs with
  | nil => cases he
  | cons c cs =>
    have hc := Text.apply_toUpper (fun c => decide (c = mark))
      (fun n => decide_eq_decide.2 (hm n)) c
    have hu : c = mark := by simpa [(List.cons.inj he).1] using hc
    exact h cs (by rw [hu])

theorem caseless_takeBracket? : Caseless takeBracket? := by
  intro cs
  have hp : ∀ c : Char, (c.toUpper != ']') = (c != ']') :=
    Text.apply_toUpper (fun c => c != ']') (by decide)
  by_cases h : ∃ ds, cs = '[' :: ds
  · obtain ⟨ds, rfl⟩ := h
    have hb : upper ('[' :: ds) = '[' :: upper ds := rfl
    rw [hb, takeBracket?, takeBracket?, Text.dropWhile_upper hp, Text.takeWhile_upper hp]
    cases ds.dropWhile (· != ']') <;> rfl
  · rw [not_exists] at h
    rw [takeBracket?_of_ne h, takeBracket?_of_ne (upper_ne_cons (by decide) h), Option.map_none]

theorem caseless_takeModifier? : Caseless takeModifier? := by
  intro cs
  have ha : ∀ c : Char, c.toUpper.isAlpha = c.isAlpha := Text.apply_toUpper Char.isAlpha (by decide)
  by_cases h : ∃ ds, cs = '|' :: ds
  · obtain ⟨ds, rfl⟩ := h
    have hb : upper ('|' :: ds) = '|' :: upper ds := rfl
    rw [hb, takeModifier?, takeModifier?, Text.trimLeft_upper]
    simp only [Text.dropWhile_upper ha, Text.takeWhile_upper ha, Option.map_some]
  · rw [not_exists] at h
    rw [takeModifier?_of_ne h, takeModifier?_of_ne (upper_ne_cons (by decide) h), Option.map_none]

theorem Caseless.optional {part? : List Char → Option (List Char × List Char)}
    (h : Caseless part?) (cs : List Char) :
    optional part? (upper cs)
      = ((optional part? cs).1.map upper, upper (optional part? cs).2) := by
  rw [Descriptor.optional, Descriptor.optional, Text.trimLeft_upper, h]
  cases part? (Text.trimLeft cs) <;> rfl

theorem unsigned?_upper (cs : List Char) : unsigned? (upper cs) = unsigned? cs := by
  by_cases h : ∃ ds, cs = '+' :: ds
  · obtain ⟨ds, rfl⟩ := h
    exact Decimal.toNat?_upper ds
  · rw [not_exists] at h
    rw [unsigned?_of_ne h, unsigned?_of_ne (upper_ne_cons (by decide) h), Decimal.toNat?_upper]

theorem countOf_upper (cs : List Char) : countOf (upper cs) = countOf cs := by
  rw [countOf, Text.trim_upper, unsigned?_upper, countOf]

theorem ofModifier?_upper (letters : List Char) :
    ByteOrder.ofModifier? (upper letters) = ByteOrder.ofModifier? letters := by
  have h : (upper letters).map Char.toUpper = letters.map Char.toUpper := Text.upper_upper letters
  rw [ByteOrder.ofModifier?, h, ByteOrder.ofModifier?]

theorem split_upper (cs : List Char) :
    split (upper cs) = ⟨upper (split cs).tag, (split cs).count, (split cs).order⟩ := by
  have hc : ∀ first second : Option (List Char),
      (((first.map upper).or (second.map upper)).map countOf) = (first.or second).map countOf := by
    intro first second
    cases first <;> cases second <;> simp [countOf_upper]
  have ho : ∀ letters : Option (List Char),
      (letters.map upper).bind ByteOrder.ofModifier? = letters.bind ByteOrder.ofModifier? := by
    intro letters
    cases letters <;> simp [ofModifier?_upper]
  rw [split, split, Text.trimLeft_upper, caseless_takeName?]
  cases takeName? (Text.trimLeft cs) with
  | none => rw [Option.map_none, Text.trim_upper]
  | some found =>
    simp only [Option.map_some, caseless_takeBracket?.optional, caseless_takeModifier?.optional,
      hc, ho]

end Descriptor

theorem Tag.ofName?_upper (name : List Char) : ofName? (upper name) = ofName? name := by
  have h : (upper name).map Char.toUpper = name.map Char.toUpper := Text.upper_upper name
  rw [ofName?, h, ofName?]

namespace Descriptor

/-- The parts of a text are what decides whether it is read, and as what. -/
theorem parse_eq_ok_iff {text : String} {d : Descriptor} : parse text = .ok d ↔
    Tag.ofName? (Text.trim (split text.toList).tag) = some d.tag ∧
      (split text.toList).count = d.count ∧ (split text.toList).order = d.order := by
  simp only [parse_eq, Tag.resolve, String.toList_ofList]
  cases Tag.ofName? (Text.trim (split text.toList).tag) with
  | none => simp [Except.map]
  | some tag =>
    obtain ⟨t, count, order⟩ := d
    simp [Except.map]

/-- Two texts that differ in the case of letters only are read as the same descriptor, or not at
all. -/
theorem parse_of_upper_eq {text other : String} (h : upper text.toList = upper other.toList)
    (d : Descriptor) : parse other = .ok d ↔ parse text = .ok d := by
  have hu : ∀ s : String, parse s = .ok d ↔
      Tag.ofName? (Text.trim (split (upper s.toList)).tag) = some d.tag ∧
        (split (upper s.toList)).count = d.count ∧ (split (upper s.toList)).order = d.order := by
    intro s
    rw [parse_eq_ok_iff, split_upper, Text.trim_upper, Tag.ofName?_upper]
  rw [hu, hu, h]

end Descriptor

end BinaryLayout
