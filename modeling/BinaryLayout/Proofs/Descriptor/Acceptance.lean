import BinaryLayout.Proofs.Descriptor.Case

/-!
# Which descriptor texts are read

Whether a text is read depends on the identifier it begins with, `BeginsWith`, and on nothing behind
it: the identifier must be a name of a tag in some case (`ofName?_eq_some_iff`). A text that is
refused is reported by that identifier, or as a whole where it begins with none (`parse_reads`).
-/

namespace BinaryLayout

open Text (upper)

namespace Tag

/-- One of the names of a tag, in any case. -/
def IsNamed (tag : Tag) (name : List Char) : Prop :=
  ∃ spelling, (spelling, tag) ∈ names ∧ upper spelling.toList = upper name

example : all.length = 13 ∧ aliases.length = 14 := ⟨rfl, rfl⟩

theorem ofName?_eq_some_iff {name : List Char} {tag : Tag} :
    ofName? name = some tag ↔ tag.IsNamed name := by
  constructor
  · intro h
    obtain ⟨entry, hf, rfl⟩ := Option.map_eq_some_iff.1 h
    have hb := List.find?_some hf
    have he : entry.1.toList = upper name := beq_iff_eq.1 hb
    refine ⟨entry.1, List.mem_of_find?_eq_some hf, ?_⟩
    rw [he, Text.upper_upper]
  · rintro ⟨spelling, hm, hu⟩
    have hn : ∀ entry ∈ names, ofName? entry.1.toList = some entry.2 := by decide
    rw [← ofName?_upper, ← hu, ofName?_upper]
    exact hn (spelling, tag) hm

theorem ofName?_eq_none {name : List Char} (h : ¬∃ tag : Tag, tag.IsNamed name) :
    ofName? name = none :=
  Option.eq_none_iff_forall_ne_some.2 fun _ ht => h ⟨_, ofName?_eq_some_iff.1 ht⟩

/-- A name of a tag begins as an identifier does. -/
theorem IsNamed.exists_head {tag : Tag} {name : List Char} (h : tag.IsNamed name) :
    ∃ c ∈ name.head?, Descriptor.isNameStart c = true := by
  obtain ⟨spelling, hm, hu⟩ := h
  have hs : ∀ c, Descriptor.isNameStart c.toUpper = Descriptor.isNameStart c :=
    Text.apply_toUpper Descriptor.isNameStart (by decide)
  have hn : ∀ entry ∈ names, entry.1.toList.head?.any Descriptor.isNameStart = true := by decide
  have ha : ∀ cs : List Char, (upper cs).head?.any Descriptor.isNameStart
      = cs.head?.any Descriptor.isNameStart := by
    intro cs
    cases cs <;> simp [hs]
  have hh := hn _ hm
  rw [← ha, hu, ha, Option.any_eq_true] at hh
  exact hh

end Tag

namespace Descriptor

/-- Behind white space stands an identifier, and it goes no further. -/
def BeginsWith (text name : List Char) : Prop :=
  ∃ blanks rest, text = blanks ++ name ++ rest ∧ (∀ c ∈ blanks, Text.isBlank c = true) ∧
    IsIdentifier name ∧ ∀ c ∈ rest.head?, isNameChar c = false

theorem beginsWith_iff {text name : List Char} :
    BeginsWith text name ↔ ∃ rest, takeName? (Text.trimLeft text) = some (name, rest) := by
  constructor
  · rintro ⟨blanks, rest, rfl, hb, hn, hr⟩
    refine ⟨rest, ?_⟩
    rw [List.append_assoc, Text.trimLeft_append hb, hn.takeName?_trimLeft hr]
  · rintro ⟨rest, h⟩
    obtain ⟨hs, hn, hr⟩ := takeName?_eq_some_iff.1 h
    refine ⟨text.takeWhile Text.isBlank, rest, ?_, List.all_eq_true.1 List.all_takeWhile, hn, hr⟩
    rw [List.append_assoc, ← hs, Text.takeWhile_append_trimLeft]

theorem parse_of_isNamed {text : String} {name : List Char} {tag : Tag}
    (h : BeginsWith text.toList name) (ht : tag.IsNamed name) :
    parse text = .ok ⟨tag, (split text.toList).count, (split text.toList).order⟩ := by
  obtain ⟨rest, hs⟩ := beginsWith_iff.1 h
  have hn := (takeName?_eq_some_iff.1 hs).2.1
  rw [parse_eq_ok_iff, tag_split_of_takeName? hs, Text.trim_of_not_isBlank hn.isBlank]
  exact ⟨Tag.ofName?_eq_some_iff.2 ht, rfl, rfl⟩

theorem parse_of_ofName?_eq_none {text : String}
    (h : Tag.ofName? (Text.trim (split text.toList).tag) = none) :
    parse text
      = .error (.unsupportedType (String.ofList (Text.trim (split text.toList).tag))) := by
  simp only [parse_eq, Tag.resolve, String.toList_ofList, h]
  rfl

theorem parse_of_not_isNamed {text : String} {name : List Char}
    (h : BeginsWith text.toList name) (ht : ¬∃ tag : Tag, tag.IsNamed name) :
    parse text = .error (.unsupportedType (String.ofList name)) := by
  obtain ⟨rest, hs⟩ := beginsWith_iff.1 h
  have hn := (takeName?_eq_some_iff.1 hs).2.1
  have hp : Text.trim (split text.toList).tag = name := by
    rw [tag_split_of_takeName? hs, Text.trim_of_not_isBlank hn.isBlank]
  rw [parse_of_ofName?_eq_none (by rw [hp, Tag.ofName?_eq_none ht]), hp]

/-- Without an identifier in front the whole text stands for the tag, and it is none. -/
theorem parse_of_not_beginsWith {text : String} (h : ¬∃ name, BeginsWith text.toList name) :
    parse text = .error (.unsupportedType (String.ofList (Text.trim text.toList))) := by
  have hs : takeName? (Text.trimLeft text.toList) = none :=
    Option.eq_none_iff_forall_ne_some.2 fun found hf => h ⟨found.1, beginsWith_iff.2 ⟨found.2, hf⟩⟩
  have hp : Text.trim (split text.toList).tag = Text.trim text.toList := by
    rw [split_of_takeName?_eq_none hs, Text.trim_trim]
  have hn : ¬∃ tag : Tag, tag.IsNamed (Text.trim text.toList) := by
    rintro ⟨tag, ht⟩
    obtain ⟨c, hc, hi⟩ := ht.exists_head
    rw [takeName?_eq_none_iff.1 hs c (Text.mem_head?_trimLeft hc)] at hi
    cases hi
  rw [parse_of_ofName?_eq_none (by rw [hp, Tag.ofName?_eq_none hn]), hp]

/-- A text is read if and only if the identifier it begins with is a name of a tag in any case;
then it is read as that tag, with a count that is not zero, whatever stands behind the identifier.
Else it is refused by that identifier as it is spelled, or by the whole trimmed text where there is
none. The case of its letters makes no difference to what it is read as. -/
theorem parse_reads (text : String) :
    ((∃ d, parse text = .ok d) ↔
      ∃ (name : List Char) (tag : Tag), BeginsWith text.toList name ∧ tag.IsNamed name) ∧
      (∀ name, BeginsWith text.toList name →
        (∀ tag : Tag, tag.IsNamed name → ∃ d, parse text = .ok d ∧ d.tag = tag ∧
          1 ≤ d.count.toNat ∧ d.count.toNat < 2 ^ 32) ∧
        ((¬∃ tag : Tag, tag.IsNamed name) →
          parse text = .error (.unsupportedType (String.ofList name)))) ∧
      ((¬∃ name, BeginsWith text.toList name) →
        parse text = .error (.unsupportedType (String.ofList (Text.trim text.toList)))) ∧
      ∀ other : String, upper text.toList = upper other.toList →
        ∀ d, parse other = .ok d ↔ parse text = .ok d := by
  refine ⟨⟨?_, ?_⟩, fun name hb => ⟨fun tag ht => ?_, parse_of_not_isNamed hb⟩,
    parse_of_not_beginsWith, fun other h d => parse_of_upper_eq h d⟩
  · rintro ⟨d, hd⟩
    by_cases hb : ∃ name, BeginsWith text.toList name
    · obtain ⟨name, hb⟩ := hb
      by_cases ht : ∃ tag : Tag, tag.IsNamed name
      · obtain ⟨tag, ht⟩ := ht
        exact ⟨name, tag, hb, ht⟩
      · rw [parse_of_not_isNamed hb ht] at hd
        cases hd
    · rw [parse_of_not_beginsWith hb] at hd
      cases hd
  · rintro ⟨name, tag, hb, ht⟩
    exact ⟨_, parse_of_isNamed hb ht⟩
  · refine ⟨_, parse_of_isNamed hb ht, rfl, ?_, UInt32.toNat_lt _⟩
    exact Nat.pos_of_ne_zero fun h0 => count_split_ne_zero _ (UInt32.toNat_inj.1 h0)

/-- An alias in mixed case behind white space, before brackets that never close and a stray bar, and
the same text in lower case; an identifier that only begins like a tag; and no identifier. -/
theorem parse_reads_lenient :
    (∃ d, parse "\u2003 sHort[[x | ]| q" = .ok d ∧ d.tag = .int16) ∧
      (∀ d, parse "\u2003 short[[X | ]| Q" = .ok d ↔ parse "\u2003 sHort[[x | ]| q" = .ok d) ∧
      parse " CHARS[2]" = .error (.unsupportedType "CHARS") ∧
      parse "\t [3] CHAR " = .error (.unsupportedType "[3] CHAR") := by
  obtain ⟨-, hread, -, hcase⟩ := parse_reads "\u2003 sHort[[x | ]| q"
  have hb : BeginsWith "\u2003 sHort[[x | ]| q".toList "sHort".toList :=
    beginsWith_iff.2 ⟨_, rfl⟩
  obtain ⟨d, hd, ht, -⟩ := (hread _ hb).1 .int16 ⟨"SHORT", by decide, by decide⟩
  refine ⟨⟨d, hd, ht⟩, hcase _ (by decide), ?_, ?_⟩
  · have hc : BeginsWith " CHARS[2]".toList "CHARS".toList := beginsWith_iff.2 ⟨_, rfl⟩
    refine ((parse_reads " CHARS[2]").2.1 _ hc).2 ?_
    rintro ⟨tag, hn⟩
    have hnone : Tag.ofName? "CHARS".toList = none := by decide
    rw [Tag.ofName?_eq_some_iff.2 hn] at hnone
    cases hnone
  · refine (parse_reads "\t [3] CHAR ").2.2.1 ?_
    rintro ⟨name, hn⟩
    obtain ⟨rest, hs⟩ := beginsWith_iff.1 hn
    have hnone : takeName? (Text.trimLeft "\t [3] CHAR ".toList) = none := by decide
    rw [hs] at hnone
    cases hnone

end Descriptor

end BinaryLayout
